import EmbeddedAccelerator.Xdma.Transfers

/-!
`xdma_xfer_submit`: a request goes to the engine in as many transfers as the ring needs, one after the other. However
they end, the count that is returned is backed by what has been copied.
-/

namespace EmbeddedAccelerator.Xdma

open Copying (Move total gather)

/-- The bytes on the bus and the bytes of the card. -/
structure Memory where
  host : Addr → BitVec 8
  card : Addr → BitVec 8

namespace Memory

def exec (dir : Dir) (mem : Memory) (x : Move Addr Addr) : Memory :=
  match dir with
  | .toDevice => { mem with card := x.exec mem.host mem.card }
  | .fromDevice => { mem with host := x.exec mem.card mem.host }

def execAll (dir : Dir) (mem : Memory) (xs : List (Move Addr Addr)) : Memory := xs.foldl (exec dir) mem

theorem execAll_append (dir : Dir) (mem : Memory) (xs ys : List (Move Addr Addr)) :
    execAll dir mem (xs ++ ys) = execAll dir (execAll dir mem xs) ys := List.foldl_append

end Memory

/-- How a transfer ends for the thread that waits for it, with what the engine has done of it: so many
descriptors, and so many bytes of the next one. -/
inductive Outcome where
  | refused
  | completed
  | failed (descs bytes : ℕ)
  | timedOut (descs bytes : ℕ)
  deriving DecidableEq, Repr

def ebusy : ℤ := 16
def einval : ℤ := 22
def eio : ℤ := 5
def enomem : ℤ := 12
def erestartsys : ℤ := 512

/-- The first part of a list of copies. -/
def started (descs bytes : ℕ) (xs : List (Move Addr Addr)) : List (Move Addr Addr) :=
  xs.take descs ++ ((xs.drop descs).take 1).map fun x => { x with len := min bytes x.len }

def Outcome.progress (xs : List (Move Addr Addr)) : Outcome → List (Move Addr Addr)
  | .refused => []
  | .completed => xs
  | .failed descs bytes | .timedOut descs bytes => started descs bytes xs

/-- The local variables of `xdma_xfer_submit`, with the ring and the memories. -/
structure Submission (e : Engine) where
  ring : Ring e
  req : Request
  mem : Memory
  done : ℕ
  rv : ℤ

variable {e : Engine}

/-- `transfer_destroy` clears the descriptors of a transfer that has been queued. -/
def transferDestroy (x : Transfer) (r : Ring e) : Ring e :=
  { r with
    desc := forDesc x.descIndex x.descNum (fun _ _ => ⟨0, 0, 0, 0, 0, 0, 0, 0⟩) r.desc
    descUsed := r.descUsed - x.descNum }

/-- One transfer that ends in the way `o`. -/
def submitStep (o : Outcome) (x : Submission e) : Submission e :=
  let t := transferInit e x.req x.ring
  let mem := x.mem.execAll e.dir (o.progress ((fetched e t.2.2.desc t.1).flatten.map Desc.move))
  match o with
  | .refused => { x with req := t.2.1, ring := t.2.2, rv := -ebusy }
  | .completed =>
    { req := t.2.1, ring := transferDestroy t.1 t.2.2, mem := mem, done := x.done + t.1.len, rv := 0 }
  | .failed _ _ => { x with req := t.2.1, ring := transferDestroy t.1 t.2.2, mem := mem, rv := -eio }
  | .timedOut _ _ => { x with req := t.2.1, ring := transferDestroy t.1 t.2.2, mem := mem, rv := -erestartsys }

theorem swDescIdx_submitStep (o : Outcome) (x : Submission e) :
    (submitStep o x).req.swDescIdx = x.req.swDescIdx + descCount e x.req x.ring ∧
      (submitStep o x).req.sdesc = x.req.sdesc := by
  cases o <;> exact ⟨rfl, rfl⟩

section Moves

/-- Where the next piece goes after `n` bytes. -/
def advance (e : Engine) (epAddr : Addr) (n : ℕ) : Addr := if e.nonIncrAddr then epAddr else epAddr + (n : Addr)

theorem advance_advance (epAddr : Addr) (n k : ℕ) : advance e (advance e epAddr n) k = advance e epAddr (n + k) := by
  rw [advance, advance, advance]
  split_ifs
  · rfl
  · rw [Nat.cast_add, add_assoc]

theorem moves_append (epAddr : Addr) (ps qs : List SwDesc) :
    e.moves epAddr (ps ++ qs) = e.moves epAddr ps ++ e.moves (advance e epAddr (total ps)) qs := by
  induction ps generalizing epAddr with
  | nil =>
    rw [List.nil_append, Engine.moves, List.nil_append, advance, Copying.total_nil, Nat.cast_zero, add_zero, ite_self]
  | cons p ps ih =>
    have hadvance : advance e (if e.nonIncrAddr then epAddr else epAddr + (p.len : Addr)) (total ps) =
        advance e epAddr (total (p :: ps)) := advance_advance epAddr p.len (total ps)
    rw [List.cons_append, Engine.moves, ih, hadvance, Engine.moves, List.cons_append]

end Moves

section Step

variable {x : Submission e} (hx : x.req.swDescIdx < x.req.sdesc.length) (hlen : ∀ d ∈ x.req.sdesc, d.len < 2 ^ 28)
include hx hlen

theorem mem_submitStep (o : Outcome) :
    (submitStep o x).mem = x.mem.execAll e.dir (o.progress (e.moves x.req.epAddr (part e x.req x.ring))) := by
  have hmoves := (fetched_transferInit e x.req x.ring hx fun d hd => (hlen d hd).trans (by decide)).1
  cases o
  · rfl
  · exact congrArg (fun xs => x.mem.execAll e.dir (Outcome.progress xs _)) hmoves
  · exact congrArg (fun xs => x.mem.execAll e.dir (Outcome.progress xs _)) hmoves
  · exact congrArg (fun xs => x.mem.execAll e.dir (Outcome.progress xs _)) hmoves

omit hx hlen in
theorem epAddr_submitStep (o : Outcome) :
    (submitStep o x).req.epAddr = advance e x.req.epAddr (total (part e x.req x.ring)) := by
  cases o <;> exact transferBuild_epAddr _ _ _

omit hx hlen in
theorem take_submitStep (o : Outcome) : x.req.sdesc.take (submitStep o x).req.swDescIdx =
    x.req.sdesc.take x.req.swDescIdx ++ part e x.req x.ring := by
  rw [(swDescIdx_submitStep o x).1, part, List.take_add]

omit hx hlen in
theorem done_submitStep (h : total (part e x.req x.ring) < 2 ^ 32) :
    (submitStep .completed x).done = x.done + total (part e x.req x.ring) := by
  have hlen := transferBuild_len (e := e) x.ring.descIdx (part e x.req x.ring)
    ⟨transferDescInit e x.ring.descIdx (descCount e x.req x.ring) x.ring.desc, x.req.epAddr, 0⟩
  rw [Nat.mod_eq_of_lt (transferBuild_len_lt (Nat.two_pow_pos 32)), Nat.zero_add, Nat.mod_eq_of_lt h] at hlen
  exact congrArg (x.done + ·) hlen

end Step

section Run

/-- All transfers up to here have been completed. -/
structure Acknowledged (x₀ x : Submission e) : Prop where
  sdesc : x.req.sdesc = x₀.req.sdesc
  idx_le : x.req.swDescIdx ≤ x₀.req.sdesc.length
  epAddr : x.req.epAddr = advance e x₀.req.epAddr (total (x₀.req.sdesc.take x.req.swDescIdx))
  mem : x.mem = x₀.mem.execAll e.dir (e.moves x₀.req.epAddr (x₀.req.sdesc.take x.req.swDescIdx))
  done : x.done = total (x₀.req.sdesc.take x.req.swDescIdx)
  descUsed : x.ring.descUsed = x₀.ring.descUsed
  rv : x.rv = 0

/-- The loop has left the request at descriptor `i`, with a transfer that has ended in the way `o`. -/
structure Left (x₀ y : Submission e) (i : ℕ) (o : Outcome) : Prop where
  lt : i < x₀.req.sdesc.length
  done : y.done = total (x₀.req.sdesc.take i)
  rv : y.rv < 0
  mem : ∃ count : ℕ, y.mem = x₀.mem.execAll e.dir
    (e.moves x₀.req.epAddr (x₀.req.sdesc.take i) ++
      o.progress (e.moves (advance e x₀.req.epAddr (total (x₀.req.sdesc.take i))) ((x₀.req.sdesc.drop i).take count)))

variable {x₀ x : Submission e} (hlen : ∀ d ∈ x₀.req.sdesc, d.len < 2 ^ 28) (htotal : total x₀.req.sdesc < 2 ^ 32)
  (hx : Acknowledged x₀ x)
include hlen hx

theorem Acknowledged.succ (htotal : total x₀.req.sdesc < 2 ^ 32) (hlt : x.req.swDescIdx < x.req.sdesc.length) :
    Acknowledged x₀ (submitStep .completed x) := by
  have hx' := hx.sdesc
  have htake := take_submitStep (x := x) .completed
  have hmem := mem_submitStep hlt (by rwa [hx']) .completed
  rw [hx'] at htake
  have hsplit : total (x₀.req.sdesc.take (submitStep .completed x).req.swDescIdx) =
      total (x₀.req.sdesc.take x.req.swDescIdx) + total (part e x.req x.ring) := by
    rw [htake, Copying.total_append]
  have hle : total (x₀.req.sdesc.take (submitStep .completed x).req.swDescIdx) ≤ total x₀.req.sdesc := by
    conv_rhs => rw [← List.take_append_drop (submitStep .completed x).req.swDescIdx x₀.req.sdesc, Copying.total_append]
    exact Nat.le_add_right _ _
  refine ⟨(swDescIdx_submitStep .completed x).2.trans hx', ?_, ?_, ?_, ?_, ?_, rfl⟩
  · rw [(swDescIdx_submitStep .completed x).1, ← hx']
    have hcount := (descCount_le x.req x.ring).1
    omega
  · rw [epAddr_submitStep, hx.epAddr, advance_advance, hsplit]
  · rw [hmem, htake, moves_append, Memory.execAll_append, ← hx.mem, ← hx.epAddr]
    rfl
  · rw [done_submitStep (by omega), hx.done, hsplit]
  · exact (Nat.add_sub_cancel x.ring.descUsed _).trans hx.descUsed

theorem Acknowledged.left {o : Outcome} (ho : o ≠ .completed) (hlt : x.req.swDescIdx < x.req.sdesc.length) :
    Left x₀ (submitStep o x) x.req.swDescIdx o := by
  have hx' := hx.sdesc
  have hmem := mem_submitStep hlt (by rwa [hx']) o
  refine ⟨hx' ▸ hlt, ?_, ?_, descCount e x.req x.ring, ?_⟩
  · rw [← hx.done]
    cases o with
    | completed => exact absurd rfl ho
    | refused | failed _ _ | timedOut _ _ => rfl
  · cases o with
    | completed => exact absurd rfl ho
    | refused => exact Int.negSucc_lt_zero 15
    | failed _ _ => exact Int.negSucc_lt_zero 4
    | timedOut _ _ => exact Int.negSucc_lt_zero 511
  · rw [hmem, Memory.execAll_append, ← hx.mem, ← hx.epAddr, ← hx', part]

end Run

theorem exampleBlenMax_lt : 2 ^ 28 - 1 < 2 ^ 28 := by decide

/-- `XDMA_DESC_BLEN_MAX`. -/
def exampleBlenMax : DescBlenMax := ⟨2 ^ 28 - 1, Nat.succ_pos _, exampleBlenMax_lt⟩

end EmbeddedAccelerator.Xdma
