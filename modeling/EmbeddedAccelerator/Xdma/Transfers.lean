import EmbeddedAccelerator.Copying.Chains
import EmbeddedAccelerator.Xdma.Requests

/-!
`transfer_init`: a part of a request becomes a chain of descriptors in the ring of an engine. Whatever the ring held
before, the engine finds that part of the request in it.
-/

namespace EmbeddedAccelerator.Xdma

open Copying (Move follow followBlocks Linked total)

/-- An engine for memory mapped transfers, and where its descriptors are. -/
structure Engine where
  descBus : Addr
  descMax : ℕ
  dir : Dir
  nonIncrAddr : Bool
  eopFlush : Bool
  pos : 0 < descMax
  aligned : descBus.toNat % pageSize = 0
  fits : sizeofDesc * descMax ≤ 2 ^ 64

/-- The ring of descriptors, and the next one to be used. -/
structure Ring (e : Engine) where
  desc : ℕ → Desc
  descIdx : ℕ
  descUsed : ℕ
  idx_lt : descIdx < e.descMax

structure Transfer where
  dir : Dir
  descIndex : ℕ
  descBus : Addr
  descAdjacent : ℕ
  descNum : ℕ
  descCmplTh : ℕ
  len : ℕ

namespace Engine

variable (e : Engine)

def bus (i : ℕ) : Addr := e.descBus + BitVec.ofNat 64 (sizeofDesc * i)

/-- The copies that descriptors for these pieces ask for. -/
def moves : Addr → List SwDesc → List (Move Addr Addr)
  | _, [] => []
  | epAddr, s :: sdesc =>
    (match e.dir with
      | .toDevice => ⟨s.addr, epAddr, s.len⟩
      | .fromDevice => ⟨epAddr, s.addr, s.len⟩) ::
      moves (if e.nonIncrAddr then epAddr else epAddr + (s.len : Addr)) sdesc

end Engine

variable {e : Engine}

/-- The descriptor that the engine reads at a bus address. -/
def cell (e : Engine) (desc : ℕ → Desc) (a : Addr) : Desc := desc ((a - e.descBus).toNat / sizeofDesc)

/-- A loop over `n` descriptors. -/
def forDesc (start n : ℕ) (f : ℕ → Desc → Desc) (desc : ℕ → Desc) (k : ℕ) : Desc :=
  if start ≤ k ∧ k < start + n then f (k - start) (desc k) else desc k

def chainDesc (nextBus : Addr) (d : Desc) : Desc :=
  { d with nextLo := pciDmaL nextBus, nextHi := pciDmaH nextBus, bytes := 0, control := descMagic }

/-- Every descriptor shows the next one, and the last one shows none. -/
def transferDescInit (e : Engine) (start count : ℕ) (desc : ℕ → Desc) : ℕ → Desc :=
  let desc := forDesc start (count - 1) (fun i => chainDesc (e.bus (start + i + 1))) desc
  Function.update desc (start + (count - 1)) (chainDesc 0 (desc (start + (count - 1))))

/-- The state of the loop of `transfer_build`. -/
structure Build where
  desc : ℕ → Desc
  epAddr : Addr
  len : ℕ

def transferBuild (e : Engine) : ℕ → List SwDesc → Build → Build
  | _, [], b => b
  | j, s :: sdesc, b =>
    transferBuild e (j + 1) sdesc
      { desc := Function.update b.desc j (descSet s.addr b.epAddr s.len e.dir (b.desc j))
        epAddr := if e.nonIncrAddr then b.epAddr else b.epAddr + (s.len : Addr)
        len := (b.len + s.len) % 2 ^ 32 }

/-- How many descriptors a transfer takes: not more than are left of the request, and not beyond the end
of the ring. -/
def descCount (e : Engine) (req : Request) (r : Ring e) : ℕ :=
  let descMax := min (req.sdesc.length - req.swDescIdx) e.descMax
  if r.descIdx + descMax ≥ e.descMax then e.descMax - r.descIdx else descMax

/-- The engine stops and asks for an interrupt at the last descriptor. -/
def terminate (e : Engine) (start count : ℕ) (desc : ℕ → Desc) : ℕ → Desc :=
  let last := count - 1
  let desc := forDesc (start + last) 1 (fun _ => descControlSet (descStopped ||| descEop ||| descCompleted)) desc
  if e.eopFlush then forDesc start last (fun _ => descControlSet descCompleted) desc else desc

def fillAdjacent (start count : ℕ) : (ℕ → Desc) → ℕ → Desc :=
  forDesc start count fun i d => descAdjacent (getNextAdj (count - i - 1) d.nextLo) d

theorem nextIdx_lt (e : Engine) (n : ℕ) : n % e.descMax < e.descMax := Nat.mod_lt n e.pos

def transferInit (e : Engine) (req : Request) (r : Ring e) : Transfer × Request × Ring e :=
  let count := descCount e req r
  let b := transferBuild e r.descIdx ((req.sdesc.drop req.swDescIdx).take count)
    ⟨transferDescInit e r.descIdx count r.desc, req.epAddr, 0⟩
  ({ dir := e.dir
     descIndex := r.descIdx
     descBus := e.bus r.descIdx
     descAdjacent := count
     descNum := count
     descCmplTh := if e.eopFlush then 1 else count
     len := b.len },
    { req with swDescIdx := req.swDescIdx + count, epAddr := b.epAddr },
    { desc := fillAdjacent r.descIdx count (terminate e r.descIdx count b.desc)
      descIdx := (r.descIdx + count) % e.descMax
      descUsed := r.descUsed + count
      idx_lt := nextIdx_lt e _ })

def neighbour (a : Addr) (i : ℕ) : Addr := a + BitVec.ofNat 64 (sizeofDesc * i)

/-- What the engine does from the first descriptor on: it reads them in blocks of neighbours. -/
def fetched (e : Engine) (desc : ℕ → Desc) (x : Transfer) : List (List Desc) :=
  followBlocks (cell e desc) Desc.next Desc.stopped neighbour Desc.nextAdjacent x.descNum
    x.descBus (getNextAdj x.descAdjacent (pciDmaL x.descBus))

section Bus

theorem neighbour_bus (k i : ℕ) : neighbour (e.bus k) i = e.bus (k + i) := by
  rw [neighbour, Engine.bus, Engine.bus, Nat.mul_add, BitVec.ofNat_add, BitVec.add_assoc]

theorem cell_bus (desc : ℕ → Desc) {i : ℕ} (h : i < e.descMax) : cell e desc (e.bus i) = desc i := by
  have hlt : sizeofDesc * i < 2 ^ 64 := by
    have hfits := e.fits
    simp only [sizeofDesc] at *
    omega
  have hcancel : e.bus i - e.descBus = BitVec.ofNat 64 (sizeofDesc * i) := by
    rw [Engine.bus, BitVec.add_comm, BitVec.add_sub_cancel]
  rw [cell, hcancel, BitVec.toNat_ofNat, Nat.mod_eq_of_lt hlt, Nat.mul_div_cancel_left i (by decide)]

theorem bus_mod_pageSize (i : ℕ) : (e.bus i).toNat % pageSize = sizeofDesc * i % pageSize := by
  have h := e.aligned
  rw [Engine.bus, BitVec.toNat_add, BitVec.toNat_ofNat]
  simp only [pageSize, sizeofDesc] at *
  omega

end Bus

section Count

variable (req : Request) (r : Ring e)

theorem descCount_le : descCount e req r ≤ req.sdesc.length - req.swDescIdx ∧
    r.descIdx + descCount e req r ≤ e.descMax := by
  have hlt := r.idx_lt
  have h1 := Nat.min_le_left (req.sdesc.length - req.swDescIdx) e.descMax
  simp only [descCount]
  split_ifs <;> omega

theorem descCount_pos {req : Request} (r : Ring e) (h : req.swDescIdx < req.sdesc.length) : 0 < descCount e req r := by
  have hlt := r.idx_lt
  have hpos : 0 < min (req.sdesc.length - req.swDescIdx) e.descMax := Nat.lt_min.mpr ⟨by omega, e.pos⟩
  simp only [descCount]
  split_ifs <;> omega

end Count

section Build

theorem descSet_frame (rc ep : Addr) (len : ℕ) (dir : Dir) (d : Desc) :
    (descSet rc ep len dir d).control = d.control ∧ (descSet rc ep len dir d).nextLo = d.nextLo ∧
      (descSet rc ep len dir d).nextHi = d.nextHi := by
  cases dir <;> exact ⟨rfl, rfl, rfl⟩

theorem move_descSet (rc ep : Addr) {len : ℕ} (h : len < 2 ^ 32) (dir : Dir) (d : Desc) :
    (descSet rc ep len dir d).move =
      match dir with
      | .toDevice => ⟨rc, ep, len⟩
      | .fromDevice => ⟨ep, rc, len⟩ := by
  cases dir <;> simpa [descSet, Desc.move] using h

theorem transferBuild_frame (j : ℕ) (sdesc : List SwDesc) (b : Build) (k : ℕ) :
    ((transferBuild e j sdesc b).desc k).control = (b.desc k).control ∧
      ((transferBuild e j sdesc b).desc k).nextLo = (b.desc k).nextLo ∧
      ((transferBuild e j sdesc b).desc k).nextHi = (b.desc k).nextHi := by
  induction sdesc generalizing j b with
  | nil => exact ⟨rfl, rfl, rfl⟩
  | cons s sdesc ih =>
    obtain ⟨h1, h2, h3⟩ := ih (j + 1) { desc := Function.update b.desc j (descSet s.addr b.epAddr s.len e.dir (b.desc j))
                                        epAddr := if e.nonIncrAddr then b.epAddr else b.epAddr + (s.len : Addr)
                                        len := (b.len + s.len) % 2 ^ 32 }
    rw [transferBuild, h1, h2, h3]
    by_cases hk : k = j
    · subst hk
      simp only [Function.update_self]
      exact descSet_frame _ _ _ _ _
    · simp only [Function.update_of_ne hk]
      exact ⟨trivial, trivial, trivial⟩

theorem transferBuild_of_lt {j : ℕ} (sdesc : List SwDesc) (b : Build) {k : ℕ} (hk : k < j ∨ j + sdesc.length ≤ k) :
    (transferBuild e j sdesc b).desc k = b.desc k := by
  induction sdesc generalizing j b with
  | nil => rfl
  | cons s sdesc ih =>
    rw [List.length_cons] at hk
    rw [transferBuild, ih _ (by omega)]
    exact Function.update_of_ne (by omega) _ _

theorem map_move_transferBuild (j : ℕ) (sdesc : List SwDesc) (h : ∀ s ∈ sdesc, s.len < 2 ^ 32) (b : Build) :
    (List.range' j sdesc.length).map (fun k => ((transferBuild e j sdesc b).desc k).move) = e.moves b.epAddr sdesc := by
  induction sdesc generalizing j b with
  | nil => rfl
  | cons s sdesc ih =>
    have hs := h s List.mem_cons_self
    rw [List.length_cons, List.range'_succ, List.map_cons, transferBuild, transferBuild_of_lt _ _ (.inl (Nat.lt_succ_self j)),
      ih (j + 1) fun s hs => h s (List.mem_cons_of_mem _ hs), Engine.moves]
    simp only [Function.update_self, move_descSet _ _ hs]

theorem transferBuild_epAddr (j : ℕ) (sdesc : List SwDesc) (b : Build) :
    (transferBuild e j sdesc b).epAddr = if e.nonIncrAddr then b.epAddr else b.epAddr + (total sdesc : Addr) := by
  induction sdesc generalizing j b with
  | nil => simp [transferBuild]
  | cons s sdesc ih =>
    rw [transferBuild, ih]
    cases e.nonIncrAddr
    · simp only [Bool.false_eq_true, if_false, Copying.total_cons, Nat.cast_add, add_assoc]
    · rfl

theorem transferBuild_len (j : ℕ) (sdesc : List SwDesc) (b : Build) :
    (transferBuild e j sdesc b).len % 2 ^ 32 = (b.len + total sdesc) % 2 ^ 32 := by
  induction sdesc generalizing j b with
  | nil => rfl
  | cons s sdesc ih =>
    rw [transferBuild, ih, Copying.total_cons]
    simp only
    omega

theorem transferBuild_len_lt {j : ℕ} {sdesc : List SwDesc} {b : Build} (hb : b.len < 2 ^ 32) :
    (transferBuild e j sdesc b).len < 2 ^ 32 := by
  induction sdesc generalizing j b with
  | nil => exact hb
  | cons s sdesc ih => exact ih (Nat.mod_lt _ (by decide))

end Build

section Chain

variable {start n : ℕ} (b : Build)

/-- The bus address that descriptor `i` of the chain shows. -/
def nextBus (e : Engine) (start n i : ℕ) : Addr := if i + 1 < n then e.bus (start + i + 1) else 0

theorem transferDescInit_apply (start : ℕ) (desc : ℕ → Desc) {i : ℕ} (hi : i < n) :
    (transferDescInit e start n desc (start + i)).control = descMagic ∧
      (transferDescInit e start n desc (start + i)).nextLo = pciDmaL (nextBus e start n i) ∧
      (transferDescInit e start n desc (start + i)).nextHi = pciDmaH (nextBus e start n i) := by
  by_cases hlast : i + 1 < n
  · have hne : start + i ≠ start + (n - 1) := by omega
    have hin : start ≤ start + i ∧ start + i < start + (n - 1) := by omega
    rw [transferDescInit, Function.update_of_ne hne, forDesc, if_pos hin, nextBus, if_pos hlast, Nat.add_sub_cancel_left]
    exact ⟨rfl, rfl, rfl⟩
  · have heq : start + i = start + (n - 1) := by omega
    rw [transferDescInit, nextBus, if_neg hlast, heq, Function.update_self]
    exact ⟨rfl, rfl, rfl⟩

theorem transferDescInit_of_lt (desc : ℕ → Desc) {k : ℕ} (hn : 0 < n) (hk : k < start ∨ start + n ≤ k) :
    transferDescInit e start n desc k = desc k := by
  rw [transferDescInit, Function.update_of_ne (by omega), forDesc, if_neg (by omega)]

theorem descControlSet_stop {d : Desc} (h : d.control = descMagic) :
    (descControlSet (descStopped ||| descEop ||| descCompleted) d).control =
      descMagic ||| (descStopped ||| descEop ||| descCompleted) := by
  rw [descControlSet, if_neg (by decide), h]
  rfl

theorem descControlSet_flush {d : Desc} (h : d.control = descMagic) :
    (descControlSet descCompleted d).control = descMagic ||| descCompleted := by
  rw [descControlSet, if_neg (by decide), h]
  rfl

theorem descControlSet_frame (field : BitVec 32) (d : Desc) :
    (descControlSet field d).nextHi = d.nextHi ∧ (descControlSet field d).move = d.move ∧
      (descControlSet field d).nextLo = d.nextLo := by
  rw [descControlSet]
  split_ifs <;> exact ⟨rfl, rfl, rfl⟩

theorem terminate_apply (desc : ℕ → Desc) {i : ℕ} (hi : i < n) (h : (desc (start + i)).control = descMagic) :
    (terminate e start n desc (start + i)).nextHi = (desc (start + i)).nextHi ∧
      (terminate e start n desc (start + i)).move = (desc (start + i)).move ∧
      (terminate e start n desc (start + i)).nextLo = (desc (start + i)).nextLo ∧
      (terminate e start n desc (start + i)).control =
        if i + 1 = n then descMagic ||| (descStopped ||| descEop ||| descCompleted)
        else if e.eopFlush then descMagic ||| descCompleted else descMagic := by
  by_cases hlast : i + 1 = n
  · have hstop : forDesc (start + (n - 1)) 1 (fun _ => descControlSet (descStopped ||| descEop ||| descCompleted)) desc
        (start + i) = descControlSet (descStopped ||| descEop ||| descCompleted) (desc (start + i)) :=
      if_pos (by omega)
    have hterm : terminate e start n desc (start + i) =
        descControlSet (descStopped ||| descEop ||| descCompleted) (desc (start + i)) := by
      rw [terminate]
      split_ifs
      · rw [forDesc, if_neg (by omega), hstop]
      · exact hstop
    obtain ⟨h1, h2, h3⟩ := descControlSet_frame (descStopped ||| descEop ||| descCompleted) (desc (start + i))
    rw [hterm, if_pos hlast]
    exact ⟨h1, h2, h3, descControlSet_stop h⟩
  · have hstop : forDesc (start + (n - 1)) 1 (fun _ => descControlSet (descStopped ||| descEop ||| descCompleted)) desc
        (start + i) = desc (start + i) := if_neg (by omega)
    rw [terminate, if_neg hlast]
    split_ifs
    · obtain ⟨h1, h2, h3⟩ := descControlSet_frame descCompleted (desc (start + i))
      rw [forDesc, if_pos (by omega), hstop]
      exact ⟨h1, h2, h3, descControlSet_flush h⟩
    · rw [hstop]
      exact ⟨rfl, rfl, rfl, h⟩

theorem terminate_of_lt (desc : ℕ → Desc) {k : ℕ} (hn : 0 < n) (hk : k < start ∨ start + n ≤ k) :
    terminate e start n desc k = desc k := by
  have hstop : forDesc (start + (n - 1)) 1 (fun _ => descControlSet (descStopped ||| descEop ||| descCompleted)) desc k =
      desc k := if_neg (by omega)
  rw [terminate]
  split_ifs
  · rw [forDesc, if_neg (by omega), hstop]
  · exact hstop

theorem fillAdjacent_apply (desc : ℕ → Desc) {i : ℕ} (hi : i < n) (hfresh : Fresh (desc (start + i)).control)
    (hlo : (desc (start + i)).nextLo = pciDmaL (nextBus e start n i))
    (hhi : (desc (start + i)).nextHi = pciDmaH (nextBus e start n i)) :
    let d := fillAdjacent start n desc (start + i)
    d.stopped = (desc (start + i)).stopped ∧ d.next = nextBus e start n i ∧
      d.nextAdjacent = getNextAdj (n - i - 1) (pciDmaL (nextBus e start n i)) ∧ d.move = (desc (start + i)).move := by
  have hin : start ≤ start + i ∧ start + i < start + n := by omega
  have hdesc : fillAdjacent start n desc (start + i) =
      descAdjacent (getNextAdj (n - i - 1) (desc (start + i)).nextLo) (desc (start + i)) := by
    rw [fillAdjacent, forDesc, if_pos hin, Nat.add_sub_cancel_left]
  rw [hdesc]
  refine ⟨stopped_descAdjacent _ _, ?_, ?_, rfl⟩
  · change Desc.join (desc (start + i)).nextHi (desc (start + i)).nextLo = _
    rw [hlo, hhi, join_pciDma]
  · rw [nextAdjacent_descAdjacent hfresh (getNextAdj_lt _ _), hlo]

end Chain

theorem bus_page {i j : ℕ} (h : i % maxAdjBlockSize + j < maxAdjBlockSize) :
    (e.bus i).toNat / pageSize = (e.bus (i + j)).toNat / pageSize := by
  have haligned := e.aligned
  rw [Engine.bus, Engine.bus, BitVec.toNat_add, BitVec.toNat_ofNat, BitVec.toNat_add, BitVec.toNat_ofNat]
  simp only [pageSize, sizeofDesc, maxAdjBlockSize] at *
  omega

/-- `n` descriptors from `start` on that show one another and end the chain. -/
structure Chained (e : Engine) (desc : ℕ → Desc) (start n : ℕ) : Prop where
  stopped : ∀ i < n, (desc (start + i)).stopped = decide (i + 1 = n)
  next : ∀ i < n, (desc (start + i)).next = nextBus e start n i
  adjacent : ∀ i < n, (desc (start + i)).nextAdjacent = getNextAdj (n - i - 1) (pciDmaL (nextBus e start n i))

section Fetch

variable {desc : ℕ → Desc} {start n : ℕ} (hring : start + n ≤ e.descMax)
include hring

theorem cell_bus_add {i : ℕ} (hi : i < n) : cell e desc (e.bus (start + i)) = desc (start + i) := cell_bus _ (by omega)

variable (h : Chained e desc start n)
include h

theorem Chained.linked : Linked (cell e desc) Desc.next Desc.stopped (fun i => e.bus (start + i)) n := by
  constructor
  · intro i hi
    rw [cell_bus_add hring (by omega), h.next i (by omega), nextBus, if_pos hi]
    rfl
  · intro i hi
    rw [cell_bus_add hring hi, h.stopped i hi]

theorem Chained.fetched (hpos : 0 < n) {x : Transfer} (hbus : x.descBus = e.bus start) (hadjacent : x.descAdjacent = n)
    (hnum : x.descNum = n) :
    (fetched e desc x).flatten.map Desc.move = (List.range' start n).map (fun k => (desc k).move) ∧
      ∀ block ∈ Xdma.fetched e desc x, ∃ i j, start ≤ i ∧ i + j < start + n ∧
        (e.bus i).toNat / pageSize = (e.bus (i + j)).toNat / pageSize ∧ block = (List.range' i (j + 1)).map desc := by
  have hshift (k i : ℕ) (_ : k + i < n) : neighbour (e.bus (start + k)) i = e.bus (start + (k + i)) := by
    rw [neighbour_bus, Nat.add_assoc]
  have hgroup (i remaining : ℕ) : (start + i) % maxAdjBlockSize + getNextAdj remaining (pciDmaL (e.bus (start + i))) <
      maxAdjBlockSize := getNextAdj_group (bus_mod_pageSize _)
  have hadj (i : ℕ) (hi : i + 1 < n) : i + 1 + (cell e desc (e.bus (start + i))).nextAdjacent < n ∧
      (start + (i + 1)) % maxAdjBlockSize + (cell e desc (e.bus (start + i))).nextAdjacent < maxAdjBlockSize := by
    have hle := getNextAdj_le (n - i - 1) (pciDmaL (e.bus (start + i + 1)))
    rw [cell_bus_add hring (by omega), h.adjacent i (by omega), nextBus, if_pos hi]
    exact ⟨by omega, hgroup (i + 1) _⟩
  have hfirst := getNextAdj_le n (pciDmaL (e.bus start))
  rw [Xdma.fetched, hbus, hadjacent, hnum]
  constructor
  · have hflat := ((h.linked hring).followBlocks_flatten hshift (fun i hi => (hadj i hi).1) 0
      (getNextAdj n (pciDmaL (e.bus start))) n (by omega) (by omega)).trans
      ((h.linked hring).follow_eq (by omega) (by omega))
    refine (congrArg (List.map Desc.move) hflat).trans ?_
    rw [List.range'_eq_map_range, List.range'_eq_map_range, List.map_map, List.map_map, List.map_map]
    apply List.map_congr_left
    intro i hi
    simp only [Function.comp_apply, Nat.zero_add, cell_bus_add hring (List.mem_range.mp hi)]
  · intro block hb
    obtain ⟨i, j, ⟨hgrp, hij⟩, rfl⟩ := (h.linked hring).followBlocks_forall hshift
      (p := fun i j => (start + i) % maxAdjBlockSize + j < maxAdjBlockSize ∧ i + j < n)
      (fun i hi => ⟨(hadj i hi).1, (hadj i hi).2, (hadj i hi).1⟩) 0 (getNextAdj n (pciDmaL (e.bus start))) n (by omega)
      ⟨hgroup 0 _, by omega⟩ (by omega) block hb
    refine ⟨start + i, j, by omega, by omega, bus_page hgrp, ?_⟩
    rw [List.range'_eq_map_range, List.range'_eq_map_range, List.map_map, List.map_map]
    apply List.map_congr_left
    intro u hu
    have hu := List.mem_range.mp hu
    rw [Function.comp_apply, Function.comp_apply, cell_bus_add hring (by omega), Nat.add_assoc]

end Fetch

section Init

variable {req : Request} {r : Ring e}

theorem transferInit_desc {i : ℕ} (hi : i < descCount e req r) :
    let d := (transferInit e req r).2.2.desc (r.descIdx + i)
    d.stopped = decide (i + 1 = descCount e req r) ∧ d.next = nextBus e r.descIdx (descCount e req r) i ∧
      d.nextAdjacent = getNextAdj (descCount e req r - i - 1) (pciDmaL (nextBus e r.descIdx (descCount e req r) i)) ∧
      d.move = ((transferBuild e r.descIdx ((req.sdesc.drop req.swDescIdx).take (descCount e req r))
        ⟨transferDescInit e r.descIdx (descCount e req r) r.desc, req.epAddr, 0⟩).desc (r.descIdx + i)).move := by
  let n := descCount e req r
  let b := transferBuild e r.descIdx ((req.sdesc.drop req.swDescIdx).take n)
    ⟨transferDescInit e r.descIdx n r.desc, req.epAddr, 0⟩
  obtain ⟨hcontrol, hlo, hhi⟩ := transferDescInit_apply (e := e) r.descIdx r.desc hi
  obtain ⟨h1, h2, h3⟩ := transferBuild_frame (e := e) r.descIdx ((req.sdesc.drop req.swDescIdx).take n)
    ⟨transferDescInit e r.descIdx n r.desc, req.epAddr, 0⟩ (r.descIdx + i)
  obtain ⟨t1, t2, t3, t4⟩ := terminate_apply (e := e) b.desc hi (h1.trans hcontrol)
  have hfresh : Fresh (terminate e r.descIdx n b.desc (r.descIdx + i)).control := by
    rw [t4]
    split_ifs
    · exact .inr (.inl rfl)
    · exact .inr (.inr rfl)
    · exact .inl rfl
  obtain ⟨hstopped, hnext, hadjacent, hmove⟩ := fillAdjacent_apply (terminate e r.descIdx n b.desc) hi hfresh
    (t3.trans (h2.trans hlo)) (t1.trans (h3.trans hhi))
  refine ⟨hstopped.trans ?_, hnext, hadjacent, hmove.trans t2⟩
  rw [Desc.stopped, t4]
  by_cases hlast : i + 1 = n
  · rw [if_pos hlast, decide_eq_true hlast]
    rfl
  · rw [if_neg hlast, decide_eq_false hlast]
    split_ifs <;> rfl

/-- The part of the request that the transfer takes. -/
def part (e : Engine) (req : Request) (r : Ring e) : List SwDesc :=
  (req.sdesc.drop req.swDescIdx).take (descCount e req r)

theorem length_part : (part e req r).length = descCount e req r := by
  rw [part, List.length_take, List.length_drop]
  exact Nat.min_eq_left (descCount_le req r).1

theorem moves_transferInit (hlen : ∀ d ∈ req.sdesc, d.len < 2 ^ 32) :
    (List.range' r.descIdx (descCount e req r)).map (fun k => ((transferInit e req r).2.2.desc k).move) =
      e.moves req.epAddr (part e req r) := by
  have hbuild := map_move_transferBuild (e := e) r.descIdx (part e req r)
    (fun d hd => hlen d (List.mem_of_mem_drop (List.mem_of_mem_take hd)))
    ⟨transferDescInit e r.descIdx (descCount e req r) r.desc, req.epAddr, 0⟩
  rw [length_part] at hbuild
  rw [← hbuild]
  apply List.map_congr_left
  intro k hk
  obtain ⟨h1, h2⟩ := List.mem_range'_1.mp hk
  obtain ⟨i, rfl⟩ : ∃ i, k = r.descIdx + i := ⟨k - r.descIdx, by omega⟩
  exact (transferInit_desc (by omega)).2.2.2

theorem transferInit_of_lt {k : ℕ} (hreq : req.swDescIdx < req.sdesc.length)
    (hk : k < r.descIdx ∨ r.descIdx + descCount e req r ≤ k) : (transferInit e req r).2.2.desc k = r.desc k := by
  have hn := descCount_pos r hreq
  change fillAdjacent r.descIdx (descCount e req r) _ k = _
  rw [fillAdjacent, forDesc, if_neg (by omega), terminate_of_lt _ hn hk,
    transferBuild_of_lt _ _ (by rw [← part, length_part]; exact hk)]
  exact transferDescInit_of_lt _ hn hk

theorem chained_transferInit : Chained e (transferInit e req r).2.2.desc r.descIdx (descCount e req r) :=
  ⟨fun _ hi => (transferInit_desc hi).1, fun _ hi => (transferInit_desc hi).2.1, fun _ hi => (transferInit_desc hi).2.2.1⟩

/-- Whatever was in the ring, the engine reads the descriptors of this part of the request, each of them once
and in their order, in blocks that do not cross a page; the last one of them, and no other, has the stop bit. -/
theorem fetched_transferInit (e : Engine) (req : Request) (r : Ring e) (hreq : req.swDescIdx < req.sdesc.length)
    (hlen : ∀ d ∈ req.sdesc, d.len < 2 ^ 32) :
    (fetched e (transferInit e req r).2.2.desc (transferInit e req r).1).flatten.map Desc.move =
      e.moves req.epAddr (part e req r) ∧
    (∀ block ∈ fetched e (transferInit e req r).2.2.desc (transferInit e req r).1, ∃ i j,
      r.descIdx ≤ i ∧ i + j < r.descIdx + descCount e req r ∧
      (e.bus i).toNat / pageSize = (e.bus (i + j)).toNat / pageSize ∧
      block = (List.range' i (j + 1)).map (transferInit e req r).2.2.desc) ∧
    (∀ i < descCount e req r,
      ((transferInit e req r).2.2.desc (r.descIdx + i)).stopped = decide (i + 1 = descCount e req r)) ∧
    ∀ k, k < r.descIdx ∨ r.descIdx + descCount e req r ≤ k → (transferInit e req r).2.2.desc k = r.desc k := by
  obtain ⟨hmoves, hblocks⟩ := chained_transferInit.fetched (descCount_le req r).2 (descCount_pos r hreq)
    (x := (transferInit e req r).1) rfl rfl rfl
  exact ⟨hmoves.trans (moves_transferInit hlen), hblocks, chained_transferInit.stopped,
    fun k hk => transferInit_of_lt hreq hk⟩

theorem example_aligned : (0x10000 : Addr).toNat % pageSize = 0 := by decide

theorem example_fits : sizeofDesc * 4 ≤ 2 ^ 64 := by decide

/-- An engine with four descriptors, of which the next one to be used is the last but one. -/
def exampleEngine (dir : Dir) : Engine := ⟨0x10000, 4, dir, false, false, Nat.succ_pos 3, example_aligned, example_fits⟩

theorem example_idx (dir : Dir) : 2 < (exampleEngine dir).descMax := by cases dir <;> decide

def exampleRing (dir : Dir) : Ring (exampleEngine dir) := ⟨fun _ => ⟨0, 0, 0, 0, 0, 0, 0, 0⟩, 2, 0, example_idx dir⟩

def exampleRequest : Request := ⟨[⟨0x3000, 64⟩, ⟨0x9000, 4096⟩, ⟨0x5000, 8⟩], 0, 0, 4168⟩

theorem fetched_example :
    let t := transferInit (exampleEngine .toDevice) exampleRequest (exampleRing .toDevice)
    (fetched (exampleEngine .toDevice) t.2.2.desc t.1).flatten.map Desc.move = [⟨0x3000, 0, 64⟩, ⟨0x9000, 64, 4096⟩] ∧
      (t.2.2.desc 2).stopped = false ∧ (t.2.2.desc 3).stopped = true := by
  obtain ⟨hmoves, -, hstopped, -⟩ :=
    fetched_transferInit (exampleEngine .toDevice) exampleRequest (exampleRing .toDevice) (by decide) (by decide)
  exact ⟨hmoves, hstopped 0 (by decide), hstopped 1 (by decide)⟩

end Init

end EmbeddedAccelerator.Xdma
