import EmbeddedAccelerator.Xdma.Submissions

/-!
`cdev_sgdma.c`: a buffer of a process is cut at its pages, and its bytes go to the card or come from it.
-/

namespace EmbeddedAccelerator.Xdma

open Copying (Move Piece total gather load store addresses)

def efault : ℤ := 14

/-- The alignment that an engine asks for, in two `u8`. -/
structure Alignment where
  addrAlign : BitVec 8
  lenGranularity : BitVec 8

/-- `check_transfer_align` of a synchronous call. With an alignment of 0 all bits are looked at. -/
def checkTransferAlign (e : Engine) (a : Alignment) (buf count pos : ℕ) : ℤ :=
  let mask : BitVec 32 := a.addrAlign.setWidth 32 - 1
  let bufLsb := BitVec.ofNat 32 buf &&& mask
  let posLsb := BitVec.ofNat 32 pos &&& mask
  if e.nonIncrAddr then
    if bufLsb ≠ 0 then -einval
    else if posLsb ≠ 0 then -einval
    else if BitVec.ofNat 64 count &&& (a.lenGranularity.setWidth 64 - 1) ≠ 0 then -einval
    else 0
  else if bufLsb ≠ posLsb then -einval
  else 0

/-- What the kernel does for a call: whether it has memory for the two tables, how many pages it pins, where
they are on the bus, and how it maps the scatter list for the device; and the size of `struct xdma_request_cb`, which
depends on how the kernel is configured. -/
structure Kernel where
  sgAlloc : Bool
  pagesAlloc : Bool
  pinned : ℤ
  page : ℕ → Addr
  dmaMap : List SwDesc → List SwDesc
  sizeofRequestCb : ℕ

def pagesNr (buf len : ℕ) : ℕ := ((buf + len + pageSize - 1) - (buf - buf % pageSize)) / pageSize % 2 ^ 32

/-- The loop over the pages, with the length that is left behind it. -/
def sgEntries (page : ℕ → Addr) : ℕ → ℕ → ℕ → ℕ → List SwDesc × ℕ
  | 0, _, _, len => ([], len)
  | n + 1, i, buf, len =>
    let offset := buf % pageSize
    let nbytes := min (pageSize - offset) (len % 2 ^ 32)
    let rest := sgEntries page n (i + 1) (buf + nbytes) (len - nbytes)
    (⟨page i + (offset : Addr), nbytes⟩ :: rest.1, rest.2)

/-- `char_sgdma_map_user_buf_to_sgl`: an error, or the scatter list. -/
def mapUserBufToSgl (k : Kernel) (buf len : ℕ) : Except ℤ (List SwDesc) :=
  let n := pagesNr buf len
  if n = 0 then .error (-einval)
  else if !k.sgAlloc then .error (-enomem)
  else if !k.pagesAlloc then .error (-enomem)
  else if k.pinned < 0 then .error k.pinned
  else if k.pinned ≠ n then .error (-efault)
  else if ∃ i < n - 1, k.page i = k.page (i + 1) then .error (-efault)
  else
    let sg := sgEntries k.page n 0 buf len
    if sg.2 ≠ 0 then .error (-einval) else .ok sg.1

/-- The bytes of the buffer on the bus, one after the other. -/
def bufferAddr (page : ℕ → Addr) (buf i : ℕ) : Addr :=
  page ((buf % pageSize + i) / pageSize) + (((buf % pageSize + i) % pageSize : ℕ) : Addr)

def bufferBytes (host : Addr → BitVec 8) (page : ℕ → Addr) (buf len : ℕ) : List (BitVec 8) :=
  (List.range len).map fun i => host (bufferAddr page buf i)

section Pages

theorem pagesNr_eq (buf : ℕ) {len : ℕ} (h : len < 2 ^ 32) : pagesNr buf len = (buf % pageSize + len + pageSize - 1) / pageSize := by
  rw [pagesNr]
  simp only [pageSize] at *
  omega

theorem sgEntries_spec (page : ℕ → Addr) (n i buf : ℕ) {len : ℕ} (hlen : len < 2 ^ 32) (hn : len ≠ 0 → buf % pageSize + len ≤ n * pageSize) :
    (sgEntries page n i buf len).2 = 0 ∧
      addresses (sgEntries page n i buf len).1 = (List.range len).map (bufferAddr (fun j => page (i + j)) buf) ∧
      ∀ s ∈ (sgEntries page n i buf len).1, s.len ≤ pageSize := by
  induction n generalizing i buf len with
  | zero =>
    obtain rfl : len = 0 := by
      by_contra h0
      have := hn h0
      omega
    exact ⟨rfl, rfl, fun s hs => absurd hs List.not_mem_nil⟩
  | succ n ih =>
    have hoffset : buf % pageSize < pageSize := Nat.mod_lt _ (by decide)
    obtain ⟨nbytes, hnbytes⟩ : ∃ nbytes, nbytes = min (pageSize - buf % pageSize) (len % 2 ^ 32) := ⟨_, rfl⟩
    rw [sgEntries, ← hnbytes]
    rw [Nat.mod_eq_of_lt hlen] at hnbytes
    have hrest : len - nbytes ≠ 0 → nbytes = pageSize - buf % pageSize ∧ (buf + nbytes) % pageSize = 0 := by
      intro h0
      simp only [pageSize] at *
      omega
    obtain ⟨h1, h2, h3⟩ := ih (i + 1) (buf + nbytes) (show len - nbytes < 2 ^ 32 by omega) fun h0 => by
      obtain ⟨hn1, hn2⟩ := hrest h0
      have hbound := hn (by omega)
      rw [hn2]
      simp only [pageSize] at *
      omega
    have hle : nbytes ≤ len := by omega
    refine ⟨h1, ?_, fun s hs => ?_⟩
    · have hsplit : len = nbytes + (len - nbytes) := by omega
      rw [addresses, List.flatMap_cons]
      conv_rhs => rw [hsplit, List.range_add, List.map_append, List.map_map]
      congr 1
      · apply List.map_congr_left
        intro j hj
        have hj : j < nbytes := List.mem_range.mp hj
        have hdiv : (buf % pageSize + j) / pageSize = 0 := Nat.div_eq_of_lt (by omega)
        have hmod : (buf % pageSize + j) % pageSize = buf % pageSize + j := Nat.mod_eq_of_lt (by omega)
        rw [bufferAddr, hdiv, hmod, Nat.add_zero, Nat.cast_add, add_assoc]
      · refine h2.trans (List.map_congr_left fun j hj => ?_)
        have hj := List.mem_range.mp hj
        obtain ⟨hn1, hn2⟩ := hrest (by omega)
        have hsum : buf % pageSize + (nbytes + j) = j + pageSize := by omega
        rw [Function.comp_apply, bufferAddr, bufferAddr, hn2, Nat.zero_add, hsum, Nat.add_div_right j (by decide),
          Nat.add_mod_right, Nat.add_assoc, Nat.add_comm 1]
    · obtain rfl | hs := List.mem_cons.mp hs
      · change nbytes ≤ pageSize
        omega
      · exact h3 s hs

end Pages

/-- The kernel does what a call needs: the mapped list has the bytes of the scatter list, in segments that
are not too long for the driver, and so few that the size of the request does not wrap around. -/
structure Grants (k : Kernel) (b : DescBlenMax) (buf len : ℕ) : Prop where
  sgAlloc : k.sgAlloc = true
  pagesAlloc : k.pagesAlloc = true
  pinned : k.pinned = pagesNr buf len
  distinct : ∀ i, i + 1 < pagesNr buf len → k.page i ≠ k.page (i + 1)
  dmaMap : ∀ sgl, sgl ≠ [] → (∀ s ∈ sgl, s.len ≤ pageSize) →
    k.dmaMap sgl ≠ [] ∧ addresses (k.dmaMap sgl) = addresses sgl ∧ ∀ s ∈ k.dmaMap sgl, s.len + b.val ≤ 2 ^ 32
  request : ∀ sgl, mapUserBufToSgl k buf len = .ok sgl →
    k.sizeofRequestCb + sdescMax b (k.dmaMap sgl) * sizeofSwDesc < 2 ^ 32

section Call

variable {e : Engine} {a : Alignment} {k : Kernel} {b : DescBlenMax} {buf count pos : ℕ}
  (hk : Grants k b buf count) (hcount : 0 < count) (hmax : count < 2 ^ 31)
include hk hcount hmax

theorem mapUserBufToSgl_eq : ∃ sgl, mapUserBufToSgl k buf count = .ok sgl ∧ k.dmaMap sgl ≠ [] ∧
    addresses (k.dmaMap sgl) = (List.range count).map (bufferAddr k.page buf) ∧
    ∀ s ∈ k.dmaMap sgl, s.len + b.val ≤ 2 ^ 32 := by
  have hlen : count < 2 ^ 32 := hmax.trans (by decide)
  have hn := pagesNr_eq buf hlen
  have hpos : pagesNr buf count ≠ 0 := by
    rw [hn]
    simp only [pageSize]
    omega
  obtain ⟨h1, h2, h3⟩ := sgEntries_spec k.page (pagesNr buf count) 0 buf hlen fun _ => by
    rw [hn]
    simp only [pageSize]
    omega
  have hmap : mapUserBufToSgl k buf count = .ok (sgEntries k.page (pagesNr buf count) 0 buf count).1 := by
    have hdistinct : ¬ ∃ i < pagesNr buf count - 1, k.page i = k.page (i + 1) := by
      rintro ⟨i, hi, heq⟩
      exact hk.distinct i (by omega) heq
    have hpinned : ¬ (pagesNr buf count : ℤ) < 0 := Int.not_lt.mpr (Int.natCast_nonneg _)
    rw [mapUserBufToSgl, if_neg hpos, hk.sgAlloc, hk.pagesAlloc, hk.pinned]
    simp only [Bool.not_true, Bool.false_eq_true, if_false, if_neg hpinned, ne_eq, not_true_eq_false,
      if_neg hdistinct, h1]
  have hne : (sgEntries k.page (pagesNr buf count) 0 buf count).1 ≠ [] := by
    obtain ⟨n, hn⟩ := Nat.exists_eq_succ_of_ne_zero hpos
    rw [hn, sgEntries]
    exact List.cons_ne_nil _ _
  obtain ⟨m1, m2, m3⟩ := hk.dmaMap _ hne h3
  refine ⟨_, hmap, m1, m2.trans ?_, m3⟩
  rw [h2]
  simp only [Nat.zero_add]

end Call

section Write

variable {e : Engine} (hdir : e.dir = .toDevice) (hinc : e.nonIncrAddr = false) (mem : Memory)
include hdir

include hinc

end Write

section Read

variable {e : Engine} (hdir : e.dir = .fromDevice) (hinc : e.nonIncrAddr = false) (mem : Memory)
include hdir

theorem execAll_fromDevice (xs : List (Move Addr Addr)) :
    mem.execAll e.dir xs = { mem with host := Move.execAll mem.card mem.host xs } := by
  rw [hdir]
  induction xs generalizing mem with
  | nil => rfl
  | cons x xs ih => exact ih _

include hinc

theorem moves_away (epAddr : Addr) (ps : List SwDesc) : e.moves epAddr ps = Move.away epAddr ps := by
  induction ps generalizing epAddr with
  | nil => rfl
  | cons p ps ih =>
    rw [Engine.moves, Move.away, hdir, hinc, ih]
    rfl

end Read

section Calls

variable {e : Engine} {a : Alignment} {k : Kernel} {b : DescBlenMax} {buf count pos : ℕ}
  (hk : Grants k b buf count) (hcount : 0 < count) (hmax : count < 2 ^ 31)
  (halign : checkTransferAlign e a buf count pos = 0) (outcomes : ℕ → Outcome) (ring : Ring e) (mem : Memory)
include hk hcount hmax halign

end Calls

end EmbeddedAccelerator.Xdma
