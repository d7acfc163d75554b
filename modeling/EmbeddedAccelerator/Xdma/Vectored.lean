import EmbeddedAccelerator.Xdma.Nowait
import EmbeddedAccelerator.Xdma.RoundTrips

/-!
`cdev_aio_write` and `cdev_aio_read`: a request for each segment of the caller's vector, which nobody waits for. All of
them are for the same position on the card, and what becomes of them is not looked at; the call is done when the last
one is.
-/

namespace EmbeddedAccelerator.Xdma

open Clocked (Path)
open Copying (Move gather load store)

/-- A segment of the caller's vector, and what the kernel does for it. -/
structure Iovec where
  base : ℕ
  len : ℕ
  kernel : Kernel

def Iovec.addresses (io : Iovec) : List Addr := (List.range io.len).map (bufferAddr io.kernel.page io.base)

def Iovec.bytes (host : Addr → BitVec 8) (io : Iovec) : List (BitVec 8) := bufferBytes host io.kernel.page io.base io.len

theorem Iovec.bytes_eq_map (host : Addr → BitVec 8) (io : Iovec) : io.bytes host = io.addresses.map host := by
  rw [Iovec.addresses, List.map_map]
  rfl

@[simp] theorem Iovec.length_addresses (io : Iovec) : io.addresses.length = io.len := by
  rw [Iovec.addresses, List.length_map, List.length_range]

variable {e : Engine}

/-- How many descriptors a segment takes. -/
def Iovec.pieces (b : DescBlenMax) (io : Iovec) : ℕ :=
  match mapUserBufToSgl io.kernel io.base io.len with
  | .error _ => 0
  | .ok sgl => (sdescs b (io.kernel.dmaMap sgl)).length

theorem Iovec.pieces_eq (b : DescBlenMax) {io : Iovec} {sgl : List SwDesc}
    (h : mapUserBufToSgl io.kernel io.base io.len = .ok sgl) : io.pieces b = (sdescs b (io.kernel.dmaMap sgl)).length := by
  rw [Iovec.pieces, h]

/-- The loop over the segments: what is returned, what `xdma_xfer_submit_nowait` returns for each of them, and the
ring. There is no result if one of those calls has none. -/
def aioLoop (a : Alignment) (b : DescBlenMax) (offline : Bool) (accept : ℕ → ℕ → Bool) (pos : ℕ) :
    ℕ → List Iovec → Outstanding e → Option ℤ × List ℤ × Outstanding e
  | _, [], s => (some (-eiocbqueued), [], s)
  | i, io :: ios, s =>
    if checkTransferAlign e a io.base io.len pos ≠ 0 then (some (checkTransferAlign e a io.base io.len pos), [], s)
    else
      match mapUserBufToSgl io.kernel io.base io.len with
      | .error rv => (some rv, [], s)
      | .ok sgl =>
        let t := xferSubmitNowait b offline e.dir (io.kernel.dmaMap sgl) (pos : Addr) (accept i) s
        match t.1 with
        | none => (none, [], t.2.2)
        | some rv =>
          let rest := aioLoop a b offline accept pos (i + 1) ios t.2.2
          (rest.1, rv :: rest.2.1, rest.2.2)

def cdevAio (dir : Dir) (a : Alignment) (b : DescBlenMax) (offline : Bool) (accept : ℕ → ℕ → Bool) (ios : List Iovec)
    (pos : ℕ) (s : Outstanding e) : Option ℤ × List ℤ × Outstanding e :=
  if e.dir ≠ dir then (some (-einval), [], s) else aioLoop a b offline accept pos 0 ios s

def cdevAioRead (a : Alignment) (b : DescBlenMax) (offline : Bool) (accept : ℕ → ℕ → Bool) (ios : List Iovec) (pos : ℕ)
    (s : Outstanding e) : Option ℤ × List ℤ × Outstanding e := cdevAio .fromDevice a b offline accept ios pos s

/-- `struct cdev_async_io`, and what `ki_complete` has been called with. -/
structure AsyncIo where
  cancel : Bool
  reqCnt : ℕ
  cmplCnt : ℕ
  errCnt : ℕ
  res : ℕ
  res2 : BitVec 64
  completed : List (ℕ × BitVec 64)

def asyncIo (count : ℕ) : AsyncIo := ⟨false, count, 0, 0, 0, 0, []⟩

/-- `async_io_handler` for a segment of which `numbytes` have been copied. -/
def asyncIoHandler (lockStat : Bool) (err : ℤ) (numbytes : ℕ) (c : AsyncIo) : AsyncIo :=
  if !lockStat then { c with completed := c.completed ++ [(0, BitVec.ofInt 64 (-ebusy))] }
  else if c.cancel then c
  else
    let numbytes := if err = 0 then numbytes else 0
    let res2 := c.res2 ||| if err < 0 then BitVec.ofInt 64 err else 0
    let c := { c with
      res2 := res2
      errCnt := if res2 ≠ 0 then c.errCnt + 1 else c.errCnt
      cmplCnt := c.cmplCnt + 1
      res := c.res + numbytes }
    if c.cmplCnt = c.reqCnt then { c with completed := c.completed ++ [(c.res, c.res2)] } else c

theorem aioLoop_queued {a : Alignment} {b : DescBlenMax} {offline : Bool} {accept : ℕ → ℕ → Bool} {pos i : ℕ} {ios : List Iovec}
    {s : Outstanding e} (h : (aioLoop a b offline accept pos i ios s).2.1.length = ios.length) :
    (aioLoop a b offline accept pos i ios s).1 = some (-eiocbqueued) := by
  induction ios generalizing i s with
  | nil => rfl
  | cons io ios ih =>
    rw [aioLoop] at h ⊢
    by_cases halign : checkTransferAlign e a io.base io.len pos = 0
    · rw [halign, if_neg (not_not.mpr rfl)] at h ⊢
      cases hmap : mapUserBufToSgl io.kernel io.base io.len with
      | error rv =>
        rw [hmap] at h
        exact absurd h (Nat.succ_ne_zero _).symm
      | ok sgl =>
        rw [hmap] at h
        simp only at h ⊢
        cases hcall : (xferSubmitNowait b offline e.dir (io.kernel.dmaMap sgl) (pos : Addr) (accept i) s).1 with
        | none =>
          rw [hcall] at h
          exact absurd h (Nat.succ_ne_zero _).symm
        | some rv =>
          rw [hcall] at h
          exact ih (Nat.succ.inj h)
    · rw [if_pos halign] at h
      exact absurd h (Nat.succ_ne_zero _).symm

/-- What the engine does for these transfers, as their descriptors are in the ring. -/
def Outstanding.found (s : Outstanding e) (ps : List Built) : List (Move Addr Addr) :=
  ps.flatMap fun p => (fetched e s.ring.desc p.xfer).flatten.map Desc.move

section Places

variable {a : Alignment} {b : DescBlenMax} {pos : ℕ} {accept : ℕ → ℕ → Bool} (haccept : ∀ i t, accept i t = true)
include haccept

theorem aioLoop_cons {io : Iovec} (hk : Grants io.kernel b io.base io.len) (hpos : 0 < io.len) (hmax : io.len < 2 ^ 31)
    (halign : checkTransferAlign e a io.base io.len pos = 0) (i : ℕ) (ios : List Iovec) {s : Outstanding e} (hs : s.Counted)
    (hroom : s.ring.descUsed + io.pieces b ≤ e.descMax) :
    ∃ (pieces : List SwDesc) (ps : List Built) (t : Outstanding e), Copying.addresses pieces = io.addresses ∧
      t.built = s.built ++ ps ∧ ps.flatMap Built.moves = e.moves (pos : Addr) pieces ∧ t.Counted ∧
      t.ring.descUsed = s.ring.descUsed + io.pieces b ∧
      aioLoop a b false accept pos i (io :: ios) s =
        let rest := aioLoop a b false accept pos (i + 1) ios t
        (rest.1, -eiocbqueued :: rest.2.1, rest.2.2) := by
  obtain ⟨sgl, hmap, hne, haddr, hlen⟩ := mapUserBufToSgl_eq hk hpos hmax
  rw [Iovec.pieces_eq b hmap] at hroom ⊢
  have hlt := s.ring.idx_lt
  have hqueued := xferSubmitNowait_queued b (pos : Addr) (accept i) s hne hlen (haccept i) (by rw [tferMax]; omega)
  obtain ⟨ps, hbuilt, -, hmoves, hsized⟩ := xferSubmitNowait_built b (pos : Addr) (accept i) s hne hlen hqueued
  have ht := xferSubmitNowait_counted b (pos : Addr) (accept i) s hne hlen hs hroom
  refine ⟨sdescs b (io.kernel.dmaMap sgl), ps, _, (addresses_sdescs b _).trans haddr, hbuilt, hmoves, ht, ?_, ?_⟩
  · rw [ht.used, hbuilt, Outstanding.descNums_append, hs.used, descNums_eq hsized, hmoves, length_moves]
  · rw [aioLoop, halign, if_neg (not_not.mpr rfl), hmap]
    simp only [hqueued]

theorem aioLoop_built {ios : List Iovec} (hios : ∀ io ∈ ios,
    Grants io.kernel b io.base io.len ∧ 0 < io.len ∧ io.len < 2 ^ 31 ∧ checkTransferAlign e a io.base io.len pos = 0)
    (i : ℕ) {s : Outstanding e} (hs : s.Counted) (hroom : s.ring.descUsed + (ios.map (Iovec.pieces b)).sum ≤ e.descMax) :
    let y := aioLoop a b false accept pos i ios s
    y.2.1 = (ios.map fun _ => -eiocbqueued) ∧ y.2.2.Counted ∧ ∃ ps, y.2.2.built = s.built ++ ps ∧
      ∃ pss : List (List SwDesc), ps.flatMap Built.moves = pss.flatMap (e.moves (pos : Addr)) ∧
        pss.map Copying.addresses = ios.map Iovec.addresses := by
  induction ios generalizing i s with
  | nil => exact ⟨rfl, hs, [], (List.append_nil _).symm, [], rfl, rfl⟩
  | cons io ios ih =>
    obtain ⟨hk, hpos, hmax, halign⟩ := hios io List.mem_cons_self
    rw [List.map_cons, List.sum_cons] at hroom
    obtain ⟨pieces, ps, t, haddr, hbuilt, hmoves, ht, hused, hcall⟩ :=
      aioLoop_cons haccept hk hpos hmax halign i ios hs (by omega)
    obtain ⟨hreturns, hcounted, qs, hbuilt', pss, hmoves', haddr'⟩ :=
      ih (fun io h => hios io (List.mem_cons_of_mem _ h)) (i + 1) ht (by omega)
    rw [hcall]
    refine ⟨congrArg (List.cons _) hreturns, hcounted, ps ++ qs, ?_, pieces :: pss, ?_, ?_⟩
    · rw [← List.append_assoc, ← hbuilt]
      exact hbuilt'
    · rw [List.flatMap_append, hmoves, hmoves', List.flatMap_cons]
    · exact congrArg₂ List.cons haddr haddr'

theorem cdevAio_found {dir : Dir} (hdir : e.dir = dir) {ios : List Iovec} (hios : ∀ io ∈ ios,
    Grants io.kernel b io.base io.len ∧ 0 < io.len ∧ io.len < 2 ^ 31 ∧ checkTransferAlign e a io.base io.len pos = 0)
    {s : Outstanding e} (hs : s.Counted) (hroom : s.ring.descUsed + (ios.map (Iovec.pieces b)).sum ≤ e.descMax) :
    let y := cdevAio dir a b false accept ios pos s
    y.1 = some (-eiocbqueued) ∧ ∃ ps, y.2.2.built = s.built ++ ps ∧
      ∃ pss : List (List SwDesc), y.2.2.found ps = pss.flatMap (e.moves (pos : Addr)) ∧
        pss.map Copying.addresses = ios.map Iovec.addresses := by
  rw [cdevAio, if_neg (not_not.mpr hdir)]
  obtain ⟨hreturns, hcounted, ps, hbuilt, pss, hmoves, haddr⟩ := aioLoop_built haccept hios 0 hs hroom
  refine ⟨aioLoop_queued (by rw [hreturns, List.length_map]), ps, hbuilt, pss, ?_, haddr⟩
  rw [← hmoves]
  apply List.flatMap_congr
  intro p hp
  exact (hcounted.inv.intact p (hbuilt ▸ List.mem_append_right _ hp)).fetched

omit haccept

/-- A segment of eight bytes in two pages, and one of four bytes in another page. -/
def exampleIovec : Iovec := ⟨4092, 8, (exampleCaller .toDevice).kernel⟩

def otherIovec : Iovec := ⟨4092, 4, { exampleIovec.kernel with pinned := 1, page := fun _ => 0xb000 }⟩

theorem mapUserBufToSgl_exampleIovec : mapUserBufToSgl exampleIovec.kernel 4092 8 = .ok [⟨0x7ffc, 4⟩, ⟨0x3000, 4⟩] := rfl

theorem mapUserBufToSgl_otherIovec : mapUserBufToSgl otherIovec.kernel 4092 4 = .ok [⟨0xbffc, 4⟩] := rfl

theorem exampleIovecs_granted (dir : Dir) : ∀ io ∈ [exampleIovec, otherIovec],
    Grants io.kernel exampleBlenMax io.base io.len ∧ 0 < io.len ∧ io.len < 2 ^ 31 ∧
      checkTransferAlign (exampleEngine dir) ⟨1, 1⟩ io.base io.len 0x2000 = 0 := by
  have haligned := (admitted_exampleCaller dir).aligned
  have hgrants := (admitted_exampleCaller .toDevice).grants
  have hother : Grants otherIovec.kernel exampleBlenMax 4092 4 := by
    refine ⟨rfl, rfl, by decide, fun i hi => ?_, hgrants.dmaMap, fun sgl hsgl => ?_⟩
    · have hpages : pagesNr 4092 4 = 1 := by decide
      omega
    · obtain rfl := Except.ok.inj (mapUserBufToSgl_otherIovec.symm.trans hsgl)
      decide
  intro io h
  obtain rfl | h := List.mem_cons.mp h
  · exact ⟨hgrants, by decide, by decide, haligned⟩
  · obtain rfl := List.mem_singleton.mp h
    exact ⟨hother, by decide, by decide, by cases dir <;> decide⟩

theorem exampleIovecs_room (dir : Dir) : (Outstanding.idle (exampleRing dir)).ring.descUsed +
    ([exampleIovec, otherIovec].map (Iovec.pieces exampleBlenMax)).sum ≤ (exampleEngine dir).descMax := by
  have hfirst : exampleIovec.pieces exampleBlenMax = 2 := by
    rw [Iovec.pieces_eq exampleBlenMax mapUserBufToSgl_exampleIovec, length_sdescs]
    decide
  have hsecond : otherIovec.pieces exampleBlenMax = 1 := by
    rw [Iovec.pieces_eq exampleBlenMax mapUserBufToSgl_otherIovec, length_sdescs]
    decide
  simp only [List.map_cons, List.map_nil, hfirst, hsecond]
  cases dir <;> decide

/-- A vectored read for which there is room in the ring fills all segments from one place on the card: none of them
gets what lies behind the bytes of the one before it. -/
theorem aio_read_places (accept : ℕ → ℕ → Bool) (haccept : ∀ i t, accept i t = true) (hdir : e.dir = .fromDevice)
    (hinc : e.nonIncrAddr = false) (a : Alignment) (b : DescBlenMax) (ios : List Iovec) (pos : ℕ)
    (hios : ∀ io ∈ ios, Grants io.kernel b io.base io.len ∧ 0 < io.len ∧ io.len < 2 ^ 31 ∧
      checkTransferAlign e a io.base io.len pos = 0) (hbuf : (ios.flatMap Iovec.addresses).Nodup) {r : Ring e}
    (hr : r.descUsed = 0) {ws : List Work} {s : Outstanding e}
    (hrun : Path Outstanding.CountedStep (Outstanding.idle r) ws s)
    (hroom : s.ring.descUsed + (ios.map (Iovec.pieces b)).sum ≤ e.descMax) :
    let y := cdevAioRead a b false accept ios pos s
    y.1 = some (-eiocbqueued) ∧ ∃ ps, y.2.2.built = s.built ++ ps ∧ ∀ mem : Memory,
      let m := mem.execAll e.dir (y.2.2.found ps)
      m.card = mem.card ∧ (∀ x ∉ ios.flatMap Iovec.addresses, m.host x = mem.host x) ∧
        ∀ io ∈ ios, io.bytes m.host = load mem.card (pos : Addr) io.len := by
  intro y
  obtain ⟨hret, ps, hbuilt, pss, hmoves, haddr⟩ :=
    cdevAio_found haccept hdir hios (Outstanding.Counted.run hr hrun) hroom
  refine ⟨hret, ps, hbuilt, ?_⟩
  intro mem m
  have hflat : pss.flatMap Copying.addresses = ios.flatMap Iovec.addresses := by
    rw [List.flatMap_def, haddr, ← List.flatMap_def]
  have hm : m = { mem with host := Move.execAll mem.card mem.host (pss.flatMap (Move.away (pos : Addr))) } := by
    have haway : e.moves (pos : Addr) = Move.away (pos : Addr) := funext (moves_away hdir hinc (pos : Addr))
    have hfound : y.2.2.found ps = pss.flatMap (e.moves (pos : Addr)) := hmoves
    rw [← haway, ← hfound]
    exact execAll_fromDevice hdir mem _
  rw [← hflat] at hbuf ⊢
  obtain ⟨hother, hgather⟩ := Move.execAll_flatMap_away mem.card mem.host (pos : Addr) hbuf
  rw [hm]
  refine ⟨rfl, hother, ?_⟩
  intro io hio
  obtain ⟨qs, hqs, hqs'⟩ := List.mem_map.mp (haddr ▸ List.mem_map_of_mem hio : io.addresses ∈ pss.map Copying.addresses)
  have htotal : Copying.total qs = io.len := by
    rw [← Copying.length_addresses, hqs', Iovec.length_addresses]
  rw [Iovec.bytes_eq_map, ← hqs', ← Copying.gather_eq_map, hgather qs hqs, htotal]

theorem aio_read_example :
    let y := cdevAioRead ⟨1, 1⟩ exampleBlenMax false (fun _ _ => true) [exampleIovec, otherIovec] 0x2000
      (.idle (exampleRing .fromDevice))
    y.1 = some (-eiocbqueued) ∧ ∃ ps, y.2.2.built = [] ++ ps ∧ ∀ mem : Memory,
      let m := mem.execAll .fromDevice (y.2.2.found ps)
      exampleIovec.bytes m.host = load mem.card ((0x2000 : ℕ) : Addr) 8 ∧
        otherIovec.bytes m.host = load mem.card ((0x2000 : ℕ) : Addr) 4 := by
  obtain ⟨hret, ps, hbuilt, hmem⟩ := aio_read_places (e := exampleEngine .fromDevice) (fun _ _ => true) (fun _ _ => rfl) rfl
    rfl ⟨1, 1⟩ exampleBlenMax [exampleIovec, otherIovec] 0x2000 (exampleIovecs_granted _) (by decide)
    (r := exampleRing .fromDevice) rfl .nil (exampleIovecs_room _)
  refine ⟨hret, ps, hbuilt, fun mem => ?_⟩
  obtain ⟨-, -, hbytes⟩ := hmem mem
  exact ⟨hbytes exampleIovec List.mem_cons_self, hbytes otherIovec (List.mem_cons_of_mem _ List.mem_cons_self)⟩

end Places

section Completion

theorem foldl_asyncIoHandler (bytes : ℕ → ℕ) (count : ℕ) (order : List ℕ) (h : order.length ≤ count) :
    let c := order.foldl (fun c i => asyncIoHandler true 0 (bytes i) c) (asyncIo count)
    c = { asyncIo count with
      cmplCnt := order.length
      res := (order.map bytes).sum
      completed := if 0 < order.length ∧ order.length = count then [((order.map bytes).sum, 0)] else [] } := by
  induction order using List.reverseRecOn with
  | nil => rfl
  | append_singleton order i ih =>
    rw [List.length_append, List.length_singleton] at h
    have hbefore : ¬ (0 < order.length ∧ order.length = count) := by omega
    simp only [List.foldl_append, List.foldl_cons, List.foldl_nil, ih (by omega), if_neg hbefore]
    by_cases hlast : order.length + 1 = count
    · simp [asyncIoHandler, asyncIo, ← hlast]
    · simp [asyncIoHandler, asyncIo, hlast]

/-- In whatever order its segments are completed, a vectored call is completed at most once, with the bytes of all of
its segments, and when the last one is done. A segment that `xdma_xfer_submit_nowait` turns away is not told to the
caller: the call is reported as queued, and it is never completed. -/
theorem aio_completes (a : Alignment) (b : DescBlenMax) (offline : Bool) (accept : ℕ → ℕ → Bool) (ios : List Iovec) (pos : ℕ)
    (s : Outstanding e) (h : (cdevAio e.dir a b offline accept ios pos s).2.1.length = ios.length) (bytes : ℕ → ℕ)
    {order : List ℕ} (hnodup : order.Nodup)
    (horder : ∀ i ∈ order, (cdevAio e.dir a b offline accept ios pos s).2.1[i]? = some (-eiocbqueued)) :
    let y := cdevAio e.dir a b offline accept ios pos s
    let c := order.foldl (fun c i => asyncIoHandler true 0 (bytes i) c) (asyncIo ios.length)
    y.1 = some (-eiocbqueued) ∧ (c.completed ≠ [] ↔ 0 < ios.length ∧ order.length = ios.length) ∧
      (c.completed ≠ [] → c.completed = [(((List.range ios.length).map bytes).sum, 0)]) ∧
      ((∃ i < ios.length, y.2.1[i]? ≠ some (-eiocbqueued)) → c.completed = []) := by
  have hsubset : order ⊆ List.range ios.length := by
    intro i hi
    obtain ⟨hlt, -⟩ := List.getElem?_eq_some_iff.mp (horder i hi)
    exact List.mem_range.mpr (h ▸ hlt)
  have hsubperm := List.subperm_of_subset hnodup hsubset
  have hle : order.length ≤ ios.length := by simpa using hsubperm.length_le
  have hrun := congrArg AsyncIo.completed (foldl_asyncIoHandler bytes ios.length order hle)
  have hperm (hall : order.length = ios.length) : order.Perm (List.range ios.length) :=
    hsubperm.perm_of_length_le (by rw [List.length_range, hall])
  have hcall : cdevAio e.dir a b offline accept ios pos s = aioLoop a b offline accept pos 0 ios s := by
    rw [cdevAio, if_neg (not_not.mpr rfl)]
  simp only [hrun]
  refine ⟨?_, ?_, ?_, ?_⟩
  · rw [hcall] at h ⊢
    exact aioLoop_queued h
  · split_ifs with hall
    · simp only [ne_eq, List.cons_ne_nil, not_false_eq_true, true_iff]
      omega
    · simp only [ne_eq, not_true_eq_false, false_iff]
      omega
  · split_ifs with hall
    · intro _
      rw [((hperm hall.2).map bytes).sum_nat]
    · intro hne
      exact absurd rfl hne
  · rintro ⟨i, hi, hrefused⟩
    apply if_neg
    rintro ⟨-, hall⟩
    exact hrefused (horder i ((hperm hall).mem_iff.mpr (List.mem_range.mpr hi)))

/-- Two segments, of which the second one is completed first. -/
theorem aio_completes_example :
    let y := cdevAio .toDevice ⟨1, 1⟩ exampleBlenMax false (fun _ _ => true) [exampleIovec, otherIovec] 0x2000
      (.idle (exampleRing .toDevice))
    let c := [1, 0].foldl (fun c i => asyncIoHandler true 0 (if i = 0 then 8 else 4) c) (asyncIo 2)
    y.1 = some (-eiocbqueued) ∧ c.completed = [(12, 0)] := by
  intro y c
  have hreturns : y.2.1 = [-eiocbqueued, -eiocbqueued] :=
    (aioLoop_built (fun _ _ => rfl) (exampleIovecs_granted _) 0 (.idle rfl) (exampleIovecs_room _)).1
  have horder : ∀ i ∈ [1, 0], y.2.1[i]? = some (-eiocbqueued) := by
    rw [hreturns]
    decide
  obtain ⟨hret, hiff, hbytes, -⟩ := aio_completes (e := exampleEngine .toDevice) ⟨1, 1⟩ exampleBlenMax false
    (fun _ _ => true) [exampleIovec, otherIovec] 0x2000 _ (congrArg List.length hreturns) (fun i => if i = 0 then 8 else 4)
    (by decide) horder
  exact ⟨hret, hbytes (hiff.mpr ⟨by decide, rfl⟩)⟩

end Completion

end EmbeddedAccelerator.Xdma
