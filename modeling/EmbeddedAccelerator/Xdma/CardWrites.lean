import EmbeddedAccelerator.HostWrites
import EmbeddedAccelerator.Xdma.UserBuffers

/-!
The descriptors of a write at the memories of the accelerator, which take whole words: two descriptors that meet
inside a word lose bytes there.
-/

namespace EmbeddedAccelerator.Xdma

open Clocked (Mem)
open Copying (Piece)
open XdmaApp (Region Signals InRange WriteCycle WriteMode addressed words transfer)

/-- What the controller drives on the port of a memory for one descriptor. -/
structure SpanWrite (r : Region) where
  addr : ℕ
  len : ℕ
  data : Mem
  cycles : List Signals
  cycle : ∀ i ∈ cycles, WriteCycle r addr len data i
  addressed : addressed cycles = words addr len

variable {r : Region}

def deliver (mode : WriteMode) (ws : List (SpanWrite r)) (s : XdmaApp.State) : XdmaApp.State :=
  ws.foldl (fun s w => transfer mode w.cycles s) s

/-- The writes of descriptors that carry `data` to consecutive places from `off` on; what is on the lanes
outside the range of a descriptor is left open. -/
structure Carries (e : Engine) (off : ℕ) (ds : List SwDesc) (data : Mem) (ws : List (SpanWrite r)) : Prop where
  fits : ∀ w ∈ ws, w.addr + w.len ≤ 8192
  moves : (e.moves (r.base + (off : Addr)) ds).map (fun x => (x.dst, x.len)) =
    ws.map fun w => (r.base + (w.addr : Addr), w.len)
  data : ∀ w ∈ ws, ∀ a, InRange w.addr w.len a → w.data a = data a

/-- The range holds the bytes, and no other byte of any memory is changed. -/
def Exact (mode : WriteMode) (ws : List (SpanWrite r)) (off count : ℕ) (data : Mem) (s : XdmaApp.State) : Prop :=
  ∀ (q : Region) (a : ℕ), (q.bram (deliver mode ws s)).mem a =
    if q = r ∧ InRange off count a then data a else (q.bram s).mem a

def Consecutive : ℕ → List (SpanWrite r) → Prop
  | _, [] => True
  | off, w :: ws => w.addr = off ∧ Consecutive (off + w.len) ws

section Deliver

variable (mode : WriteMode) {off : ℕ} {ws : List (SpanWrite r)}

theorem mem_write (w : SpanWrite r) (s : XdmaApp.State) (q : Region) (a : ℕ) :
    (q.bram (transfer mode w.cycles s)).mem a =
      if q = r ∧ InRange w.addr w.len (8 * (a / 8)) then w.data a else (q.bram s).mem a := by
  rw [XdmaApp.mem_transfer_write mode w.cycle, w.addressed]
  apply if_congr _ rfl rfl
  rw [XdmaApp.mem_words]
  constructor
  · exact fun ⟨hq, _, hr⟩ => ⟨hq, hr⟩
  · exact fun ⟨hq, hr⟩ => ⟨hq, ⟨by omega, by omega, hr.2⟩, hr⟩

theorem mem_deliver_of_not {q : Region} {a : ℕ} (h : q = r → ∀ w ∈ ws, ¬ InRange w.addr w.len (8 * (a / 8)))
    (s : XdmaApp.State) : (q.bram (deliver mode ws s)).mem a = (q.bram s).mem a := by
  induction ws generalizing s with
  | nil => rfl
  | cons w ws ih =>
    refine (ih (fun hq v hv => h hq v (List.mem_cons_of_mem _ hv)) (transfer mode w.cycles s)).trans ?_
    rw [mem_write, if_neg fun hc => h hc.1 w List.mem_cons_self hc.2]

theorem Consecutive.le {w : SpanWrite r} (h : Consecutive off ws) (hw : w ∈ ws) : off ≤ w.addr := by
  induction ws generalizing off with
  | nil => exact absurd hw List.not_mem_nil
  | cons v ws ih =>
    obtain ⟨rfl, hrest⟩ := h
    obtain rfl | hw := List.mem_cons.mp hw
    · exact le_rfl
    · exact (Nat.le_add_right _ _).trans (ih hrest hw)

theorem mem_deliver (h : Consecutive off ws) {w : SpanWrite r} (hw : w ∈ ws) {a : ℕ}
    (ha : InRange w.addr w.len (8 * (a / 8))) (s : XdmaApp.State) :
    (r.bram (deliver mode ws s)).mem a = w.data a := by
  induction ws generalizing off s with
  | nil => exact absurd hw List.not_mem_nil
  | cons v ws ih =>
    obtain ⟨rfl, hrest⟩ := h
    obtain rfl | hw := List.mem_cons.mp hw
    · refine (mem_deliver_of_not mode (fun _ u hu hin => ?_) (transfer mode w.cycles s)).trans ?_
      · have hle := hrest.le hu
        omega
      · rw [mem_write, if_pos ⟨rfl, ha⟩]
    · exact ih hrest hw _

theorem Consecutive.exists_inRange (h : Consecutive off ws) {a : ℕ}
    (ha : InRange off (ws.map SpanWrite.len).sum a) : ∃ w ∈ ws, InRange w.addr w.len a := by
  induction ws generalizing off with
  | nil =>
    rw [List.map_nil, List.sum_nil] at ha
    omega
  | cons w ws ih =>
    obtain ⟨rfl, hrest⟩ := h
    rw [List.map_cons, List.sum_cons] at ha
    by_cases hw : a < w.addr + w.len
    · exact ⟨w, List.mem_cons_self, ha.1, hw⟩
    · obtain ⟨v, hv, hin⟩ := ih hrest ⟨by omega, by omega⟩
      exact ⟨v, List.mem_cons_of_mem _ hv, hin⟩

theorem Consecutive.inRange (h : Consecutive off ws) {w : SpanWrite r} (hw : w ∈ ws) {a : ℕ}
    (ha : InRange w.addr w.len a) : InRange off (ws.map SpanWrite.len).sum a := by
  induction ws generalizing off with
  | nil => exact absurd hw List.not_mem_nil
  | cons v ws ih =>
    obtain ⟨rfl, hrest⟩ := h
    rw [List.map_cons, List.sum_cons]
    obtain rfl | hw := List.mem_cons.mp hw
    · exact ⟨ha.1, by omega⟩
    · have hin := ih hrest hw
      omega

theorem Consecutive.disjoint (h : Consecutive off ws) {v w : SpanWrite r} (hv : v ∈ ws) (hw : w ∈ ws) {a : ℕ}
    (ha : InRange v.addr v.len a) (ha' : InRange w.addr w.len a) : v = w := by
  induction ws generalizing off with
  | nil => exact absurd hv List.not_mem_nil
  | cons u ws ih =>
    obtain ⟨rfl, hrest⟩ := h
    obtain rfl | hv' := List.mem_cons.mp hv
    · obtain rfl | hw' := List.mem_cons.mp hw
      · rfl
      · have hle := hrest.le hw'
        omega
    · obtain rfl | hw' := List.mem_cons.mp hw
      · have hle := hrest.le hv'
        omega
      · exact ih hrest hv' hw'

end Deliver

section Aligned

variable (mode : WriteMode) {off count : ℕ} {ws : List (SpanWrite r)} {data : Mem}

theorem exact_of_aligned (h : Consecutive off ws) (hcount : (ws.map SpanWrite.len).sum = count)
    (hdata : ∀ w ∈ ws, ∀ a, InRange w.addr w.len a → w.data a = data a)
    (haligned : ∀ w ∈ ws, 8 ∣ w.addr ∧ 8 ∣ w.len) (s : XdmaApp.State) : Exact mode ws off count data s := by
  have hword {w : SpanWrite r} (hw : w ∈ ws) (a : ℕ) :
      InRange w.addr w.len (8 * (a / 8)) ↔ InRange w.addr w.len a := by
    obtain ⟨h1, h2⟩ := haligned w hw
    omega
  intro q a
  by_cases hin : q = r ∧ InRange off count a
  · obtain ⟨rfl, ha⟩ := hin
    obtain ⟨w, hw, hwa⟩ := h.exists_inRange (hcount ▸ ha)
    rw [if_pos ⟨rfl, ha⟩, mem_deliver mode h hw ((hword hw a).mpr hwa), hdata w hw a hwa]
  · rw [if_neg hin]
    apply mem_deliver_of_not
    intro hq w hw hwa
    exact hin ⟨hq, hcount ▸ h.inRange hw ((hword hw a).mp hwa)⟩

theorem aligned_of_exact (h : Consecutive off ws) (hcount : (ws.map SpanWrite.len).sum = count)
    (hdata : ∀ w ∈ ws, ∀ a, w.data a = if InRange w.addr w.len a then 1 else 2)
    (hexact : ∀ s, Exact mode ws off count (fun _ => 1) s) {w : SpanWrite r} (hw : w ∈ ws) (hlen : 0 < w.len) :
    8 ∣ w.addr ∧ 8 ∣ w.len := by
  let m : XdmaApp.Bram := ⟨fun _ => 0, 0⟩
  have hm : ((r.bram ⟨m, m, m⟩).mem : Mem) = m.mem := by cases r <;> rfl
  have hword (a : ℕ) : InRange w.addr w.len (8 * (a / 8)) ↔ InRange w.addr w.len a := by
    have hbyte := hexact ⟨m, m, m⟩ r a
    rw [hm] at hbyte
    constructor
    · intro hin
      by_contra hout
      rw [mem_deliver mode h hw hin, hdata w hw a, if_neg hout] at hbyte
      split_ifs at hbyte
      · have htwo : (2 : BitVec 8) = 1 := hbyte
        exact absurd htwo (by decide)
      · have htwo : (2 : BitVec 8) = 0 := hbyte
        exact absurd htwo (by decide)
    · intro hin
      rw [if_pos ⟨rfl, hcount ▸ h.inRange hw hin⟩] at hbyte
      by_contra hout
      by_cases hother : ∃ v ∈ ws, InRange v.addr v.len (8 * (a / 8))
      · obtain ⟨v, hv, hva⟩ := hother
        have hva' : ¬ InRange v.addr v.len a := fun hc => hout (h.disjoint hv hw hc hin ▸ hva)
        rw [mem_deliver mode h hv hva, hdata v hv a, if_neg hva'] at hbyte
        have htwo : (2 : BitVec 8) = 1 := hbyte
        exact absurd htwo (by decide)
      · rw [mem_deliver_of_not mode fun _ v hv hva => hother ⟨v, hv, hva⟩, hm] at hbyte
        have hzero : (0 : BitVec 8) = 1 := hbyte
        exact absurd hzero (by decide)
  have hfirst := (hword w.addr).mpr ⟨le_rfl, by omega⟩
  have hlast := mt (hword (w.addr + w.len)).mp fun hc => lt_irrefl _ hc.2
  omega

end Aligned

theorem Consecutive.dvd_addr {off : ℕ} {ws : List (SpanWrite r)} (h : Consecutive off ws) (hoff : 8 ∣ off)
    (hlen : ∀ w ∈ ws, 8 ∣ w.len) : ∀ w ∈ ws, 8 ∣ w.addr := by
  induction ws generalizing off with
  | nil => exact fun w hw => absurd hw List.not_mem_nil
  | cons v ws ih =>
    obtain ⟨rfl, hrest⟩ := h
    intro w hw
    obtain rfl | hw := List.mem_cons.mp hw
    · exact hoff
    · exact ih hrest (Nat.dvd_add hoff (hlen v List.mem_cons_self)) (fun u hu => hlen u (List.mem_cons_of_mem _ hu)) w hw

section Descriptors

variable {e : Engine} (hdir : e.dir = .toDevice) (hinc : e.nonIncrAddr = false) {off : ℕ} {ds : List SwDesc}
include hdir hinc

theorem Carries.consecutive {data : Mem} {ws : List (SpanWrite r)} (h : Carries e off ds data ws)
    (hfit : off + Copying.total ds ≤ 8192) : Consecutive off ws ∧ ws.map SpanWrite.len = ds.map Piece.len := by
  have hmoves := h.moves
  have hfits := h.fits
  clear h
  induction ds generalizing off ws with
  | nil =>
    obtain rfl := List.map_eq_nil_iff.mp hmoves.symm
    exact ⟨trivial, rfl⟩
  | cons d ds ih =>
    cases ws with
    | nil => cases hmoves
    | cons w ws =>
      rw [Engine.moves, hdir, hinc, List.map_cons, List.map_cons] at hmoves
      obtain ⟨hhead, htail⟩ := List.cons.inj hmoves
      obtain ⟨haddr, hlen⟩ := Prod.mk.inj hhead
      have hw := hfits w List.mem_cons_self
      rw [Copying.total_cons] at hfit
      have haddr : w.addr = off := by
        have hnat := congrArg BitVec.toNat (add_left_cancel haddr)
        rw [BitVec.natCast_eq_ofNat, BitVec.natCast_eq_ofNat, BitVec.toNat_ofNat, BitVec.toNat_ofNat] at hnat
        omega
      have hlen : d.len = w.len := hlen
      have hstep : r.base + (off : Addr) + (d.len : Addr) = r.base + ((off + d.len : ℕ) : Addr) := by
        rw [add_assoc, Nat.cast_add]
      rw [if_neg Bool.false_ne_true, hstep] at htail
      obtain ⟨hrest, hlens⟩ := ih (by omega) htail fun v hv => hfits v (List.mem_cons_of_mem _ hv)
      exact ⟨⟨haddr, hlen ▸ hrest⟩, congrArg₂ List.cons hlen.symm hlens⟩

theorem exists_carries (filler data : Mem) (hfit : off + Copying.total ds ≤ 8192) :
    ∃ ws : List (SpanWrite r), Carries e off ds data ws ∧
      ∀ w ∈ ws, ∀ a, w.data a = if InRange w.addr w.len a then data a else filler a := by
  induction ds generalizing off with
  | nil =>
    refine ⟨[], ⟨fun w hw => absurd hw List.not_mem_nil, rfl, fun w hw => absurd hw List.not_mem_nil⟩,
      fun w hw => absurd hw List.not_mem_nil⟩
  | cons d ds ih =>
    rw [Copying.total_cons] at hfit
    obtain ⟨ws, hws, hdata⟩ : ∃ ws : List (SpanWrite r), Carries e (off + d.len) ds data ws ∧ _ := ih (by omega)
    let bytes : Mem := fun a => if InRange off d.len a then data a else filler a
    let x := XdmaApp.hostSession r bytes (by omega : off + d.len ≤ 8192)
    let w : SpanWrite r := ⟨off, d.len, bytes, x.writes, x.writeCycle, x.writes_words⟩
    have hstep : r.base + (off : Addr) + (d.len : Addr) = r.base + ((off + d.len : ℕ) : Addr) := by
      rw [add_assoc, Nat.cast_add]
    have hall {p : SpanWrite r → Prop} (hw : p w) (hrest : ∀ v ∈ ws, p v) : ∀ v ∈ w :: ws, p v := by
      intro v hv
      obtain rfl | hv := List.mem_cons.mp hv
      · exact hw
      · exact hrest v hv
    refine ⟨w :: ws, ⟨hall (by change off + d.len ≤ 8192; omega) hws.fits, ?_, hall (fun a ha => if_pos ha) hws.data⟩,
      hall (fun a => rfl) hdata⟩
    rw [Engine.moves, hdir, hinc, List.map_cons, List.map_cons, ← hws.moves, ← hstep]
    rfl

end Descriptors

section Pages

variable {b : DescBlenMax}

theorem dvd_sdescs {sgl : List SwDesc} (h : ∀ s ∈ sgl, s.len ≤ b.val) :
    (∀ d ∈ sdescs b sgl, 8 ∣ d.len) ↔ ∀ s ∈ sgl, 8 ∣ s.len := by
  have hfill {s : SwDesc} (hs : s.len ≤ b.val) : fill b s.addr s.len = if s.len = 0 then [] else [s] := by
    rw [fill]
    by_cases h0 : s.len = 0
    · rw [if_pos h0, if_pos h0]
    · rw [if_neg h0, if_neg h0, if_neg (Nat.not_lt.mpr hs)]
  constructor
  · intro hd s hs
    by_cases h0 : s.len = 0
    · rw [h0]
      exact dvd_zero 8
    · apply hd s
      refine List.mem_flatMap.mpr ⟨s, hs, ?_⟩
      rw [hfill (h s hs), if_neg h0]
      exact List.mem_singleton.mpr rfl
  · intro hs d hd
    obtain ⟨s, hsgl, hd⟩ := List.mem_flatMap.mp hd
    rw [hfill (h s hsgl)] at hd
    split_ifs at hd
    · exact absurd hd List.not_mem_nil
    · rw [List.mem_singleton.mp hd]
      exact hs s hsgl

theorem dvd_sgEntries (page : ℕ → Addr) (n i buf : ℕ) {len : ℕ} (hlen : len < 2 ^ 32) (hn : len ≠ 0 → buf % pageSize + len ≤ n * pageSize) :
    (∀ s ∈ (sgEntries page n i buf len).1, 8 ∣ s.len) ↔ 8 ∣ len ∧ (8 ∣ buf ∨ buf % pageSize + len ≤ pageSize) := by
  induction n generalizing i buf len with
  | zero =>
    obtain rfl : len = 0 := by
      by_contra h0
      have := hn h0
      omega
    have hoffset : buf % pageSize < pageSize := Nat.mod_lt _ (by decide)
    exact iff_of_true (fun s hs => absurd hs List.not_mem_nil) ⟨dvd_zero 8, .inr hoffset.le⟩
  | succ n ih =>
    have hoffset : buf % pageSize < pageSize := Nat.mod_lt _ (by decide)
    obtain ⟨nbytes, hnbytes⟩ : ∃ nbytes, nbytes = min (pageSize - buf % pageSize) (len % 2 ^ 32) := ⟨_, rfl⟩
    rw [sgEntries, ← hnbytes]
    rw [Nat.mod_eq_of_lt hlen] at hnbytes
    have hrest : (∀ s ∈ (sgEntries page n (i + 1) (buf + nbytes) (len - nbytes)).1, 8 ∣ s.len) ↔ _ :=
      ih (i + 1) (buf + nbytes) (by omega) fun h0 => by
        have hbound := hn (by omega)
        simp only [pageSize] at *
        omega
    simp only [List.forall_mem_cons, hrest]
    simp only [pageSize] at *
    omega

end Pages

/-- A write of the driver, whose kernel maps every page for itself, is exact for all bytes, in every memory and
whatever is on the lanes without a strobe, if and only if it is made of whole words and the buffer begins with a
whole word or does not reach into a second page. -/
theorem write_exact_iff (mode : WriteMode) (e : Engine) (hdir : e.dir = .toDevice) (hinc : e.nonIncrAddr = false)
    (b : DescBlenMax) (hb : pageSize ≤ b.val) (page : ℕ → Addr) {buf count off : ℕ} (hcount : 0 < count)
    (hfit : off + count ≤ 8192) (r : Region) :
    (∀ (data : Mem) (ws : List (SpanWrite r)),
      Carries e off (sdescs b (sgEntries page (pagesNr buf count) 0 buf count).1) data ws →
      ∀ s, Exact mode ws off count data s) ↔
    8 ∣ off ∧ 8 ∣ count ∧ (8 ∣ buf ∨ buf % pageSize + count ≤ pageSize) := by
  have hlen : count < 2 ^ 32 := by omega
  have hn : count ≠ 0 → buf % pageSize + count ≤ pagesNr buf count * pageSize := fun _ => by
    rw [pagesNr_eq buf hlen]
    simp only [pageSize]
    omega
  obtain ⟨-, haddr, hshort⟩ := sgEntries_spec page (pagesNr buf count) 0 buf hlen hn
  have hdvd := dvd_sgEntries page (pagesNr buf count) 0 buf hlen hn
  rw [← dvd_sdescs fun s hs => (hshort s hs).trans hb] at hdvd
  obtain ⟨ds, hds⟩ : ∃ ds, ds = sdescs b (sgEntries page (pagesNr buf count) 0 buf count).1 := ⟨_, rfl⟩
  have htotal : Copying.total ds = count := by
    rw [hds, total_sdescs, ← Copying.length_addresses, haddr, List.length_map, List.length_range]
  rw [← hds] at hdvd ⊢
  rw [← hdvd]
  have hlens {ws : List (SpanWrite r)} (h : ws.map SpanWrite.len = ds.map Piece.len) {p : ℕ → Prop} :
      (∀ w ∈ ws, p w.len) ↔ ∀ d ∈ ds, p d.len := by
    rw [← List.forall_mem_map, h, List.forall_mem_map]
  have hsum {ws : List (SpanWrite r)} (h : ws.map SpanWrite.len = ds.map Piece.len) :
      (ws.map SpanWrite.len).sum = count := by
    rw [h]
    exact htotal
  constructor
  · intro hexact
    obtain ⟨ws, hws, hdata⟩ := exists_carries (r := r) hdir hinc (fun _ => 2) (fun _ => 1) (htotal.symm ▸ hfit)
    obtain ⟨hcons, hlen⟩ := hws.consecutive hdir hinc (htotal.symm ▸ hfit)
    have hpos : ∀ w ∈ ws, 0 < w.len := (hlens hlen).mpr fun d hd => (sdescs_bounds b d (hds ▸ hd)).1
    have haligned {w : SpanWrite r} (hw : w ∈ ws) : 8 ∣ w.addr ∧ 8 ∣ w.len :=
      aligned_of_exact mode hcons (hsum hlen) hdata (hexact _ ws hws) hw (hpos w hw)
    refine ⟨?_, (hlens hlen).mp fun w hw => (haligned hw).2⟩
    cases ws with
    | nil =>
      have hzero := hsum hlen
      rw [List.map_nil, List.sum_nil] at hzero
      omega
    | cons w ws => exact hcons.1 ▸ (haligned List.mem_cons_self).1
  · rintro ⟨hoff, hdvd⟩ data ws hws s
    obtain ⟨hcons, hlen⟩ := hws.consecutive hdir hinc (htotal.symm ▸ hfit)
    have hdvd : ∀ w ∈ ws, 8 ∣ w.len := (hlens hlen).mpr hdvd
    exact exact_of_aligned mode hcons (hsum hlen) hws.data
      (fun w hw => ⟨hcons.dvd_addr hoff hdvd w hw, hdvd w hw⟩) s

/-- One word, from a buffer that reaches four bytes into a second page. -/
theorem write_exact_example : ¬ ∀ (data : Mem) (ws : List (SpanWrite .a)),
    Carries (exampleEngine .toDevice) 0 (sdescs exampleBlenMax (sgEntries (fun i => if i = 0 then 0x7000 else 0x3000)
      (pagesNr 4092 8) 0 4092 8).1) data ws →
    ∀ s, Exact (fun douta _ _ => douta) ws 0 8 data s :=
  mt (write_exact_iff (fun douta _ _ => douta) (exampleEngine .toDevice) rfl rfl exampleBlenMax (by decide) _ (by decide)
    (by decide) .a).mp (by decide)

end EmbeddedAccelerator.Xdma
