import EmbeddedAccelerator.XdmaApp

/-!
Writes and reads of any bytes of a region. A memory takes whole words: it sees one strobe bit, that
of the first byte of a word.
-/

namespace EmbeddedAccelerator.XdmaApp

open Clocked (Mem)

abbrev InRange (addr len x : ℕ) : Prop := addr ≤ x ∧ x < addr + len

/-- The words with a byte in the range. -/
def words (addr len : ℕ) : List ℕ :=
  if len = 0 then [] else List.range' (addr / 8) ((addr + len + 7) / 8 - addr / 8)

/-- A cycle of `dev_write`. The strobes of a beat cover exactly the bytes of the range; the lanes
without a strobe carry anything, `wdata` at the bytes outside the range. -/
structure WriteCycle (r : Region) (addr len : ℕ) (wdata : ℕ → BitVec 8) (i : Signals) : Prop where
  region : waddrVal i = r.val
  strobe : i.bramEn = true → ∀ j < 8, i.bramWe.getLsbD j = decide (InRange addr len (8 * bramAddr1 i + j))
  data : i.bramEn = true → ∀ j < 8, Clocked.lane 8 i.bramWrdata j = wdata (8 * bramAddr1 i + j)

/-- A cycle of `dev_read`. -/
structure ReadCycle (r : Region) (i : Signals) : Prop where
  region : raddrVal i = r.val
  noWrite : i.bramEn = true → i.bramWe = 0

/-- The words that the beats of a transfer address. -/
def addressed (cycles : List Signals) : List ℕ := (cycles.filter (·.bramEn)).map bramAddr1

/-- A write of a range, any time without a beat, and a read of the same range, whose last cycle only
delivers. -/
structure Session (r : Region) (addr len : ℕ) (wdata : ℕ → BitVec 8) where
  writes : List Signals
  between : List Signals
  reads : List Signals
  writeCycle : ∀ i ∈ writes, WriteCycle r addr len wdata i
  writes_words : addressed writes = words addr len
  idle : ∀ i ∈ between, i.bramEn = false
  readCycle : ∀ i ∈ reads, ReadCycle r i
  reads_words : addressed reads.dropLast = words addr len

def transfer (mode : WriteMode) (cycles : List Signals) (s : State) : State :=
  cycles.foldl (fun s i => step mode i s) s

/-- The words on `bram_rddata` in the cycles after the beats. -/
def received (mode : WriteMode) : List Signals → State → List (BitVec 64)
  | i :: i' :: cycles, s =>
    if i.bramEn then bramRddata i' (step mode i s) :: received mode (i' :: cycles) (step mode i s)
    else received mode (i' :: cycles) (step mode i s)
  | _, _ => []

/-- `buffer[n]` of `dev_read`. -/
def readBuffer (data : List (BitVec 64)) (addr n : ℕ) : BitVec 8 :=
  Clocked.lane 8 (data.getD ((addr + n) / 8 - addr / 8) 0) ((addr + n) % 8)

/-- The write changes the bytes of the range to the given ones and no other byte of any memory, and
the read returns them. -/
structure ByteExact (mode : WriteMode) {r : Region} {addr len : ℕ} {wdata : ℕ → BitVec 8}
    (x : Session r addr len wdata) (s : State) : Prop where
  written : ∀ (q : Region) (a : ℕ), (q.bram (transfer mode x.writes s)).mem a =
    if q = r ∧ InRange addr len a then wdata a else (q.bram s).mem a
  read : ∀ n < len, readBuffer
    (received mode x.reads (transfer mode x.between (transfer mode x.writes s))) addr n = wdata (addr + n)

theorem mem_words {addr len k : ℕ} : k ∈ words addr len ↔ 0 < len ∧ addr / 8 ≤ k ∧ 8 * k < addr + len := by
  rw [words]
  split_ifs with h
  · simp [h]
  · rw [List.mem_range'_1]
    omega

section Transfer

variable (mode : WriteMode)

theorem mem_step_idle {i : Signals} (hen : i.bramEn = false) (s : State) (q : Region) :
    q.bram (step mode i s) = q.bram s := by
  rw [Region.bram_step, enFor, hen, ite_self, Bram.clka]
  rfl

theorem transfer_idle {cycles : List Signals} (h : ∀ i ∈ cycles, i.bramEn = false) (s : State) (q : Region) :
    q.bram (transfer mode cycles s) = q.bram s := by
  induction cycles generalizing s with
  | nil => rfl
  | cons i cycles ih =>
    have htail := ih (fun i hi => h i (List.mem_cons_of_mem _ hi)) (step mode i s)
    rw [mem_step_idle mode (h i List.mem_cons_self)] at htail
    exact htail

theorem mem_addressed_cons {i : Signals} {cycles : List Signals} {k : ℕ} :
    k ∈ addressed (i :: cycles) ↔ (i.bramEn = true ∧ bramAddr1 i = k) ∨ k ∈ addressed cycles := by
  rw [addressed, List.filter_cons]
  cases i.bramEn
  · simp [addressed]
  · rw [if_pos rfl, List.map_cons, List.mem_cons]
    exact or_congr_left ⟨fun h => ⟨rfl, h.symm⟩, fun h => h.2.symm⟩

section Write

variable {r : Region} {addr len : ℕ} {wdata : ℕ → BitVec 8}

theorem mem_step_write {i : Signals} (h : WriteCycle r addr len wdata i) (s : State) (q : Region) (a : ℕ) :
    (q.bram (step mode i s)).mem a =
      if q = r ∧ (i.bramEn = true ∧ bramAddr1 i = a / 8) ∧ InRange addr len (8 * (a / 8)) then wdata a
      else (q.bram s).mem a := by
  cases hen : i.bramEn
  · rw [mem_step_idle mode hen, if_neg fun hc => Bool.false_ne_true hc.2.1.1]
  · have hwe : bramWe i = true ↔ InRange addr len (8 * bramAddr1 i) := by
      rw [bramWe, h.strobe hen 0 (by decide), decide_eq_true_eq, Nat.add_zero]
    have hlane := h.data hen (a % 8) (Nat.mod_lt a (by decide))
    rw [mem_step mode hen, h.region]
    by_cases hq : q = r
    · subst hq
      by_cases ha : bramAddr1 i = a / 8
      · rw [ha, Nat.div_add_mod] at hlane
        rw [ha] at hwe ⊢
        by_cases hr : InRange addr len (8 * (a / 8))
        · rw [if_pos ⟨rfl, hwe.mpr hr⟩, if_pos ⟨rfl, ⟨rfl, rfl⟩, hr⟩, Mem.write, if_pos rfl]
          exact hlane
        · rw [if_neg fun hc => hr (hwe.mp hc.2), if_neg fun hc => hr hc.2.2]
      · rw [if_neg (c := _ ∧ _ ∧ _) fun hc => ha hc.2.1.2]
        split_ifs
        · exact if_neg fun hc => ha hc.symm
        · rfl
    · rw [if_neg fun hc => hq (Region.val_injective hc.1).symm, if_neg fun hc => hq hc.1]

theorem mem_transfer_write {cycles : List Signals} (h : ∀ i ∈ cycles, WriteCycle r addr len wdata i)
    (s : State) (q : Region) (a : ℕ) :
    (q.bram (transfer mode cycles s)).mem a =
      if q = r ∧ a / 8 ∈ addressed cycles ∧ InRange addr len (8 * (a / 8)) then wdata a
      else (q.bram s).mem a := by
  induction cycles generalizing s with
  | nil => simp [transfer, addressed]
  | cons i cycles ih =>
    change (q.bram (transfer mode cycles (step mode i s))).mem a = _
    rw [ih (fun i hi => h i (List.mem_cons_of_mem _ hi)), mem_step_write mode (h i List.mem_cons_self)]
    simp only [mem_addressed_cons]
    by_cases hlater : q = r ∧ a / 8 ∈ addressed cycles ∧ InRange addr len (8 * (a / 8))
    · rw [if_pos hlater, if_pos ⟨hlater.1, .inr hlater.2.1, hlater.2.2⟩]
    · rw [if_neg hlater]
      apply if_congr _ rfl rfl
      constructor
      · exact fun ⟨hq, hi, hr⟩ => ⟨hq, .inl hi, hr⟩
      · rintro ⟨hq, hi | hi, hr⟩
        · exact ⟨hq, hi, hr⟩
        · exact absurd ⟨hq, hi, hr⟩ hlater

end Write

section Read

variable {r : Region}

theorem selected_of_raddrVal {i : Signals} (h : raddrVal i = r.val) : selected i = r := by
  rw [selected, h]
  cases r <;> rfl

theorem mem_step_read {i : Signals} (h : ReadCycle r i) (s : State) (q : Region) :
    (q.bram (step mode i s)).mem = (q.bram s).mem := by
  cases hen : i.bramEn
  · rw [mem_step_idle mode hen]
  · rw [mem_step mode hen, bramWe, h.noWrite hen, if_neg]
    rintro ⟨_, hbit⟩
    cases hbit

theorem received_eq {cycles : List Signals} (h : ∀ i ∈ cycles, ReadCycle r i) (s : State) :
    received mode cycles s = (addressed cycles.dropLast).map fun k => (r.bram s).mem.word k 8 := by
  induction cycles generalizing s with
  | nil => rfl
  | cons i cycles ih =>
    cases cycles with
    | nil => rfl
    | cons i' cycles =>
      have hi := h i List.mem_cons_self
      have hi' := h i' (List.mem_cons_of_mem _ List.mem_cons_self)
      have htail := ih (fun j hj => h j (List.mem_cons_of_mem _ hj)) (step mode i s)
      rw [mem_step_read mode hi] at htail
      rw [received, List.dropLast_cons_cons, htail]
      cases hen : i.bramEn
      · simp [addressed, hen]
      · have hread : bramRddata i' (step mode i s) = (r.bram s).mem.word (bramAddr1 i) 8 := by
          rw [bramRddata_eq, selected_of_raddrVal hi'.region, douta_step mode hen (hi.noWrite hen),
            if_pos (.inl hi.region)]
        simp [addressed, hen, hread]

theorem readBuffer_words (mem : Mem) {addr len n : ℕ} (hn : n < len) :
    readBuffer ((words addr len).map fun k => mem.word k 8) addr n = mem (addr + n) := by
  have hlen : (addr + n) / 8 - addr / 8 < (addr + len + 7) / 8 - addr / 8 := by omega
  have hword : addr / 8 + ((addr + n) / 8 - addr / 8) = (addr + n) / 8 := by omega
  have hget : ((words addr len).map fun k => mem.word k 8).getD ((addr + n) / 8 - addr / 8) 0 =
      mem.word ((addr + n) / 8) 8 := by
    rw [words, if_neg (by omega), List.getD_eq_getElem?_getD, List.getElem?_map, List.getElem?_range' hlen,
      Nat.one_mul, hword]
    rfl
  rw [readBuffer, hget, Mem.lane_word (Nat.mod_lt _ (by decide)), Nat.div_add_mod]

end Read

end Transfer

section Session

variable (mode : WriteMode) {r : Region} {addr len : ℕ} {wdata : ℕ → BitVec 8} (x : Session r addr len wdata)
  (s : State)

theorem mem_writes (q : Region) (a : ℕ) : (q.bram (transfer mode x.writes s)).mem a =
    if q = r ∧ InRange addr len (8 * (a / 8)) then wdata a else (q.bram s).mem a := by
  rw [mem_transfer_write mode x.writeCycle, x.writes_words]
  apply if_congr _ rfl rfl
  rw [mem_words]
  constructor
  · exact fun ⟨hq, _, hr⟩ => ⟨hq, hr⟩
  · exact fun ⟨hq, hr⟩ => ⟨hq, ⟨by omega, by omega, hr.2⟩, hr⟩

theorem byteExact_iff_bytes : ByteExact mode x s ↔
    ∀ a, ¬ (InRange addr len a ↔ InRange addr len (8 * (a / 8))) → (r.bram s).mem a = wdata a := by
  constructor
  · intro h a ha
    have hw := h.written r a
    rw [mem_writes] at hw
    by_cases h1 : InRange addr len (8 * (a / 8))
    · rw [if_pos ⟨rfl, h1⟩, if_neg fun hc => ha (iff_of_true hc.2 h1)] at hw
      exact hw.symm
    · have h2 : InRange addr len a := by_contra fun hc => ha (iff_of_false hc h1)
      rw [if_neg fun hc => h1 hc.2, if_pos ⟨rfl, h2⟩] at hw
      exact hw
  · intro h
    have hwritten (q : Region) (a : ℕ) : (q.bram (transfer mode x.writes s)).mem a =
        if q = r ∧ InRange addr len a then wdata a else (q.bram s).mem a := by
      rw [mem_writes]
      by_cases hq : q = r
      · subst hq
        by_cases ha : InRange addr len a ↔ InRange addr len (8 * (a / 8))
        · exact if_congr (and_congr_right fun _ => ha.symm) rfl rfl
        · rw [h a ha, ite_self, ite_self]
      · rw [if_neg fun hc => hq hc.1, if_neg fun hc => hq hc.1]
    refine ⟨hwritten, fun n hn => ?_⟩
    rw [received_eq mode x.readCycle, x.reads_words, readBuffer_words _ hn, transfer_idle mode x.idle, hwritten,
      if_pos ⟨rfl, by omega⟩]

end Session

section HostSession

/-- The address of the first byte of a region. -/
def Region.base (r : Region) : BitVec 64 := r.val.setWidth 64 <<< 13

theorem addrVal_base (r : Region) : addrVal r.base = r.val := by cases r <;> rfl

/-- A beat, or a cycle without one, with the region on both address channels. -/
def driven (r : Region) (bramEn : Bool) (bramWe : BitVec 8) (bramWrdata : BitVec 64) (k : ℕ) : Signals where
  awaddr := r.base
  awlen := 0
  awvalid := false
  awready := false
  araddr := r.base
  arlen := 0
  arvalid := false
  arready := false
  bramEn := bramEn
  bramWe := bramWe
  bramAddr := BitVec.ofNat 13 (8 * k)
  bramWrdata := bramWrdata

def strobeOf (addr len k : ℕ) : BitVec 8 :=
  Clocked.pack (fun j => BitVec.ofBool (InRange addr len (8 * k + j))) 8

theorem getLsbD_strobeOf (addr len k : ℕ) {j : ℕ} (hj : j < 8) :
    (strobeOf addr len k).getLsbD j = decide (InRange addr len (8 * k + j)) := by
  have h := Clocked.pack_getLsbD (w := 1) (fun j => BitVec.ofBool (InRange addr len (8 * k + j))) 8 j 0 hj
    Nat.one_pos
  have hindex : 1 * j + 0 = j := by omega
  rw [hindex] at h
  exact h.trans (by simp)

def writeBeat (r : Region) (addr len : ℕ) (wdata : ℕ → BitVec 8) (k : ℕ) : Signals :=
  driven r true (strobeOf addr len k) (Clocked.pack (fun j => wdata (8 * k + j)) 8) k

def readBeat (r : Region) (k : ℕ) : Signals := driven r true 0 0 k

theorem bramAddr1_driven (r : Region) (en : Bool) (we : BitVec 8) (data : BitVec 64) {k : ℕ} (hk : k < 1024) :
    bramAddr1 (driven r en we data k) = k := by
  rw [bramAddr1, driven, BitVec.extractLsb'_toNat, BitVec.toNat_ofNat, Nat.shiftRight_eq_div_pow]
  omega

theorem addressed_map {f : ℕ → Signals} {ks : List ℕ}
    (h : ∀ k ∈ ks, (f k).bramEn = true ∧ bramAddr1 (f k) = k) : addressed (ks.map f) = ks := by
  induction ks with
  | nil => rfl
  | cons k ks ih =>
    obtain ⟨hen, hk⟩ := h k List.mem_cons_self
    have htail := ih fun k hk => h k (List.mem_cons_of_mem _ hk)
    rw [addressed] at htail ⊢
    rw [List.map_cons, List.filter_cons_of_pos hen, List.map_cons, htail, hk]

variable (r : Region) {addr len : ℕ} (wdata : ℕ → BitVec 8) (hfit : addr + len ≤ 8192)

/-- One beat in every cycle. -/
def hostSession : Session r addr len wdata where
  writes := (words addr len).map (writeBeat r addr len wdata)
  between := []
  reads := (words addr len).map (readBeat r) ++ [driven r false 0 0 0]
  writeCycle i hi := by
    obtain ⟨k, hk, rfl⟩ := List.mem_map.mp hi
    have hk' : bramAddr1 (writeBeat r addr len wdata k) = k := by
      have hw := mem_words.mp hk
      exact bramAddr1_driven r _ _ _ (by omega)
    refine ⟨addrVal_base r, fun _ j hj => ?_, fun _ j hj => ?_⟩
    · rw [hk']
      exact getLsbD_strobeOf addr len k hj
    · rw [hk']
      exact Clocked.lane_pack _ _ _ hj
  writes_words := addressed_map fun k hk => by
    have hw := mem_words.mp hk
    exact ⟨rfl, bramAddr1_driven r _ _ _ (by omega)⟩
  idle i hi := absurd hi List.not_mem_nil
  readCycle i hi := by
    obtain hi | hi := List.mem_append.mp hi
    · obtain ⟨k, hk, rfl⟩ := List.mem_map.mp hi
      exact ⟨addrVal_base r, fun _ => rfl⟩
    · rw [List.mem_singleton.mp hi]
      exact ⟨addrVal_base r, fun _ => rfl⟩
  reads_words := by
    rw [List.dropLast_concat]
    apply addressed_map
    intro k hk
    have hw := mem_words.mp hk
    exact ⟨rfl, bramAddr1_driven r _ _ _ (by omega)⟩

end HostSession

/-- A write and read of a range are exact if and only if every byte that is written without a strobe,
or not written in spite of its strobe, holds what the bus carries for it. Whatever is written over
whatever the memories hold, they are exact if and only if the range is made of whole words. -/
theorem byteExact_iff (mode : WriteMode) (r : Region) {addr len : ℕ} (hfit : addr + len ≤ 8192) :
    (∀ (wdata : ℕ → BitVec 8) (x : Session r addr len wdata) (s : State), ByteExact mode x s ↔
      ∀ a, ¬ (InRange addr len a ↔ InRange addr len (8 * (a / 8))) → (r.bram s).mem a = wdata a) ∧
    ((∀ (wdata : ℕ → BitVec 8) (x : Session r addr len wdata) (s : State), ByteExact mode x s) ↔
      len = 0 ∨ 8 ∣ addr ∧ 8 ∣ len) := by
  refine ⟨fun wdata x s => byteExact_iff_bytes mode x s, ?_⟩
  constructor
  · intro h
    by_cases hlen : len = 0
    · exact .inl hlen
    apply Or.inr
    -- Where the memory holds other bytes everywhere, no byte may lose or gain its strobe.
    let m : Bram := ⟨fun _ => 0, 0⟩
    have hm : ((r.bram ⟨m, m, m⟩).mem : Mem) = m.mem := by cases r <;> rfl
    have hbytes := (byteExact_iff_bytes mode (hostSession r (fun _ => 1) hfit) ⟨m, m, m⟩).mp (h _ _ _)
    have hsame (a : ℕ) : InRange addr len a ↔ InRange addr len (8 * (a / 8)) := by
      by_contra ha
      have hb := hbytes a ha
      rw [hm] at hb
      have hbyte : (0 : BitVec 8) = 1 := hb
      exact absurd hbyte (by decide)
    have hfirst := (hsame addr).mp ⟨le_rfl, by omega⟩
    have hlast := mt (hsame (addr + len)).mpr fun hc => lt_irrefl _ hc.2
    omega
  · intro h wdata x s
    rw [byteExact_iff_bytes]
    intro a ha
    apply absurd _ ha
    obtain rfl | ⟨haddr, hlen⟩ := h
    · omega
    · omega

theorem byteExact_words : ByteExact (fun douta _ _ => douta)
    (hostSession .b (fun a => BitVec.ofNat 8 a) (by decide : 64 + 4096 ≤ 8192))
    ⟨⟨fun _ => 0, 0⟩, ⟨fun _ => 0, 0⟩, ⟨fun _ => 0, 0⟩⟩ :=
  (byteExact_iff (fun douta _ _ => douta) .b (by decide : 64 + 4096 ≤ 8192)).2.mpr
    (.inr ⟨by decide, by decide⟩) _ _ _

/-- Without the strobe of the first byte of the word, four bytes at address 4 are not written. -/
theorem partial_not_written : ¬ ByteExact (fun douta _ _ => douta)
    (hostSession .a (fun _ => 1) (by decide : 4 + 4 ≤ 8192))
    ⟨⟨fun _ => 0, 0⟩, ⟨fun _ => 0, 0⟩, ⟨fun _ => 0, 0⟩⟩ := by
  intro h
  have hbyte : (0 : BitVec 8) = 1 := (byteExact_iff_bytes _ _ _).mp h 4 (by decide)
  exact absurd hbyte (by decide)

end EmbeddedAccelerator.XdmaApp
