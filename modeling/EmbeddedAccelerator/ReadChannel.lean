import Mathlib.Data.Nat.Count
import EmbeddedAccelerator.Clocked.Run
import EmbeddedAccelerator.UsrControl

namespace EmbeddedAccelerator.UsrControl

/-- The signals of the read channel in every cycle after a reset. -/
structure Run (inputs : ℕ → Input) (s : ℕ → State) : Prop where
  isRun : Clocked.IsRun step inputs s
  noReset : ∀ t, (inputs t).aresetn = true

/-- A master keeps an address on the channel until it is taken. -/
def HoldsAddress (inputs : ℕ → Input) (s : ℕ → State) : Prop :=
  ∀ t, (inputs t).arvalid = true → (s t).arready = false →
    (inputs (t + 1)).arvalid = true ∧ (inputs (t + 1)).araddr = (inputs t).araddr

def AddressHandshake (inputs : ℕ → Input) (s : ℕ → State) (t : ℕ) : Prop :=
  (inputs t).arvalid = true ∧ (s t).arready = true

def ResponseHandshake (inputs : ℕ → Input) (s : ℕ → State) (t : ℕ) : Prop :=
  (s t).rvalid = true ∧ (inputs t).rready = true

instance (inputs : ℕ → Input) (s : ℕ → State) : DecidablePred (AddressHandshake inputs s) :=
  fun _ => inferInstanceAs (Decidable (_ ∧ _))

instance (inputs : ℕ → Input) (s : ℕ → State) : DecidablePred (ResponseHandshake inputs s) :=
  fun _ => inferInstanceAs (Decidable (_ ∧ _))

/-- The number of handshakes before cycle `t`, so the index of one in cycle `t`. -/
def addressIndex (inputs : ℕ → Input) (s : ℕ → State) (t : ℕ) : ℕ :=
  Nat.count (AddressHandshake inputs s) t

def responseIndex (inputs : ℕ → Input) (s : ℕ → State) (t : ℕ) : ℕ :=
  Nat.count (ResponseHandshake inputs s) t

/-- The value decided for the address of a handshake in cycle `t`, with the registers of the cycle
before, in which the address was taken. -/
def decided (inputs : ℕ → Input) (s : ℕ → State) (t : ℕ) : BitVec 32 :=
  readValue (inputs t) (s (t - 1))

/-- The law of the read channel. -/
structure ReadLaw (inputs : ℕ → Input) (s : ℕ → State) : Prop where
  /-- A master that is ready gets the response that belongs to the address. -/
  answered : ∀ t, AddressHandshake inputs s t → ∀ t' > t, (inputs t').rready = true →
    ∃! r, ResponseHandshake inputs s r ∧ responseIndex inputs s r = addressIndex inputs s t ∧
      t < r ∧ r ≤ t'
  /-- Every response belongs to an earlier address and carries the value decided for it. -/
  ordered : ∀ r, ResponseHandshake inputs s r → ∃ t < r, AddressHandshake inputs s t ∧
    addressIndex inputs s t = responseIndex inputs s r ∧ (s r).rdata = decided inputs s t
  stable : ∀ t, (s t).rvalid = true → (inputs t).rready = false →
    (s (t + 1)).rvalid = true ∧ (s (t + 1)).rdata = (s t).rdata

/-- No new address is on the channel while a response waits for the master. -/
def NoOverlap (inputs : ℕ → Input) (s : ℕ → State) : Prop :=
  ∀ t, (s t).rvalid = true → (inputs t).rready = false → (s t).arready = false →
    (inputs t).arvalid = false

/-- At most one read is under way: its address is on `arready`, or its response on `rvalid`. -/
structure ReadInv (inputs : ℕ → Input) (s : ℕ → State) (t : ℕ) : Prop where
  address : (s t).arready = true → 0 < t ∧ (inputs t).arvalid = true ∧ (s t).rvalid = false ∧
    (s t).rdata = decided inputs s t
  count : addressIndex inputs s t = responseIndex inputs s t + if (s t).rvalid then 1 else 0
  response : (s t).rvalid = true → ∃ t₀ < t, AddressHandshake inputs s t₀ ∧
    addressIndex inputs s t₀ = responseIndex inputs s t ∧ (s t).rdata = decided inputs s t₀

theorem readValue_congr {i i' : Input} (h : i.araddr = i'.araddr) (s : State) :
    readValue i s = readValue i' s := by
  unfold readValue Input.register
  rw [h]

section Index

variable (inputs : ℕ → Input) (s : ℕ → State) (t : ℕ)

theorem addressIndex_succ :
    addressIndex inputs s (t + 1) =
      addressIndex inputs s t + if AddressHandshake inputs s t then 1 else 0 := Nat.count_succ _ t

theorem responseIndex_succ :
    responseIndex inputs s (t + 1) =
      responseIndex inputs s t + if ResponseHandshake inputs s t then 1 else 0 := Nat.count_succ _ t

end Index

section Run

variable {inputs : ℕ → Input} {s : ℕ → State} (h : Run inputs s) (hold : HoldsAddress inputs s)
  (hno : NoOverlap inputs s) {t : ℕ}
include h

theorem rvalid_succ : (s (t + 1)).rvalid = if (s t).rvalid then !(inputs t).rready else (s t).arready := by
  rw [h.isRun t, step_eq (h.noReset t)]

theorem arready_succ : (s (t + 1)).arready = ((inputs t).arvalid && !(s t).arready) := by
  rw [h.isRun t, step_eq (h.noReset t)]

theorem rdata_succ :
    (s (t + 1)).rdata = if Accepts (inputs t) (s t) then readValue (inputs t) (s t) else (s t).rdata := by
  rw [h.isRun t, step_eq (h.noReset t)]

include hold hno

theorem address_succ (hr : (s t).arready = false) (ha : (s (t + 1)).arready = true) :
    0 < t + 1 ∧ (inputs (t + 1)).arvalid = true ∧ (s (t + 1)).rvalid = false ∧
      (s (t + 1)).rdata = decided inputs s (t + 1) := by
  have hv : (inputs t).arvalid = true := by
    rw [arready_succ h, hr] at ha
    simpa using ha
  obtain ⟨hv', haddr⟩ := hold t hv hr
  refine ⟨Nat.succ_pos t, hv', ?_, ?_⟩
  · rw [rvalid_succ h]
    cases hrv : (s t).rvalid
    · simpa using hr
    · cases hrr : (inputs t).rready
      · rw [hno t hrv hrr hr] at hv
        cases hv
      · rfl
  · rw [rdata_succ h, if_pos ⟨hv, hr⟩, decided, Nat.add_sub_cancel, readValue_congr haddr]

omit hold hno in
theorem readInv_of_arready (hi : ReadInv inputs s t) (ha : (s t).arready = true) :
    ReadInv inputs s (t + 1) := by
  obtain ⟨hpos, harv, hv, hdata⟩ := hi.address ha
  have hrv := rvalid_succ h (t := t)
  have hcount := hi.count
  have hai := addressIndex_succ inputs s t
  have hri := responseIndex_succ inputs s t
  rw [if_pos (show AddressHandshake inputs s t from ⟨harv, ha⟩)] at hai
  rw [if_neg (fun hR : ResponseHandshake inputs s t => Bool.false_ne_true (hv.symm.trans hR.1))] at hri
  rw [hv, ha] at hrv
  rw [hv] at hcount
  have hnacc : ¬ Accepts (inputs t) (s t) := fun hacc => Bool.false_ne_true (hacc.2.symm.trans ha)
  refine ⟨fun ha' => ?_, ?_, fun _ => ⟨t, Nat.lt_succ_self t, ⟨harv, ha⟩, ?_, ?_⟩⟩
  · rw [arready_succ h, ha, Bool.not_true, Bool.and_false] at ha'
    cases ha'
  · rw [hai, hri, hcount, hrv]
    rfl
  · rw [hri, hcount]
    rfl
  · rw [rdata_succ h, if_neg hnacc, hdata]

theorem readInv_of_not_arready (hi : ReadInv inputs s t) (ha : (s t).arready = false) :
    ReadInv inputs s (t + 1) := by
  have hrv := rvalid_succ h (t := t)
  have hcount := hi.count
  have hai := addressIndex_succ inputs s t
  have hri := responseIndex_succ inputs s t
  rw [if_neg (fun hA : AddressHandshake inputs s t => Bool.false_ne_true (ha.symm.trans hA.2))] at hai
  have ended (hv' : (s (t + 1)).rvalid = false)
      (hc : addressIndex inputs s (t + 1) = responseIndex inputs s (t + 1)) :
      ReadInv inputs s (t + 1) := by
    refine ⟨address_succ h hold hno ha, ?_, fun hv => ?_⟩
    · rw [hc, hv']
      rfl
    · exact absurd (hv'.symm.trans hv) Bool.false_ne_true
  cases hv : (s t).rvalid
  · rw [if_neg (fun hR : ResponseHandshake inputs s t => Bool.false_ne_true (hv.symm.trans hR.1))] at hri
    rw [hv] at hcount hrv
    refine ended (hrv.trans ha) ?_
    rw [hai, hri, hcount]
    rfl
  · rw [hv] at hcount hrv
    cases hr : (inputs t).rready
    · rw [if_neg (fun hR : ResponseHandshake inputs s t => Bool.false_ne_true (hr.symm.trans hR.2))] at hri
      rw [hr] at hrv
      have hnacc : ¬ Accepts (inputs t) (s t) := fun hacc =>
        Bool.false_ne_true ((hno t hv hr ha).symm.trans hacc.1)
      obtain ⟨t₀, ht₀, hA, hidx, hdata⟩ := hi.response hv
      refine ⟨address_succ h hold hno ha, ?_, fun _ => ⟨t₀, Nat.lt_succ_of_lt ht₀, hA, ?_, ?_⟩⟩
      · rw [hai, hri, hcount, hrv]
        rfl
      · rw [hri, hidx]
        rfl
      · rw [rdata_succ h, if_neg hnacc, hdata]
    · rw [if_pos (show ResponseHandshake inputs s t from ⟨hv, hr⟩)] at hri
      rw [hr] at hrv
      refine ended hrv ?_
      rw [hai, hri, hcount]
      rfl

theorem readInv (h0 : s 0 = powerOn) (t : ℕ) : ReadInv inputs s t := by
  induction t with
  | zero =>
    constructor
    · rw [h0]
      exact fun ha => absurd ha Bool.false_ne_true
    · rw [h0]
      rfl
    · rw [h0]
      exact fun hv => absurd hv Bool.false_ne_true
  | succ t ih =>
    cases ha : (s t).arready
    · exact readInv_of_not_arready h hold hno ih ha
    · exact readInv_of_arready h ih ha

theorem response_stable (h0 : s 0 = powerOn) (hv : (s t).rvalid = true) (hr : (inputs t).rready = false) :
    (s (t + 1)).rvalid = true ∧ (s (t + 1)).rdata = (s t).rdata := by
  have ha : (s t).arready = false := by
    by_contra ha
    rw [Bool.not_eq_false] at ha
    have hv' := ((readInv h hold hno h0 t).address ha).2.2.1
    exact Bool.false_ne_true (hv'.symm.trans hv)
  have hnacc : ¬ Accepts (inputs t) (s t) := fun hacc =>
    Bool.false_ne_true ((hno t hv hr ha).symm.trans hacc.1)
  rw [rvalid_succ h, rdata_succ h, if_neg hnacc, hv, hr]
  exact ⟨rfl, rfl⟩

theorem response_waits (h0 : s 0 = powerOn) (hA : AddressHandshake inputs s t) {d : ℕ}
    (hd : ∀ u, t < u → u < t + 1 + d → (inputs u).rready = false) :
    (s (t + 1 + d)).rvalid = true ∧ responseIndex inputs s (t + 1 + d) = addressIndex inputs s t := by
  induction d with
  | zero =>
    have hi := readInv h hold hno h0 t
    have hv := (hi.address hA.2).2.2.1
    have hcount := hi.count
    rw [hv] at hcount
    rw [Nat.add_zero, rvalid_succ h, hv, hA.2, responseIndex_succ,
      if_neg (fun hR : ResponseHandshake inputs s t => Bool.false_ne_true (hv.symm.trans hR.1))]
    exact ⟨rfl, hcount.symm⟩
  | succ d ih =>
    obtain ⟨hv, hidx⟩ := ih fun u hu hu' => hd u hu (by omega)
    have hr := hd (t + 1 + d) (by omega) (by omega)
    rw [← Nat.add_assoc, responseIndex_succ,
      if_neg (fun hR : ResponseHandshake inputs s _ => Bool.false_ne_true (hr.symm.trans hR.2))]
    exact ⟨(response_stable h hold hno h0 hv hr).1, hidx⟩

end Run

/-- Every read is answered once, in order and with its own data, if no new address is on the
channel while a response waits for the master. -/
theorem readLaw_of_noOverlap (inputs : ℕ → Input) (hreset : ∀ t, (inputs t).aresetn = true)
    (hold : HoldsAddress inputs (Clocked.run step powerOn inputs))
    (hno : NoOverlap inputs (Clocked.run step powerOn inputs)) :
    ReadLaw inputs (Clocked.run step powerOn inputs) := by
  have h : Run inputs (Clocked.run step powerOn inputs) := ⟨Clocked.isRun_run _ _ _, hreset⟩
  refine ⟨fun t hA t' ht' hr => ?_, fun r hR => ?_, fun t => response_stable h hold hno rfl⟩
  · have hex : ∃ r, t < r ∧ (inputs r).rready = true := ⟨t', ht', hr⟩
    obtain ⟨hlt, hready⟩ := Nat.find_spec hex
    have hw := response_waits h hold hno rfl hA (d := Nat.find hex - (t + 1)) (fun u hu hu' => by
      have hn := Nat.find_min hex (m := u) (by omega)
      rw [← Bool.not_eq_true]
      exact fun hru => hn ⟨hu, hru⟩)
    rw [show t + 1 + (Nat.find hex - (t + 1)) = Nat.find hex by omega] at hw
    refine ⟨Nat.find hex, ⟨⟨hw.1, hready⟩, hw.2, hlt, Nat.find_min' hex ⟨ht', hr⟩⟩, ?_⟩
    rintro r ⟨hR, hidx, -, -⟩
    exact Nat.count_injective hR ⟨hw.1, hready⟩ (hidx.trans hw.2.symm)
  · exact (readInv h hold hno rfl r).response hR.1

/-- A master with one read outstanding at a time. The next address may come with the response. -/
structure OneAtATime (inputs : ℕ → Input) (s : ℕ → State) : Prop where
  holds : HoldsAddress inputs s
  noOverlap : NoOverlap inputs s

/-- Every address is on the channel for two cycles, from the cycles of `first` on. -/
structure InPairs (inputs : ℕ → Input) (first : ℕ → Prop) : Prop where
  arvalid : ∀ t, (inputs t).arvalid = true ↔ first t ∨ 0 < t ∧ first (t - 1)
  apart : ∀ t, first t → ¬ first (t + 1)
  araddr : ∀ t, first t → (inputs (t + 1)).araddr = (inputs t).araddr

namespace InPairs

variable {inputs : ℕ → Input} {s : ℕ → State} {first : ℕ → Prop} (hin : InPairs inputs first) (h : Run inputs s)
  (h0 : s 0 = powerOn) {t : ℕ}
include hin

theorem not_before (hfirst : first t) : ¬ (0 < t ∧ first (t - 1)) := by
  rintro ⟨hpos, hbefore⟩
  apply hin.apart (t - 1) hbefore
  rwa [Nat.sub_add_cancel hpos]

include h h0

theorem arready_iff : (s t).arready = true ↔ 0 < t ∧ first (t - 1) := by
  induction t with
  | zero =>
    rw [h0]
    exact iff_of_false Bool.false_ne_true fun hc => hc.1.false
  | succ t ih =>
    rw [arready_succ h, Bool.and_eq_true, Bool.not_eq_true', ← Bool.not_eq_true, ih, hin.arvalid, Nat.add_sub_cancel]
    constructor
    · rintro ⟨hfirst | hsecond, hnot⟩
      · exact ⟨Nat.succ_pos t, hfirst⟩
      · exact absurd hsecond hnot
    · rintro ⟨-, hfirst⟩
      exact ⟨.inl hfirst, hin.not_before hfirst⟩

/-- The first of two cycles takes the address. -/
theorem accepts_iff : Accepts (inputs t) (s t) ↔ first t := by
  rw [Accepts, ← Bool.not_eq_true, hin.arready_iff h h0, hin.arvalid]
  constructor
  · rintro ⟨hfirst | hsecond, hnot⟩
    · exact hfirst
    · exact absurd hsecond hnot
  · intro hfirst
    exact ⟨.inl hfirst, hin.not_before hfirst⟩

theorem oneAtATime (hready : ∀ t, (inputs t).rready = true) : OneAtATime inputs s where
  holds t hv hr := by
    have hfirst := (hin.accepts_iff h h0).mp ⟨hv, hr⟩
    exact ⟨(hin.arvalid (t + 1)).mpr (.inr ⟨Nat.succ_pos t, hfirst⟩), hin.araddr t hfirst⟩
  noOverlap t _ hr := absurd (hr.symm.trans (hready t)) Bool.false_ne_true

end InPairs

/-- A read of `register` whose address is taken in cycle `t` and whose response, in cycle `r`,
carries `value`. -/
structure IsRead (inputs : ℕ → Input) (s : ℕ → State) (register : BitVec 2) (value : BitVec 32)
    (t r : ℕ) : Prop where
  accepted : Accepts (inputs t) (s t)
  register : (inputs t).register = register
  response : ResponseHandshake inputs s r
  index : responseIndex inputs s r = addressIndex inputs s (t + 1)
  value : (s r).rdata = value

section Read

variable {inputs : ℕ → Input} {s : ℕ → State} (h : Run inputs s) (h0 : s 0 = powerOn)
  (hone : OneAtATime inputs s) {t r : ℕ}
include h hone

theorem addressHandshake_of_accepts (ha : Accepts (inputs t) (s t)) :
    AddressHandshake inputs s (t + 1) := by
  refine ⟨(hone.holds t ha.1 ha.2).1, ?_⟩
  rw [arready_succ h, ha.1, ha.2]
  rfl

include h0

theorem IsRead.value_eq {register : BitVec 2} {value : BitVec 32}
    (hr : IsRead inputs s register value t r) : t < r ∧ value = readValue (inputs t) (s t) := by
  have hA := addressHandshake_of_accepts h hone hr.accepted
  obtain ⟨t₀, ht₀, hA₀, hidx, hdata⟩ :=
    (readInv h hone.holds hone.noOverlap h0 r).response hr.response.1
  obtain rfl : t₀ = t + 1 := Nat.count_injective hA₀ hA (hidx.trans hr.index)
  rw [← hr.value, hdata, decided, Nat.add_sub_cancel,
    readValue_congr (hone.holds t hr.accepted.1 hr.accepted.2).2]
  exact ⟨by omega, rfl⟩

theorem isRead_of_accepts (ha : Accepts (inputs t) (s t)) (hready : (inputs (t + 2)).rready = true) :
    IsRead inputs s (inputs t).register (readValue (inputs t) (s t)) t (t + 2) := by
  have hA := addressHandshake_of_accepts h hone ha
  obtain ⟨hv, hidx⟩ := response_waits h hone.holds hone.noOverlap h0 hA (d := 0) (fun u hu hu' => by omega)
  have hresp : ResponseHandshake inputs s (t + 2) := ⟨hv, hready⟩
  obtain ⟨t₀, ht₀, hA₀, hidx₀, hdata⟩ :=
    (readInv h hone.holds hone.noOverlap h0 (t + 2)).response hv
  obtain rfl : t₀ = t + 1 := Nat.count_injective hA₀ hA (hidx₀.trans hidx)
  refine ⟨ha, rfl, hresp, hidx, ?_⟩
  rw [hdata, decided, Nat.add_sub_cancel, readValue_congr (hone.holds t ha.1 ha.2).2]

end Read

/-- A read of `START` whose response waits for two cycles, and a read of `STATUS` whose address comes
with that response. -/
def twoReads (t : ℕ) : Input :=
  ⟨true, t = 3, if t < 4 then 0x1000 else 0x2000, t < 2 ∨ t = 4 ∨ t = 5, 4 ≤ t⟩

theorem readLaw_twoReads :
    ReadLaw twoReads (Clocked.run step powerOn twoReads) ∧
      (List.range 8).filter (fun t => ResponseHandshake twoReads (Clocked.run step powerOn twoReads) t) = [4, 6] ∧
      (Clocked.run step powerOn twoReads 4).rdata = 1 ∧ (Clocked.run step powerOn twoReads 6).rdata = 2 := by
  have hholds : ∀ t < 6, (twoReads t).arvalid = true → (Clocked.run step powerOn twoReads t).arready = false →
      (twoReads (t + 1)).arvalid = true ∧ (twoReads (t + 1)).araddr = (twoReads t).araddr := by decide
  have hstall : ∀ t < 4, (Clocked.run step powerOn twoReads t).rvalid = true → (twoReads t).arvalid = false := by decide
  refine ⟨readLaw_of_noOverlap twoReads (fun _ => rfl) (fun t hv hr => ?_) (fun t hv hr _ => ?_), by decide, rfl, rfl⟩
  · obtain hlt | hge := Nat.lt_or_ge t 6
    · exact hholds t hlt hv hr
    · exact absurd hv (by simp only [twoReads, decide_eq_true_eq]; omega)
  · exact hstall t (by simpa [twoReads] using hr) hv

/-- A read of `STATUS` whose response waits while a read of `START` is put on the channel. -/
def overlappingReads (t : ℕ) : Input := ⟨true, false, if t < 2 then 0x2000 else 0x1000, t < 4, false⟩

theorem overlappingReads_break_law :
    ¬ ∀ inputs : ℕ → Input, (∀ t, (inputs t).aresetn = true) →
      HoldsAddress inputs (Clocked.run step powerOn inputs) →
      ReadLaw inputs (Clocked.run step powerOn inputs) := by
  intro hall
  have hlaw := hall overlappingReads (fun _ => rfl) (fun t hv hr => by
    obtain rfl | rfl | rfl | rfl | ht : t = 0 ∨ t = 1 ∨ t = 2 ∨ t = 3 ∨ 4 ≤ t := by omega
    · exact ⟨rfl, rfl⟩
    · exact absurd hr (by decide)
    · exact ⟨rfl, rfl⟩
    · exact absurd hr (by decide)
    · exact absurd hv (by simp only [overlappingReads, decide_eq_true_eq]; omega))
  exact absurd (hlaw.stable 2 (by decide) rfl).2 (by decide)

end EmbeddedAccelerator.UsrControl
