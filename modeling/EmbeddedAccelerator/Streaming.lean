import EmbeddedAccelerator.Gathering

/-!
`scatter_a` and `gather_c` between the same `start_cal` pulses. The two counters stop at different
limits, and the rows of `Bram_A` arrive in the cycles of their sums.
-/

namespace EmbeddedAccelerator.Streaming

open Clocked (Mem Train)
open GatherC (Quiet Schedule doneTime)
open MatrixMultiply (blockAt)

variable {P : Params}

/-- The output register of `Bram_A` is between `scatter_a` and its input. -/
structure State where
  scatterA : ScatterA.State
  bramRddataA : BitVec 128
  gatherC : GatherC.Control

def step (P : Params) (bramA : Mem) (startCal : Bool) (x : State) : State where
  scatterA := ScatterA.step P false startCal x.scatterA
  bramRddataA := bramA.word (ScatterA.bramAddrA P x.scatterA) N
  gatherC := GatherC.controlStep P false startCal x.gatherC

def aIn (x : State) (j : Fin N) : BitVec 8 := ScatterA.aIn x.scatterA x.bramRddataA j

/-- The part of the machine that streams. -/
def ofMachine (m : Machine P) : State := ⟨m.mm.scatterA, m.bramRddataA, m.mm.gatherC.control⟩

theorem step_ofMachine {i : Machine.Input} (hi : i.rst = false) (m : Machine P) :
    ofMachine (Machine.step i m) = step P i.bramA m.mm.computeControl.startCal (ofMachine m) := by
  have hrst : (m.ports i).rst = false := hi
  simp only [ofMachine, step, Machine.step, MatrixMultiply.step, hrst]
  rfl

/-- `scatter_a` in `IDLE`, as a reset or the end of the last column block leaves it. -/
structure Idle (x : ScatterA.State) : Prop where
  state : x.state = .idle
  colCnt : x.colCnt = 0

theorem step_idle {x : ScatterA.State} (hx : Idle x) : ScatterA.step P false false x = ScatterA.ready 0 := by
  obtain ⟨h1, h2⟩ := hx
  simp [ScatterA.step, ScatterA.ready, h1, h2]

theorem nextCol_mod (hP : P.Fits) (p : ℕ) :
    ScatterA.nextCol P (p % ScatterA.colCount P) = (p + 1) % ScatterA.colCount P := by
  have hC : 0 < ScatterA.colCount P := Nat.div_pos hP.le_ax (by decide)
  have hlt : ScatterA.colCount P < 2 ^ (P.dataASizeX / N) := Nat.lt_two_pow_self
  have hmod := Nat.mod_lt p hC
  rw [ScatterA.nextCol]
  by_cases h : p % ScatterA.colCount P = ScatterA.colCount P - 1
  · rw [if_pos h, (MatrixMultiply.succ_divMod_of_last hC h).2]
  · rw [if_neg h, (MatrixMultiply.succ_divMod_of_not_last hC h).2, Nat.mod_eq_of_lt (by omega)]

/-- Cycle 0 is an idle cycle. -/
structure Starts (startCal : ℕ → Bool) (x : ℕ → State) : Prop where
  idle : Idle (x 0).scatterA
  quiet : Quiet (x 0).gatherC
  low : startCal 0 = false

section Run

variable {bramA : Mem} {startCal : ℕ → Bool} {x : ℕ → State} {t : ℕ → ℕ} {n : ℕ∞} (hP : P.Fits)
  (h : Clocked.IsRun (step P bramA) startCal x) (h0 : Starts startCal x)
  (hs : Schedule startCal (fun u => (x u).gatherC) t n)
include h

theorem control_run : Clocked.IsRun (GatherC.controlStep P false) startCal (fun u => (x u).gatherC) := by
  intro u
  change (x (u + 1)).gatherC = _
  rw [h, step]

theorem scatterA_run : Clocked.IsRun (ScatterA.step P false) startCal (fun u => (x u).scatterA) := by
  intro u
  change (x (u + 1)).scatterA = _
  rw [h, step]

include h0 hs

theorem ready_before {u : ℕ} (hu0 : 0 < u) (hu : ∀ p : ℕ, p < n → u ≤ t p) :
    (x u).scatterA = ScatterA.ready 0 := by
  induction u, hu0 using Nat.le_induction with
  | base =>
    rw [h, step, h0.low]
    exact step_idle h0.idle
  | succ u hu0 ih =>
    have hlow : startCal u = false := Bool.eq_false_iff.mpr (hs.train.not_pulse_before hu)
    rw [h, step, ih (fun p hp => (Nat.lt_of_succ_le (hu p hp)).le), hlow]
    change ScatterA.step P false false (ScatterA.ready 0) = _
    rw [ScatterA.step_ready]
    rfl

omit h in
theorem first_pos {p : ℕ} (hp : p < n) : 0 < t p := by
  apply Nat.pos_of_ne_zero
  intro hz
  have hpulse := (hs.pulse_iff (t p)).mpr ⟨p, hp, rfl⟩
  rw [hz, h0.low] at hpulse
  cases hpulse

include hP

theorem stream_pass (p : ℕ) (hp : p < n) :
    ∀ k, ((p + 1 : ℕ) < n → t p + k ≤ t (p + 1)) →
      (x (t p + k)).scatterA = ScatterA.streamAt P (p % ScatterA.colCount P) k := by
  have hC : 0 < ScatterA.colCount P := Nat.div_pos hP.le_ax (by decide)
  have hready : (x (t p)).scatterA = ScatterA.ready (p % ScatterA.colCount P) := by
    cases p with
    | zero =>
      rw [Nat.zero_mod]
      exact ready_before h h0 hs (first_pos h0 hs hp) fun q hq => hs.train.le_of_le (Nat.zero_le q) hq
    | succ p =>
      have hd := GatherC.le_doneTime (P := P) (b := blockAt P p)
      have hlt := GatherC.done_before_next hP (control_run h) h0.quiet hs hp
      have hk : t p + (t (p + 1) - t p) = t (p + 1) := by omega
      have hpass := stream_pass p (Train.lt_of_lt (Nat.lt_succ_self p) hp) (t (p + 1) - t p)
        (fun _ => by omega)
      rw [hk, ScatterA.streamAt_ready P _ (by omega), nextCol_mod hP] at hpass
      exact hpass
  intro k hb
  refine (scatterA_run h).follows (ScatterA.streamAt P (p % ScatterA.colCount P)) (T := t p) (n := k)
    hready (fun u hu => ?_) k le_rfl
  have hpulse : startCal (t p + u) = decide (u = 0) := by
    rw [Bool.eq_iff_iff, decide_eq_true_eq]
    exact hs.train.pulse_add_iff hp fun hp1 => by have hle := hb hp1; omega
  rw [hpulse]
  exact ScatterA.streamAt_step hP.one_lt_ay (Nat.lt_of_succ_lt hP.ay_lt) (Nat.mod_lt p hC) u

theorem row_within {p : ℕ} (hp : p < n) {k : ℕ} (hk : k < P.dataASizeY) : Train.Within t n p (t p + (k + 2)) := by
  have hd := GatherC.le_doneTime (P := P) (b := blockAt P p)
  exact GatherC.within_pass hP (control_run h) h0.quiet hs hp (by omega) (by omega)

theorem aIn_row {p : ℕ} (hp : p < n) {k : ℕ} (hk : k < P.dataASizeY) (j : Fin N) :
    aIn (x (t p + (k + 2))) j = bramA (k * P.dataASizeX + (p % ScatterA.colCount P * N + j)) := by
  have hC : 0 < ScatterA.colCount P := Nat.div_pos hP.le_ax (by decide)
  have hb := (row_within hP h h0 hs hp hk).before
  have haddr : (x (t p + (k + 1))).scatterA = _ :=
    stream_pass hP h h0 hs p hp (k + 1) fun hp1 => by have := hb hp1; omega
  have hpointer := Machine.pointer_calculating hP (Nat.mod_lt p hC) hk
  rw [← ScatterA.streamAt_calculating P _ hk, ← haddr] at hpointer
  rw [aIn, ScatterA.aIn, stream_pass hP h h0 hs p hp (k + 2) hb, ScatterA.outputEnable_streamAt P _ hP.ay_pos,
    if_pos (decide_eq_true (by omega)), show t p + (k + 2) = t p + (k + 1) + 1 by omega, h, step,
    ScatterA.bramAddrA, hpointer]
  have hword : N * (k * (P.dataASizeX / N) + p % ScatterA.colCount P) / 2 ^ 4 =
      k * (P.dataASizeX / N) + p % ScatterA.colCount P := Nat.mul_div_cancel_left _ (by decide)
  rw [hword]
  exact (Mem.lane_word j.isLt).trans (by rw [← Machine.row_aligned hP.dvd_ax, Nat.add_assoc])

theorem aIn_zero {u : ℕ} (hu0 : 0 < u)
    (hu : ¬ ∃ p : ℕ, p < n ∧ ∃ k < P.dataASizeY, u = t p + (k + 2)) (j : Fin N) : aIn (x u) j = 0 := by
  have hlow : (x u).scatterA.outputEnable = false := by
    rcases hs.train.located u with hbefore | ⟨p, hp⟩
    · rw [ready_before h h0 hs hu0 hbefore]
      rfl
    · obtain ⟨k, rfl⟩ : ∃ k, u = t p + k := ⟨u - t p, by have := hp.after; omega⟩
      rw [stream_pass hP h h0 hs p hp.lt k hp.before, ScatterA.outputEnable_streamAt P _ hP.ay_pos]
      apply decide_eq_false
      rintro ⟨h1, h2⟩
      exact hu ⟨p, hp.lt, k - 2, by omega, by omega⟩
  rw [aIn, ScatterA.aIn, hlow]
  rfl

theorem gathering_iff {p u : ℕ} (hu : Train.Within t n p u) {k : ℕ} (hk : k < P.dataASizeY) :
    (x u).gatherC.gather.state = .gathering ∧ (x u).gatherC.gather.inBlockCnt = k + 1 ↔
      u = t p + (k + 2) := by
  obtain ⟨d, rfl⟩ : ∃ d, u = t p + d := ⟨u - t p, by have := hu.after; omega⟩
  have hd : 0 < d := by have := hu.after; omega
  have hc : (x (t p + d)).gatherC = _ :=
    GatherC.control_pass hP (control_run h) h0.quiet hs p hu.lt d hd hu.before
  rw [hc, GatherC.gatherAt_gathering_iff hd (by omega)]
  omega

end Run

/-- Row `k` of the column block of every pass is on `a_in` in the one cycle in which `gather_c` adds
to row `k` of its buffer; in all other cycles `a_in` is 0. -/
structure Aligned (P : Params) (bramA : Mem) (x : ℕ → State) (t : ℕ → ℕ) (n : ℕ∞) : Prop where
  row : ∀ p : ℕ, p < n → ∀ k < P.dataASizeY, ∀ j : Fin N,
    aIn (x (t p + (k + 2))) j = bramA (k * P.dataASizeX + (p % ScatterA.colCount P * N + j))
  gathering : ∀ p u : ℕ, Train.Within t n p u → ∀ k < P.dataASizeY,
    ((x u).gatherC.gather.state = .gathering ∧ (x u).gatherC.gather.inBlockCnt = k + 1 ↔
      u = t p + (k + 2))
  within : ∀ p : ℕ, p < n → ∀ k < P.dataASizeY, Train.Within t n p (t p + (k + 2))
  zero : ∀ u, 0 < u → (¬ ∃ p : ℕ, p < n ∧ ∃ k < P.dataASizeY, u = t p + (k + 2)) →
    ∀ j, aIn (x u) j = 0
  /-- In particular when the index `in_block_cnt - 1` is outside the buffer. -/
  outside : ∀ u, 0 < u → (x u).gatherC.gather.state = .gathering →
    (x u).gatherC.gather.inBlockCnt = 0 ∨ (x u).gatherC.gather.inBlockCnt = P.dataASizeY + 1 →
    ∀ j, aIn (x u) j = 0

/-- Whatever `Bram_A` holds, and however long the passes wait for each other. -/
theorem aligned_shipped (bramA : Mem) (startCal : ℕ → Bool) (x : ℕ → State) (t : ℕ → ℕ) (n : ℕ∞)
    (h : Clocked.IsRun (step shipped bramA) startCal x) (h0 : Starts startCal x)
    (hs : Schedule startCal (fun u => (x u).gatherC) t n) : Aligned shipped bramA x t n where
  row _ hp _ hk j := aIn_row shipped_fits h h0 hs hp hk j
  gathering _ _ hu _ hk := gathering_iff shipped_fits h h0 hs hu hk
  within _ hp _ hk := row_within shipped_fits h h0 hs hp hk
  zero _ hu0 hu j := aIn_zero shipped_fits h h0 hs hu0 hu j
  outside u hu0 hg hc j := by
    apply aIn_zero shipped_fits h h0 hs hu0
    rintro ⟨p, hp, k, hk, rfl⟩
    have hiff := (gathering_iff shipped_fits h h0 hs (row_within shipped_fits h h0 hs hp hk) hk).mpr rfl
    have hcnt := hiff.2
    omega

/-- The first two passes, 100 cycles apart. -/
def twoPasses (u : ℕ) : Bool := u = 1 || u = 101

def twoPassRun (bramA : Mem) : ℕ → State :=
  Clocked.run (step shipped bramA) ⟨⟨.idle, 0, 0, false, false⟩, 0, GatherC.ready ⟨0, 0⟩⟩ twoPasses

theorem schedule_twoPasses (bramA : Mem) :
    Schedule twoPasses (fun u => (twoPassRun bramA u).gatherC) (fun p => 100 * p + 1) 2 := by
  have hrun : Clocked.IsRun (step shipped bramA) twoPasses (twoPassRun bramA) := Clocked.isRun_run _ _ _
  refine GatherC.schedule_periodic (n := 2) shipped_fits (fun p hp => ?_) (fun u => ?_) (control_run hrun) rfl
  · obtain rfl : p = 0 := by omega
    decide
  · rw [twoPasses, Bool.or_eq_true, decide_eq_true_eq, decide_eq_true_eq]
    constructor
    · rintro (rfl | rfl)
      · exact ⟨0, by decide, rfl⟩
      · exact ⟨1, by decide, rfl⟩
    · rintro ⟨p, hp, rfl⟩
      omega

theorem aligned_twoPasses : Aligned shipped (fun a => BitVec.ofNat 8 a)
    (twoPassRun fun a => BitVec.ofNat 8 a) (fun p => 100 * p + 1) 2 :=
  aligned_shipped (fun a => BitVec.ofNat 8 a) twoPasses (twoPassRun fun a => BitVec.ofNat 8 a)
    (fun p => 100 * p + 1) 2 (Clocked.isRun_run _ _ _) ⟨⟨rfl, rfl⟩, GatherC.quiet_ready, rfl⟩
    (schedule_twoPasses _)

end EmbeddedAccelerator.Streaming
