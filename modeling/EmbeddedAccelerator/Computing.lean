import EmbeddedAccelerator.Coprocessor
import EmbeddedAccelerator.Device

namespace EmbeddedAccelerator

namespace Machine

open Clocked (Mem)
open MatrixMultiply (rest runTime)

variable {P : Params} (hP : P.Fits) (hsq : P.Square) {j : Job} {m : ℕ → Machine P} (h : Run j.inputs m)
  (h0 : Rests (m 0))
include hP hsq h h0

theorem rests_later {u : ℕ} (hu : j.idle + cycles P ≤ u) :
    Rests (m u) ∧ (m u).bramC = (m (j.idle + cycles P)).bramC := by
  induction u, hu using Nat.le_induction with
  | base => exact ⟨rests_after hP hsq h h0, rfl⟩
  | succ u hu ih =>
    have hpos : 0 < runTime P := MatrixMultiply.runTime_pos hP
    have hstart : (j.inputs u).start = false := by
      rw [cycles] at hu
      simp only [Job.inputs, decide_eq_false (by omega : ¬ u = j.idle),
        decide_eq_false (by omega : ¬ u = j.idle + 1), Bool.and_false, Bool.or_false]
    have hwe : (m u).bramWeC = false := by
      have hg : (m u).mm.gatherC.control = _ := congrArg MatrixMultiply.Control.gatherC ih.1.control
      rw [bramWeC, hg]
      rfl
    rw [h.isRun]
    refine ⟨MatrixMultiply.live_step hsq.1.le rfl ih.1.control hstart, ?_⟩
    rw [step_bramC, hwe]
    exact ih.2

theorem finish_job_iff {u : ℕ} (hu : j.idle ≤ u) :
    (m u).finish = true ↔ u + 1 = j.idle + cycles P := by
  constructor
  · intro hf
    by_contra hne
    obtain rfl | ⟨v, hv, rfl⟩ | hlater :
        u = j.idle ∨ (∃ v < runTime P, u = j.idle + 1 + v) ∨ j.idle + cycles P ≤ u := by
      rw [cycles] at *
      by_cases h1 : u = j.idle
      · exact .inl h1
      by_cases h2 : u < j.idle + 1 + runTime P
      · exact .inr (.inl ⟨u - (j.idle + 1), by omega, by omega⟩)
      · exact .inr (.inr (by omega))
    · rw [finish_of_control (rests_before hsq h h0 le_rfl).control] at hf
      cases hf
    · rw [(busy hP hsq h h0 hv).2] at hf
      cases hf
    · rw [finish_of_control (rests_later hP hsq h h0 hlater).1.control] at hf
      cases hf
  · intro hu
    obtain rfl : u = j.idle + 1 + runTime P := by
      rw [cycles] at hu
      omega
    exact finish_of_control (control_finished hP hsq h h0)

end Machine

namespace Device

open Clocked (Mem)
open Machine (Rests Job cycles)
open UsrLogic (Phase phase)
open UsrControl (Triggers Reports)
open XdmaApp (Region)

/-- From cycle `t₀` to cycle `t` the device is about one product: its start pulse begins in `t₀`, the
host has not read of its end, and has written to no memory. -/
structure Computing {P : Params} (mems : Memories) (inputs : ℕ → Input) (s : ℕ → State P) (t₀ t : ℕ) :
    Prop where
  le : t₀ ≤ t
  triggered : phase (logic s) t₀ = .triggered
  rests : Rests (machine (s t₀))
  unread : ∀ u, t₀ < u → u ≤ t → phase (logic s) u ≠ .ready
  unwritten : ∀ u, t₀ ≤ u → u < t → Unwritten mems (inputs u) (s u)

variable {mems : Memories} {inputs : ℕ → Input} {s : ℕ → State shipped} {t₀ t : ℕ}

/-- The product that is computed. -/
def jobAt (s : ℕ → State shipped) (t₀ : ℕ) : Job :=
  ⟨0, true, (s t₀).brams.bramA.mem, (s t₀).brams.bramB.mem⟩

def jobRun (s : ℕ → State shipped) (t₀ : ℕ) : ℕ → Machine shipped :=
  Clocked.run Machine.step (machine (s t₀)) (jobAt s t₀).inputs

namespace Computing

variable (h : Run mems inputs s) (hc : Computing mems inputs s t₀ t)
include hc

theorem extend (hu : Unwritten mems (inputs t) (s t)) (hp : phase (logic s) (t + 1) ≠ .ready) :
    Computing mems inputs s t₀ (t + 1) where
  le := hc.le.trans (Nat.le_succ t)
  triggered := hc.triggered
  rests := hc.rests
  unread u hu0 hut := by
    obtain hlt | rfl := Nat.lt_or_eq_of_le hut
    · exact hc.unread u hu0 (Nat.le_of_lt_succ hlt)
    · exact hp
  unwritten u hu0 hut := by
    obtain hlt | rfl := Nat.lt_or_eq_of_le (Nat.le_of_lt_succ hut)
    · exact hc.unwritten u hu0 hlt
    · exact hu

theorem extendTo {m : ℕ} (hm : t ≤ m) (hu : ∀ u, t ≤ u → u < m → Unwritten mems (inputs u) (s u))
    (hp : ∀ u, t < u → u ≤ m → phase (logic s) u ≠ .ready) : Computing mems inputs s t₀ m := by
  induction m, hm using Nat.le_induction with
  | base => exact hc
  | succ m hm ih =>
    exact (ih (fun u h1 h2 => hu u h1 (by omega)) fun u h1 h2 => hp u h1 (by omega)).extend (hu m hm (by omega))
      (hp (m + 1) (by omega) le_rfl)

include h

theorem operand {r : Region} (hr : r ≠ .c) {u : ℕ} (hu : t₀ + u ≤ t) :
    (r.bram (s (t₀ + u)).brams).mem = (r.bram (s t₀).brams).mem := by
  induction u with
  | zero => rfl
  | succ u ih =>
    rw [← Nat.add_assoc, h.isRun, mem_step r fun h => absurd h hr, hc.unwritten _ (by omega) (by omega) r,
      ih (by omega)]

theorem pulse {u : ℕ} (hu : t₀ + u ≤ t) :
    (phase (logic s) (t₀ + u) = .triggered ↔ u = 0) ∧ (phase (logic s) (t₀ + u) = .acknowledged ↔ u = 1) := by
  induction u with
  | zero =>
    rw [Nat.add_zero, hc.triggered]
    decide
  | succ u ih =>
    obtain ⟨ih1, -⟩ := ih (by omega)
    rw [← Nat.add_assoc, h.usrLogic.phase_succ h.begins, Phase.next_eq_triggered, Phase.next_eq_acknowledged, ih1]
    constructor
    · constructor
      · rintro ⟨hr, -⟩
        by_cases h0 : u = 0
        · rw [ih1.mpr h0] at hr
          cases hr
        · exact absurd hr (hc.unread _ (by omega) (by omega))
      · intro hu
        cases hu
    · omega

theorem start_eq {u : ℕ} (hu : t₀ + u ≤ t) :
    (s (t₀ + u)).usrLogic.usrControl.start = ((jobAt s t₀).inputs u).start := by
  obtain ⟨h1, h2⟩ := hc.pulse h hu
  have hs := h.usrLogic.start_eq h.begins (t₀ + u)
  rw [show (s (t₀ + u)).usrLogic.usrControl.start = _ from hs]
  simp only [h1, h2, jobAt, Job.inputs, Bool.decide_or, Bool.true_and, Nat.zero_add]
  rfl

theorem machine_eq {u : ℕ} (hu : t₀ + u ≤ t) : machine (s (t₀ + u)) = jobRun s t₀ u := by
  induction u with
  | zero => rfl
  | succ u ih =>
    have hun := hc.unwritten (t₀ + u) (by omega) (by omega)
    have ha := hc.operand h (r := .a) (by decide) (u := u) (by omega)
    have hb := hc.operand h (r := .b) (by decide) (u := u) (by omega)
    have hin : machineInput mems (inputs (t₀ + u)) (s (t₀ + u)) = (jobAt s t₀).inputs u := by
      rw [machineInput_of_unwritten hun, h.noReset, hc.start_eq h (by omega),
        show (s (t₀ + u)).brams.bramA.mem = _ from ha, show (s (t₀ + u)).brams.bramB.mem = _ from hb]
      rfl
    rw [← Nat.add_assoc, h.isRun, machine_step hun, hin, ih (by omega)]
    rfl

omit h hc in
theorem run_jobRun : Machine.Run (jobAt s t₀).inputs (jobRun s t₀) := Machine.run_job _ _

theorem finishing_iff {u : ℕ} (hu : t₀ + u ≤ t) :
    phase (logic s) (t₀ + u) = .finishing ↔ u + 1 = cycles shipped := by
  have hf := h.usrLogic.finish_eq h.begins (t₀ + u)
  have hm : (machine (s (t₀ + u))).finish = decide (phase (logic s) (t₀ + u) = .finishing) := hf
  rw [hc.machine_eq h hu] at hm
  have hjob := Machine.finish_job_iff shipped_fits shipped_square run_jobRun hc.rests (u := u) (Nat.zero_le _)
  rw [hm, decide_eq_true_eq] at hjob
  rw [hjob]
  exact iff_of_eq (congrArg _ (Nat.zero_add _))

theorem done_iff {u : ℕ} (hu : t₀ + u ≤ t) :
    phase (logic s) (t₀ + u) = .done ↔ cycles shipped ≤ u := by
  induction u with
  | zero =>
    rw [Nat.add_zero, hc.triggered]
    decide
  | succ u ih =>
    have hr := hc.unread (t₀ + u + 1) (by omega) (by omega)
    have hnext := h.usrLogic.phase_succ h.begins (t₀ + u)
    rw [← Nat.add_assoc, hnext, Phase.next_eq_done, hc.finishing_iff h (by omega), ih (by omega)]
    constructor
    · rintro (hf | ⟨hd, -⟩) <;> omega
    · intro hd
      by_cases hf : u + 1 = cycles shipped
      · exact .inl hf
      · have hdone := (ih (by omega)).mpr (by omega)
        refine .inr ⟨by omega, fun hrep => hr ?_⟩
        rw [hnext, hdone]
        exact if_pos hrep

theorem rests_of_done (hd : phase (logic s) t = .done) : Rests (machine (s t)) := by
  obtain ⟨u, rfl⟩ : ∃ u, t = t₀ + u := ⟨t - t₀, by have hle := hc.le; omega⟩
  rw [hc.machine_eq h le_rfl]
  refine (Machine.rests_later shipped_fits shipped_square run_jobRun hc.rests ?_).1
  rw [show (jobAt s t₀).idle = 0 from rfl, Nat.zero_add]
  exact (hc.done_iff h le_rfl).mp hd

theorem product_of_done (hd : phase (logic s) t = .done) {a : ℕ} (ha : a < 8192) :
    (s t).brams.bramC.mem a =
      Coprocessor.product (s t₀).brams.bramA.mem (s t₀).brams.bramB.mem a := by
  obtain ⟨u, rfl⟩ : ∃ u, t = t₀ + u := ⟨t - t₀, by have hle := hc.le; omega⟩
  have hlater : (jobAt s t₀).idle + cycles shipped ≤ u := by
    rw [show (jobAt s t₀).idle = 0 from rfl, Nat.zero_add]
    exact (hc.done_iff h le_rfl).mp hd
  have hc' : (s (t₀ + u)).brams.bramC.mem = (jobRun s t₀ ((jobAt s t₀).idle + cycles shipped)).bramC := by
    rw [← (Machine.rests_later shipped_fits shipped_square run_jobRun hc.rests hlater).2, ← hc.machine_eq h le_rfl]
    rfl
  have hr : a / 2 / 64 < 64 := by omega
  have hsplit : a / 2 = a / 2 / 64 * 64 + a / 2 % 64 := by omega
  have hhalf := Machine.half_bramC_cycles shipped_fits shipped_square run_jobRun hc.rests
    (r := a / 2 / 64) (c := a / 2 % 64) hr (Nat.mod_lt _ (by decide))
  rw [hc']
  apply Mem.eq_of_half_eq
  rw [hsplit]
  exact hhalf.trans (Coprocessor.partialProduct_eq _ _ ⟨a / 2 / 64, hr⟩ ⟨a / 2 % 64, Nat.mod_lt _ (by decide)⟩)

end Computing

end Device

end EmbeddedAccelerator
