import Mathlib.Data.Nat.Count
import EmbeddedAccelerator.Clocked.Pulses
import EmbeddedAccelerator.Schedule.Located

/-!
The passes of one run for matrices of any sizes: each of the four controllers counts on its own, and
`compute_control` decides which pass is the last.
-/

namespace EmbeddedAccelerator.MatrixMultiply

/-- Pass `p` of a run. -/
def nthPass (P : Params) : ℕ → Pass
  | 0 => Pass.start
  | p + 1 => (nthPass P p).next P

/-- The cycles before pass `p`. -/
def nthBegin (P : Params) : ℕ → ℕ
  | 0 => 0
  | p + 1 => nthBegin P p + ((nthPass P p).endTime P + 1)

/-- No pass before `p` is the last one. -/
def GoesOn (P : Params) (p : ℕ) : Prop := ∀ q < p, ¬ (nthPass P q).IsLast P

variable {P : Params}

theorem nthPass_valid (hP : P.Fits) (p : ℕ) : (nthPass P p).Valid P := by
  induction p with
  | zero => exact Pass.start_valid hP
  | succ p ih => exact Pass.next_valid ih

theorem GoesOn.mono {p q : ℕ} (h : GoesOn P q) (hpq : p ≤ q) : GoesOn P p :=
  fun r hr => h r (by omega)

theorem exists_nthPass {q u : ℕ} (hu : u < nthBegin P q) :
    ∃ p < q, ∃ v ≤ (nthPass P p).endTime P, u = nthBegin P p + v := by
  induction q with
  | zero => exact absurd hu (Nat.not_lt_zero u)
  | succ q ih =>
    by_cases h : u < nthBegin P q
    · obtain ⟨p, hp, hv⟩ := ih h
      exact ⟨p, by omega, hv⟩
    · rw [nthBegin] at hu
      exact ⟨q, by omega, u - nthBegin P q, by omega, by omega⟩

theorem le_nthBegin (p : ℕ) : p ≤ nthBegin P p := by
  induction p with
  | zero => exact Nat.zero_le _
  | succ p ih =>
    rw [nthBegin]
    omega

section Run

variable {c : ℕ → Control} {start : ℕ → Bool} (hP : P.Fits) (hc : ControlRun P start c) {T p : ℕ}
  {fin : Bool} (hT : c T = passAt P Pass.start fin 0) (hg : GoesOn P p)
include hP hc hT hg

theorem run_pass : c (T + nthBegin P p) = passAt P (nthPass P p) (fin && p = 0) 0 := by
  induction p with
  | zero => simpa [nthBegin, nthPass] using hT
  | succ p ih =>
    have hn := pass_next hP hc (nthPass_valid hP p) (ih (hg.mono (by omega)))
    rw [if_neg (hg p (by omega)), Nat.add_assoc] at hn
    simpa [nthBegin, nthPass] using hn

theorem run_within {u : ℕ} (hu : u ≤ (nthPass P p).endTime P) :
    c (T + nthBegin P p + u) = passAt P (nthPass P p) (fin && p = 0) u :=
  pass_schedule hP hc (nthPass_valid hP p) (run_pass hP hc hT hg) u hu

theorem run_finish (hl : (nthPass P p).IsLast P) :
    c (T + nthBegin P (p + 1)) = idleAt P (nthPass P (p + 1)) true := by
  have hn := pass_next hP hc (nthPass_valid hP p) (run_pass hP hc hT hg)
  rw [if_pos hl, Nat.add_assoc] at hn
  exact hn

end Run

/-- The `start_cal` pulses and the `load_done` pulses before cycle `t`. -/
def startCals (c : ℕ → Control) (t : ℕ) : ℕ :=
  Nat.count (fun u => (c u).computeControl.startCal = true) t

def loadDones (c : ℕ → Control) (t : ℕ) : ℕ := Nat.count (fun u => (c u).scatterB.loadDone = true) t

section Count

variable {c : ℕ → Control} {start : ℕ → Bool} (hP : P.Fits) (hc : ControlRun P start c) {T p : ℕ}
  (hT : c T = passAt P Pass.start false 0) (hg : GoesOn P p)
include hP hc hT hg

theorem run_low {u : ℕ} (hu : u ≤ (nthPass P p).endTime P) :
    c (T + nthBegin P p + u) = passAt P (nthPass P p) false u := by
  rw [run_within hP hc hT hg hu, Bool.false_and]

theorem startCal_run {u : ℕ} (hu : u < (nthPass P p).endTime P + 1) :
    (c (T + nthBegin P p + u)).computeControl.startCal = true ↔ u = (nthPass P p).startTime := by
  rw [run_low hP hc hT hg (by omega), passAt_startCal, decide_eq_true_eq]

theorem loadDone_run {u : ℕ} (hu : u < (nthPass P p).endTime P + 1) :
    (c (T + nthBegin P p + u)).scatterB.loadDone = true ↔ u = (nthPass P p).startTime - 1 := by
  have hs := (nthPass P p).startTime_pos
  rw [run_low hP hc hT hg (by omega), passAt_loadDone, decide_eq_true_eq]
  omega

theorem startCals_begin (h0 : startCals c T = 0) : startCals c (T + nthBegin P p) = p := by
  induction p with
  | zero => exact h0
  | succ p ih =>
    have hg' := hg.mono (p := p) (by omega)
    have hend : (nthPass P p).startTime ≤ (nthPass P p).endTime P := Nat.le_add_right _ _
    rw [nthBegin, ← Nat.add_assoc, startCals, Clocked.count_pulse
      (fun u hu => startCal_run hP hc hT hg' hu) le_rfl, if_pos (by omega)]
    exact congrArg (· + 1) (ih hg')

theorem loadDones_begin (h0 : loadDones c T = 0) : loadDones c (T + nthBegin P p) = p := by
  induction p with
  | zero => exact h0
  | succ p ih =>
    have hg' := hg.mono (p := p) (by omega)
    have hend : (nthPass P p).startTime ≤ (nthPass P p).endTime P := Nat.le_add_right _ _
    rw [nthBegin, ← Nat.add_assoc, loadDones, Clocked.count_pulse
      (fun u hu => loadDone_run hP hc hT hg' hu) le_rfl, if_pos (by omega)]
    exact congrArg (· + 1) (ih hg')

theorem startCals_within (h0 : startCals c T = 0) {u : ℕ} (hu : u ≤ (nthPass P p).endTime P + 1) :
    startCals c (T + nthBegin P p + u) = p + if (nthPass P p).startTime < u then 1 else 0 := by
  rw [startCals, Clocked.count_pulse (fun u hu => startCal_run hP hc hT hg hu) hu]
  exact congrArg (· + _) (startCals_begin hP hc hT hg h0)

theorem loadDones_within (h0 : loadDones c T = 0) {u : ℕ} (hu : u ≤ (nthPass P p).endTime P + 1) :
    loadDones c (T + nthBegin P p + u) = p + if (nthPass P p).startTime ≤ u then 1 else 0 := by
  have hs := (nthPass P p).startTime_pos
  rw [loadDones, Clocked.count_pulse (fun u hu => loadDone_run hP hc hT hg hu) hu,
    if_congr (by omega : (nthPass P p).startTime - 1 < u ↔ (nthPass P p).startTime ≤ u) rfl rfl]
  exact congrArg (· + _) (loadDones_begin hP hc hT hg h0)

omit hg in
theorem finish_low {q : ℕ} (hg : GoesOn P q) {u : ℕ} (hu : u < nthBegin P (q + 1)) :
    (c (T + u)).computeControl.finish = false := by
  obtain ⟨p, hp, v, hv, rfl⟩ := exists_nthPass hu
  rw [← Nat.add_assoc, run_low hP hc hT (hg.mono (by omega)) hv]
  simp only [passAt, ComputeControl.passAt]
  split_ifs <;> rfl

end Count

end EmbeddedAccelerator.MatrixMultiply
