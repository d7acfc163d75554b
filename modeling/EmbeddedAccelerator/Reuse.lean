import EmbeddedAccelerator.Datapath.Progress
import EmbeddedAccelerator.Reset

namespace EmbeddedAccelerator

namespace MatrixMultiply

variable {P : Params}

/-- The registers that a later run can depend on: all but `buffer_B` and the weights. -/
structure Live (P : Params) where
  control : Control
  bIns : Fin N → BitVec 8
  buffer : Fin P.dataASizeY → Fin N → BitVec 16

def State.live (s : State P) : Live P := ⟨s.control, s.scatterB.bIns, s.gatherC.buffer⟩

theorem live_step (hle : P.dataASizeY ≤ P.dataASizeX) {i : Input} (hi : i.rst = false) {s : State P}
    {fin : Bool} (hs : s.control = idleAt P (aligned ⟨0, 0⟩) fin) (hstart : i.start = false) :
    (step i s).live = (rest P).live := by
  have hgather : s.gatherC.control = GatherC.ready ⟨0, 0⟩ := congrArg Control.gatherC hs
  have hmain : s.scatterB.main = ScatterB.quiet false := congrArg Control.scatterB hs
  have hcontrol : (step i s).control = (rest P).control := by
    rw [control_step, hs, hi, hstart, idleAt_step _ _ ⟨rfl, rfl⟩, control_rest]
    rfl
  have hbIns : (step i s).scatterB.bIns = (rest P).scatterB.bIns := by
    funext j
    simp [step, ScatterB.step, ScatterB.genLoad, hi, hmain, ScatterB.quiet, rest]
  have hbuffer : (step i s).gatherC.buffer = (rest P).gatherC.buffer := by
    rw [step, hi]
    exact gatherC_cleared hle _ _ (by rw [hgather]; rfl)
  simp only [State.live, hcontrol, hbIns, hbuffer]

end MatrixMultiply

namespace Machine

open Clocked (Mem)
open MatrixMultiply (Control rest passAt idleAt aligned passTime runTime)

variable {P : Params}

/-- The live registers are as in the idle state. -/
def Rests (m : Machine P) : Prop := m.mm.live = (rest P).live

/-- One use of the machine: operands, a time in which they are written, and a start pulse of one
or two cycles. -/
structure Job where
  idle : ℕ
  longPulse : Bool
  bramA : Mem
  bramB : Mem

def Job.inputs (j : Job) (t : ℕ) : Input :=
  ⟨false, t = j.idle || (j.longPulse && t = j.idle + 1), j.bramA, j.bramB⟩

/-- The cycles from a start pulse back to the idle state. -/
def cycles (P : Params) : ℕ := runTime P + 2

/-- The machine when the job has been done. -/
def perform (m : Machine P) (j : Job) : Machine P := Clocked.run step m j.inputs (j.idle + cycles P)

theorem Rests.control {m : Machine P} (h : Rests m) :
    m.mm.control = idleAt P (aligned ⟨0, 0⟩) false := congrArg MatrixMultiply.Live.control h

theorem computeControl_of_control {m : Machine P} {x : MatrixMultiply.Pass} {fin : Bool}
    (h : m.mm.control = idleAt P x fin) : m.mm.computeControl = ComputeControl.idleAt fin :=
  congrArg Control.computeControl h

theorem finish_of_control {m : Machine P} {x : MatrixMultiply.Pass} {fin : Bool}
    (h : m.mm.control = idleAt P x fin) : m.finish = fin := by
  rw [finish, computeControl_of_control h]
  rfl

section Job

variable (hP : P.Fits) (hsq : P.Square) {j : Job} {m : ℕ → Machine P} (h : Run j.inputs m)
  (h0 : Rests (m 0))
include hsq h h0

theorem rests_before {t : ℕ} (ht : t ≤ j.idle) : Rests (m t) := by
  induction t with
  | zero => exact h0
  | succ t ih =>
    have hstart : (j.inputs t).start = false := by
      simp only [Job.inputs, decide_eq_false (by omega : ¬ t = j.idle),
        decide_eq_false (by omega : ¬ t = j.idle + 1), Bool.and_false, Bool.or_false]
    rw [Rests, h.isRun]
    exact MatrixMultiply.live_step hsq.1.le rfl (ih (by omega)).control hstart

theorem control_pulsed : (m (j.idle + 1)).mm.control = passAt P (aligned ⟨0, 0⟩) false 0 := by
  have hstart : (j.inputs j.idle).start = true := by simp [Job.inputs]
  rw [h.isRun, step, MatrixMultiply.control_step, (rests_before hsq h h0 le_rfl).control, ports, hstart]
  exact MatrixMultiply.idleAt_step true _ ⟨rfl, rfl⟩ false

include hP

theorem control_finished :
    (m (j.idle + 1 + runTime P)).mm.control = idleAt P (aligned ⟨0, 0⟩) true :=
  MatrixMultiply.timeline_finish hP hsq h.mm.control (control_pulsed hsq h h0)

theorem rests_after : Rests (m (j.idle + cycles P)) := by
  have hpos : 0 < runTime P := MatrixMultiply.runTime_pos hP
  have hstart : (j.inputs (j.idle + 1 + runTime P)).start = false := by
    simp only [Job.inputs, decide_eq_false (by omega : ¬ j.idle + 1 + runTime P = j.idle),
      decide_eq_false (by omega : ¬ j.idle + 1 + runTime P = j.idle + 1), Bool.and_false, Bool.or_false]
  rw [Rests, show j.idle + cycles P = j.idle + 1 + runTime P + 1 by rw [cycles]; omega, h.isRun]
  exact MatrixMultiply.live_step hsq.1.le rfl (control_finished hP hsq h h0) hstart

theorem busy {u : ℕ} (hu : u < runTime P) :
    (m (j.idle + 1 + u)).mm.computeControl.state ≠ .idle ∧ (m (j.idle + 1 + u)).finish = false :=
  MatrixMultiply.timeline_busy hP hsq h.mm.control (control_pulsed hsq h h0) hu

theorem half_bramC_cycles {r c : ℕ} (hr : r < P.dataASizeY) (hc : c < P.dataBSizeX) :
    (m (j.idle + cycles P)).bramC.half (r * P.dataBSizeX + c) =
      partialProduct P j.bramA j.bramB P.dataBSizeY r (mirrored c) := by
  have hw : (m (j.idle + 1 + runTime P)).bramWeC = false := by
    have hg : (m (j.idle + 1 + runTime P)).mm.gatherC.control = _ :=
      congrArg Control.gatherC (control_finished hP hsq h h0)
    rw [bramWeC, hg]
    rfl
  have ho : Operands j.inputs j.bramA j.bramB (j.idle + 1 + runTime P) := ⟨fun _ _ => rfl, fun _ _ => rfl⟩
  rw [show j.idle + cycles P = j.idle + 1 + runTime P + 1 by rw [cycles]; omega, h.isRun, step_bramC, hw]
  exact half_bramC_runTime hP hsq h (control_pulsed hsq h h0) ho hr hc

end Job

theorem run_job (m : Machine P) (j : Job) : Run j.inputs (Clocked.run step m j.inputs) :=
  ⟨Clocked.isRun_run _ _ _, fun _ => rfl⟩

theorem rests_foldl_perform (hP : P.Fits) (hsq : P.Square) (jobs : List Job) {m : Machine P}
    (h : Rests m) : Rests (jobs.foldl perform m) := by
  induction jobs generalizing m with
  | nil => exact h
  | cons j jobs ih => exact ih (rests_after hP hsq (run_job m j) h)

/-- The machine after a power-on, a reset and an idle time. -/
def afterReset (A B bramC : Mem) (r i : ℕ) : Machine shipped :=
  Clocked.run step (powerOn shipped bramC) (resetInputs A B r i) (r + 2 + i)

theorem rests_afterReset (A B bramC : Mem) (r i : ℕ) : Rests (afterReset A B bramC r i) := by
  have h : Clocked.IsRun step (resetInputs A B r i)
    (Clocked.run step (powerOn shipped bramC) (resetInputs A B r i)) := Clocked.isRun_run _ _ _
  rw [Rests, afterReset, mm_rest shipped_square.1.le h (MatrixMultiply.released_powerOn _) le_rfl]

theorem bramC_cycles_eq (j : Job) {m m' : Machine shipped} (h : Rests m) (h' : Rests m') {a : ℕ}
    (ha : a < 8192) : (perform m j).bramC a = (perform m' j).bramC a := by
  have hsplit : a / 2 = a / 2 / 64 * shipped.dataBSizeX + a / 2 % 64 := by
    show a / 2 = a / 2 / 64 * 64 + a / 2 % 64
    omega
  have hr : a / 2 / 64 < shipped.dataASizeY := by
    show a / 2 / 64 < 64
    omega
  have hc : a / 2 % 64 < shipped.dataBSizeX := Nat.mod_lt _ (by decide)
  apply Clocked.Mem.eq_of_half_eq
  rw [hsplit, perform, perform, half_bramC_cycles shipped_fits shipped_square (run_job m j) h hr hc,
    half_bramC_cycles shipped_fits shipped_square (run_job m' j) h' hr hc]

/-- Whatever jobs were done before, a job takes the same number of cycles, raises `Finish` once,
leaves the live registers as they are after a reset, and the product as in a first run. -/
theorem jobs_leave_nothing_behind (A B bramC : Mem) (r i : ℕ) (jobs : List Job) (j : Job) :
    let s := Clocked.run step (jobs.foldl perform (afterReset A B bramC r i)) j.inputs
    let K := cycles shipped
    Rests (s j.idle) ∧ (∀ u, 0 < u → u < K → ¬ Rests (s (j.idle + u))) ∧ Rests (s (j.idle + K)) ∧
      (∃! u, u ≤ K ∧ (s (j.idle + u)).finish = true) ∧
      ∀ (A' B' bramC' : Mem) (r' i' : ℕ), ∀ a < 8192,
        (s (j.idle + K)).bramC a = (perform (afterReset A' B' bramC' r' i') j).bramC a := by
  intro s K
  have hm : Rests (jobs.foldl perform (afterReset A B bramC r i)) :=
    rests_foldl_perform shipped_fits shipped_square jobs (rests_afterReset A B bramC r i)
  have hrun : Run j.inputs s := run_job _ j
  have hbusy {u : ℕ} (hu : u < runTime shipped) := busy shipped_fits shipped_square hrun hm hu
  have hfin := finish_of_control (control_finished shipped_fits shipped_square hrun hm)
  have hrests := rests_after shipped_fits shipped_square hrun hm
  have hlow {m : Machine shipped} (h : Rests m) : m.finish = false := finish_of_control h.control
  have hbefore := rests_before shipped_square hrun hm le_rfl
  refine ⟨hbefore, fun u h0 hu hr => ?_, hrests, ?_, fun A' B' bramC' r' i' a ha => ?_⟩
  · obtain hu | rfl : u < runTime shipped + 1 ∨ u = runTime shipped + 1 := by
      simp only [K, cycles] at hu
      omega
    · refine (hbusy (u := u - 1) (by omega)).1 ?_
      rw [show j.idle + 1 + (u - 1) = j.idle + u by omega]
      rw [computeControl_of_control hr.control]
      rfl
    · rw [show j.idle + 1 + runTime shipped = j.idle + (runTime shipped + 1) by omega, hlow hr] at hfin
      cases hfin
  · refine ⟨runTime shipped + 1, ⟨by simp only [K, cycles]; omega, ?_⟩, fun u ⟨hu, hhigh⟩ => ?_⟩
    · rw [show j.idle + 1 + runTime shipped = j.idle + (runTime shipped + 1) by omega] at hfin
      exact hfin
    · by_contra hne
      obtain rfl | hlt | rfl : u = 0 ∨ (0 < u ∧ u < runTime shipped + 1) ∨ u = K := by
        simp only [K, cycles] at hu ⊢
        omega
      · rw [Nat.add_zero, hlow hbefore] at hhigh
        cases hhigh
      · have h1 := (hbusy (u := u - 1) (by omega)).2
        rw [show j.idle + 1 + (u - 1) = j.idle + u by omega, hhigh] at h1
        cases h1
      · rw [hlow hrests] at hhigh
        cases hhigh
  · have hb := bramC_cycles_eq j hm (rests_afterReset A' B' bramC' r' i') ha
    rw [perform] at hb
    exact hb

end Machine

end EmbeddedAccelerator
