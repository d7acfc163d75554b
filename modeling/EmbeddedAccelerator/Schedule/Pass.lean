import EmbeddedAccelerator.MatrixMultiply
import EmbeddedAccelerator.Schedule.Accumulate
import EmbeddedAccelerator.Schedule.Load
import EmbeddedAccelerator.Schedule.Stream

/-!
A run is a sequence of passes. A pass begins in the cycle of a `B_load` pulse and ends with the
`gather_done` that the pulse leads to; in between the controllers only react to each other.
-/

namespace EmbeddedAccelerator

namespace ComputeControl

def idleAt (fin : Bool) : State := ⟨.idle, false, false, fin, 0, 0⟩

/-- `compute_control` in cycle `t` of a pass whose `start_cal` pulse is in cycle `startTime`. A
`Finish` that a start pulse caught high stays high until then. -/
def passAt (row col startTime : ℕ) (fin : Bool) (t : ℕ) : State :=
  if t = 0 then ⟨.preparing, false, true, fin, row, col⟩
  else if t < startTime then ⟨.preparing, false, false, fin, row, col⟩
  else if t = startTime then ⟨.computing, true, false, fin, row, col⟩
  else ⟨.computing, false, false, false, row, col⟩

variable (P : Params) (start : Bool) {row col startTime : ℕ} (fin : Bool)

theorem passAt_step (hs : 0 < startTime) (t : ℕ) :
    step P false start (t + 1 = startTime) false (passAt row col startTime fin t) =
      passAt row col startTime fin (t + 1) := by
  obtain rfl | h | rfl | h : t = 0 ∨ (0 < t ∧ t < startTime) ∨ t = startTime ∨ startTime < t := by omega
  · by_cases h : 0 + 1 = startTime
    · simp [step, passAt, ← h]
    · have h1 : 0 + 1 < startTime := by omega
      simp [step, passAt, h, h1]
  · by_cases h' : t + 1 = startTime
    · simp (disch := omega) only [passAt, if_pos, if_neg, step]
      simp [h']
    · simp (disch := omega) only [passAt, if_pos, if_neg, step]
      simp [h']
  · simp (disch := omega) only [passAt, if_neg, step]
    simp
  · simp (disch := omega) only [passAt, if_neg, step]
    simp

/-- The counters of the pass that follows. -/
def nextRow (row : ℕ) : ℕ := if row = rowCount P - 1 then 0 else (row + 1) % 2 ^ (P.dataBSizeY / N)

def nextCol (row col : ℕ) : ℕ :=
  if row = rowCount P - 1 then
    if col = colCount P - 1 then 0 else (col + 1) % 2 ^ (P.dataBSizeX / N)
  else col

theorem step_gatherDone {t : ℕ} (hs : 0 < startTime) (ht : startTime < t) :
    step P false start false true (passAt row col startTime fin t) =
      if row = rowCount P - 1 ∧ col = colCount P - 1 then idleAt true
      else passAt (nextRow P row) (nextCol P row col) (startTime + 1) false 0 := by
  simp (disch := omega) only [passAt, if_neg]
  by_cases h : row = rowCount P - 1 <;> by_cases h' : col = colCount P - 1 <;>
    simp [step, nextRow, nextCol, idleAt, h, h']

end ComputeControl

namespace MatrixMultiply

/-- Where each controller stands at the beginning of a pass. The four keep their own counters. -/
structure Pass where
  load : ScatterB.Load
  column : ℕ
  group : GatherC.Cursor
  row : ℕ
  col : ℕ
  deriving DecidableEq, Repr

namespace Pass

/-- The pass a run begins with when the machine has been reset. -/
def start : Pass := ⟨.cold false, 0, ⟨0, 0⟩, 0, 0⟩

def Valid (P : Params) (x : Pass) : Prop := x.column < ScatterA.colCount P ∧ x.group.Valid P

abbrev IsLast (P : Params) (x : Pass) : Prop :=
  x.row = ComputeControl.rowCount P - 1 ∧ x.col = ComputeControl.colCount P - 1

def next (P : Params) (x : Pass) : Pass :=
  ⟨x.load.next P, ScatterA.nextCol P x.column, x.group.advance P,
    ComputeControl.nextRow P x.row, ComputeControl.nextCol P x.row x.col⟩

/-- The cycle of the `start_cal` pulse. -/
def startTime (x : Pass) : ℕ := x.load.lead + (N + 2)

/-- The cycle of the `gather_done` pulse, the last one of the pass. -/
def endTime (P : Params) (x : Pass) : ℕ := x.startTime + GatherC.doneTime P x.group

theorem startTime_pos (x : Pass) : 0 < x.startTime := Nat.lt_of_lt_of_le (by decide) (Nat.le_add_left _ _)

theorem start_valid {P : Params} (hP : P.Fits) : start.Valid P := by
  have hax := Nat.div_pos hP.le_ax (by decide : 0 < N)
  have hbx := Nat.div_pos hP.le_bx (by decide : 0 < N)
  refine ⟨hax, ?_, hbx⟩
  show 0 < P.dataBSizeY / N
  rwa [hP.inner]

theorem next_valid {P : Params} {x : Pass} (hx : x.Valid P) : (x.next P).Valid P :=
  ⟨ScatterA.nextCol_lt hx.1, GatherC.Cursor.advance_valid hx.2⟩

end Pass

variable {P : Params}

def idleAt (P : Params) (x : Pass) (fin : Bool) : Control :=
  ⟨ScatterA.ready x.column, x.load.ready P, GatherC.ready x.group, ComputeControl.idleAt fin⟩

def passAt (P : Params) (x : Pass) (fin : Bool) (t : ℕ) : Control :=
  ⟨ScatterA.streamAt P x.column (t - x.startTime), x.load.state P t,
    GatherC.gatherAt P x.group (t - x.startTime),
    ComputeControl.passAt x.row x.col x.startTime fin t⟩

theorem idleAt_step (start : Bool) (x : Pass) (hx : x.row = 0 ∧ x.col = 0) (fin : Bool) :
    controlStep P false start (idleAt P x fin) =
      if start then passAt P x fin 0 else idleAt P x false := by
  obtain ⟨load, column, group, row, col⟩ := x
  obtain ⟨rfl, rfl⟩ := hx
  have hb : ScatterB.mainProcess P false false (load.ready P) = load.ready P := by
    cases load <;> rfl
  cases start <;>
    simp [controlStep, idleAt, passAt, ScatterA.step_ready, GatherC.step_ready, hb,
      ComputeControl.idleAt, ComputeControl.passAt, ComputeControl.step]

section Wires

variable (x : Pass) (fin : Bool) (t : ℕ)

theorem passAt_startCal :
    (passAt P x fin t).computeControl.startCal = decide (t = x.startTime) := by
  have hs := x.startTime_pos
  simp only [passAt, ComputeControl.passAt]
  split_ifs <;> simp <;> omega

theorem passAt_bLoad : (passAt P x fin t).computeControl.bLoad = decide (t = 0) := by
  simp only [passAt, ComputeControl.passAt]
  split_ifs <;> simp <;> omega

theorem passAt_loadDone : (passAt P x fin t).scatterB.loadDone = decide (t + 1 = x.startTime) := by
  have h : t = x.load.lead + (N + 1) ↔ t + 1 = x.startTime := by
    simp only [Pass.startTime]
    omega
  rw [passAt, ScatterB.Load.loadDone_state]
  exact decide_eq_decide.mpr h

theorem passAt_gatherDone :
    GatherC.gatherDone (passAt P x fin t).gatherC = decide (t = x.endTime P) := by
  have hd := GatherC.le_doneTime (P := P) (b := x.group)
  have h : t - x.startTime = GatherC.doneTime P x.group ↔ t = x.endTime P := by
    simp only [Pass.endTime]
    omega
  rw [passAt, GatherC.gatherDone_gatherAt]
  exact decide_eq_decide.mpr h

end Wires

theorem streamAt_passStep (hP : P.Fits) {x : Pass} (hx : x.Valid P) (t : ℕ) :
    ScatterA.step P false (t = x.startTime) (ScatterA.streamAt P x.column (t - x.startTime)) =
      ScatterA.streamAt P x.column (t + 1 - x.startTime) := by
  by_cases h : t < x.startTime
  · rw [decide_eq_false (by omega), Nat.sub_eq_zero_of_le (by omega), Nat.sub_eq_zero_of_le (by omega),
      ScatterA.streamAt_zero, ScatterA.step_ready]
    rfl
  · have hs : decide (t = x.startTime) = decide (t - x.startTime = 0) := decide_eq_decide.mpr (by omega)
    rw [hs, show t + 1 - x.startTime = t - x.startTime + 1 by omega]
    exact ScatterA.streamAt_step hP.one_lt_ay (Nat.lt_of_succ_lt hP.ay_lt) hx.1 _

theorem gatherAt_passStep (hP : P.Fits) {x : Pass} (hx : x.Valid P) (t : ℕ) :
    GatherC.controlStep P false (t = x.startTime) (GatherC.gatherAt P x.group (t - x.startTime)) =
      GatherC.gatherAt P x.group (t + 1 - x.startTime) := by
  by_cases h : t < x.startTime
  · rw [decide_eq_false (by omega), Nat.sub_eq_zero_of_le (by omega), Nat.sub_eq_zero_of_le (by omega),
      GatherC.gatherAt_zero, GatherC.step_ready]
    rfl
  · have hs : decide (t = x.startTime) = decide (t - x.startTime = 0) := decide_eq_decide.mpr (by omega)
    rw [hs, show t + 1 - x.startTime = t - x.startTime + 1 by omega]
    exact GatherC.gatherAt_step hP.ay_lt hP.ay_pos hx.2 _

theorem controlStep_passAt (hP : P.Fits) (start : Bool) {x : Pass} (hx : x.Valid P) (fin : Bool) (t : ℕ) :
    controlStep P false start (passAt P x fin t) =
      ⟨ScatterA.streamAt P x.column (t + 1 - x.startTime), x.load.state P (t + 1),
        GatherC.gatherAt P x.group (t + 1 - x.startTime),
        ComputeControl.step P false start (t + 1 = x.startTime) (t = x.endTime P)
          (ComputeControl.passAt x.row x.col x.startTime fin t)⟩ := by
  have hload := ScatterB.Load.state_step P x.load t
  rw [controlStep, passAt_startCal, passAt_bLoad, passAt_loadDone, passAt_gatherDone]
  simp only [passAt, streamAt_passStep hP hx, gatherAt_passStep hP hx, hload]

theorem passAt_step (hP : P.Fits) (start : Bool) {x : Pass} (hx : x.Valid P) (fin : Bool) {t : ℕ}
    (ht : t < x.endTime P) :
    controlStep P false start (passAt P x fin t) = passAt P x fin (t + 1) := by
  rw [controlStep_passAt hP start hx, decide_eq_false (by omega : ¬ t = x.endTime P),
    ComputeControl.passAt_step P start fin x.startTime_pos]
  rfl

theorem passAt_end (hP : P.Fits) (start : Bool) {x : Pass} (hx : x.Valid P) (fin : Bool) :
    controlStep P false start (passAt P x fin (x.endTime P)) =
      if x.IsLast P then idleAt P (x.next P) true else passAt P (x.next P) false 0 := by
  have hay := hP.le_ay
  have hd := GatherC.le_doneTime (P := P) (b := x.group)
  have hs : x.startTime = x.load.lead + (N + 2) := rfl
  have he : x.endTime P = x.startTime + GatherC.doneTime P x.group := rfl
  rw [controlStep_passAt hP start hx, ScatterA.streamAt_ready P _ (by omega),
    ScatterB.Load.state_ready P _ (by omega), GatherC.gatherAt_ready (by omega),
    decide_eq_false (by omega : ¬ x.endTime P + 1 = x.startTime), decide_eq_true rfl,
    ComputeControl.step_gatherDone P start fin (by omega) (by omega)]
  by_cases hl : x.row = ComputeControl.rowCount P - 1 ∧ x.col = ComputeControl.colCount P - 1
  · rw [if_pos hl, if_pos hl]
    rfl
  · rw [if_neg hl, if_neg hl]
    simp [passAt, Pass.next, ComputeControl.passAt]

end MatrixMultiply

end EmbeddedAccelerator
