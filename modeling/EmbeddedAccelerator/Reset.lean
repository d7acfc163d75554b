import EmbeddedAccelerator.Clocked.Run
import EmbeddedAccelerator.Machine
import EmbeddedAccelerator.Schedule.Aligned

/-!
`rst` clears a part of the registers, and the idle cycle that follows it clears the others, except
`Final` of `scatter_b`. A `write_back` that is left over starts the write-back process instead.
-/

namespace EmbeddedAccelerator

namespace MatrixMultiply

variable {P : Params}

/-- The idle state. -/
def rest (P : Params) : State P where
  scatterA := ScatterA.ready 0
  scatterB := ⟨ScatterB.quiet false, fun _ _ => 0, fun _ => 0⟩
  gatherC := ⟨GatherC.ready ⟨0, 0⟩, fun _ _ => 0⟩
  peArray := fun _ _ => 0
  computeControl := ComputeControl.idleAt false

theorem control_rest : (rest P).control = idleAt P (aligned ⟨0, 0⟩) false := rfl

/-- The registers while `rst` is high. -/
def resetOf (s : State P) : State P where
  scatterA := { s.scatterA with colCnt := 0, state := .idle }
  scatterB :=
    ⟨{ s.scatterB.main with colCnt := 0, state := .idle, loadCnt := 0 }, fun _ _ => 0, fun _ => 0⟩
  gatherC :=
    ⟨⟨⟨0, .idle, true⟩, { s.gatherC.control.gather with
        state := .idle, recieveDone := false, inBlockCnt := 0, rowCnt := 0, colCnt := 0 }⟩,
      fun _ _ => 0⟩
  peArray := fun _ _ => 0
  computeControl := ⟨.idle, false, false, false, 0, 0⟩

theorem step_reset (hle : P.dataASizeY ≤ P.dataASizeX) {i : Input} (hi : i.rst = true) (s : State P) :
    step i s = resetOf s := by
  have hbuf : (GatherC.step true s.computeControl.startCal (cOuts i s) s.gatherC).buffer =
      fun _ _ => 0 := by
    funext m ji
    have hm : m.val < P.dataASizeX := by omega
    simp [GatherC.step, GatherC.genBlock1, hm]
  have hgather : GatherC.step true s.computeControl.startCal (cOuts i s) s.gatherC =
      (resetOf s).gatherC := congrArg₂ GatherC.State.mk rfl hbuf
  rw [step, hi, hgather]
  rfl

/-- What the first idle cycle makes of the registers that `rst` left. -/
def released (s : State P) : State P :=
  { rest P with
    scatterB := ⟨ScatterB.quiet s.scatterB.main.final, fun _ _ => 0, fun _ => 0⟩
    gatherC :=
      { (rest P).gatherC with
        control := ⟨if s.gatherC.control.gather.writeBack then ⟨0, .writing, false⟩ else ⟨0, .idle, true⟩,
          (GatherC.ready ⟨0, 0⟩).gather⟩ } }

theorem gatherC_cleared (hle : P.dataASizeY ≤ P.dataASizeX) (startCal : Bool)
    (cOuts : Fin N → BitVec 16) {s : GatherC.State P 8} (h : s.control.gather.state = .idle) :
    (GatherC.step false startCal cOuts s).buffer = fun _ _ => 0 := by
  funext m ji
  have hm : m.val < P.dataASizeX := by omega
  simp [GatherC.step, GatherC.genBlock1, h, hm]

theorem peArray_zero (stationaryCtrl : Bool) :
    PEArray.step false stationaryCtrl (fun _ => 0) (fun _ _ => 0 : PEArray.Weights 8) =
      fun _ _ => 0 := by
  funext i j
  cases stationaryCtrl <;> simp [PEArray.step, PE.next, PEArray.aIns]

theorem step_resetOf (hle : P.dataASizeY ≤ P.dataASizeX) {i : Input} (hi : i.rst = false)
    (hs : i.start = false) (s : State P) : step i (resetOf s) = released s := by
  have hcontrol : GatherC.controlStep P false false (resetOf s).gatherC.control =
      (released s).gatherC.control := rfl
  have hbuf := gatherC_cleared hle false (cOuts i (resetOf s)) (s := (resetOf s).gatherC) rfl
  have hgather : GatherC.step false false (cOuts i (resetOf s)) (resetOf s).gatherC =
      (released s).gatherC := congrArg₂ GatherC.State.mk hcontrol hbuf
  have hpe : PEArray.step false (resetOf s).scatterB.main.stationaryCtrl (resetOf s).scatterB.bIns
      (resetOf s).peArray = fun _ _ => 0 := peArray_zero _
  rw [step, hi, hs, show (resetOf s).computeControl.startCal = false from rfl, hgather, hpe]
  rfl

theorem step_rest (hle : P.dataASizeY ≤ P.dataASizeX) {i : Input} (hi : i.rst = false) :
    step i (rest P) =
      { rest P with
        computeControl := ComputeControl.step P false i.start false false (ComputeControl.idleAt false) } := by
  have hbuf := gatherC_cleared hle false (cOuts i (rest P)) (s := (rest P).gatherC) rfl
  have hgather : GatherC.step false false (cOuts i (rest P)) (rest P).gatherC = (rest P).gatherC :=
    congrArg₂ GatherC.State.mk rfl hbuf
  rw [step, hi, show (rest P).computeControl.startCal = false from rfl, hgather]
  rfl

theorem step_rest_idle (hle : P.dataASizeY ≤ P.dataASizeX) {i : Input} (hi : i.rst = false)
    (hs : i.start = false) : step i (rest P) = rest P := by
  rw [step_rest hle hi, hs]
  rfl

theorem released_eq_rest {s : State P} (hf : s.scatterB.main.final = false)
    (hw : s.gatherC.control.gather.writeBack = false) : released s = rest P := by
  rw [released, hf, hw]
  rfl

theorem released_powerOn (P : Params) : released (powerOn P) = rest P := released_eq_rest rfl rfl

end MatrixMultiply

namespace Machine

open Clocked (Mem)
open MatrixMultiply (rest resetOf released passAt aligned)

variable {P : Params}

/-- `r + 1` cycles of reset, `i + 1` idle cycles, and a start pulse. -/
def resetInputs (A B : Mem) (r i : ℕ) (t : ℕ) : Input := ⟨t ≤ r, t = r + i + 2, A, B⟩

section Reset

variable {A B : Mem} {r i : ℕ} {m : ℕ → Machine P} (hle : P.dataASizeY ≤ P.dataASizeX)
  (h : Clocked.IsRun step (resetInputs A B r i) m)
include hle h

theorem mm_reset {t : ℕ} (ht : t ≤ r) : (m (t + 1)).mm = resetOf (m 0).mm := by
  have hrst : (resetInputs A B r i t).rst = true := decide_eq_true ht
  induction t with
  | zero =>
    rw [h]
    exact MatrixMultiply.step_reset hle hrst _
  | succ t ih =>
    rw [h, step, ih (by omega) (decide_eq_true (by omega))]
    exact MatrixMultiply.step_reset hle hrst _

theorem mm_released : (m (r + 2)).mm = released (m 0).mm := by
  rw [h, step, mm_reset hle h le_rfl]
  exact MatrixMultiply.step_resetOf hle (decide_eq_false (by omega)) (decide_eq_false (by omega)) _

theorem mm_rest (hr : released (m 0).mm = rest P) {t : ℕ} (ht : t ≤ i) :
    (m (r + 2 + t)).mm = rest P := by
  induction t with
  | zero => rw [Nat.add_zero, mm_released hle h, hr]
  | succ t ih =>
    rw [← Nat.add_assoc, h, step, ih (by omega)]
    exact MatrixMultiply.step_rest_idle hle (decide_eq_false (by omega)) (decide_eq_false (by omega))

end Reset

end Machine

end EmbeddedAccelerator
