import EmbeddedAccelerator.ComputeControl
import EmbeddedAccelerator.GatherC
import EmbeddedAccelerator.PEArray
import EmbeddedAccelerator.ScatterA
import EmbeddedAccelerator.ScatterB

namespace EmbeddedAccelerator.MatrixMultiply

variable {P : Params}

/-- The registers that decide what every controller does next. -/
structure Control where
  scatterA : ScatterA.State
  scatterB : ScatterB.Main
  gatherC : GatherC.Control
  computeControl : ComputeControl.State
  deriving DecidableEq, Repr

structure State (P : Params) where
  scatterA : ScatterA.State
  scatterB : ScatterB.State 8
  gatherC : GatherC.State P 8
  peArray : PEArray.Weights 8
  computeControl : ComputeControl.State

/-- `bram_rddata_c` is an input of the module that nothing reads. -/
structure Input where
  rst : Bool
  start : Bool
  bramRddataA : BitVec 128
  bramRddataB : BitVec 128

def cOuts (i : Input) (s : State P) : Fin N → BitVec 16 :=
  PEArray.cOut s.peArray (ScatterA.aIn s.scatterA i.bramRddataA)

def step (i : Input) (s : State P) : State P where
  scatterA := ScatterA.step P i.rst s.computeControl.startCal s.scatterA
  scatterB := ScatterB.step P i.rst s.computeControl.bLoad i.bramRddataB s.scatterB
  gatherC := GatherC.step i.rst s.computeControl.startCal (cOuts i s) s.gatherC
  peArray := PEArray.step i.rst s.scatterB.main.stationaryCtrl s.scatterB.bIns s.peArray
  computeControl := ComputeControl.step P i.rst i.start s.scatterB.main.loadDone
    (GatherC.gatherDone s.gatherC.control) s.computeControl

def State.control (s : State P) : Control :=
  ⟨s.scatterA, s.scatterB.main, s.gatherC.control, s.computeControl⟩

def controlStep (P : Params) (rst start : Bool) (s : Control) : Control where
  scatterA := ScatterA.step P rst s.computeControl.startCal s.scatterA
  scatterB := ScatterB.mainProcess P rst s.computeControl.bLoad s.scatterB
  gatherC := GatherC.controlStep P rst s.computeControl.startCal s.gatherC
  computeControl := ComputeControl.step P rst start s.scatterB.loadDone
    (GatherC.gatherDone s.gatherC) s.computeControl

theorem control_step (i : Input) (s : State P) :
    (step i s).control = controlStep P i.rst i.start s.control := rfl

def powerOn (P : Params) : State P where
  scatterA := ⟨.idle, 0, 0, false, false⟩
  scatterB := ⟨⟨.idle, 0, 0, 0, 0, false, false, false, false⟩, fun _ _ => 0, fun _ => 0⟩
  gatherC := ⟨⟨⟨0, .idle, false⟩, ⟨.idle, false, 0, 0, 0, false⟩⟩, fun _ _ => 0⟩
  peArray := fun _ _ => 0
  computeControl := ⟨.idle, false, false, false, 0, 0⟩

end EmbeddedAccelerator.MatrixMultiply
