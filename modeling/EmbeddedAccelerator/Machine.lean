import EmbeddedAccelerator.Clocked.BlockRam
import EmbeddedAccelerator.MatrixMultiply

namespace EmbeddedAccelerator

open Clocked (Mem)

/-- `Matrix_Multiply` on its ports of the three memories. `Bram_A` and `Bram_B` are only written by
the host, so their contents are inputs; each read port has an output register. -/
structure Machine (P : Params) where
  mm : MatrixMultiply.State P
  bramRddataA : BitVec 128
  bramRddataB : BitVec 128
  bramC : Mem

namespace Machine

structure Input where
  rst : Bool
  start : Bool
  bramA : Mem
  bramB : Mem

variable {P : Params}

def ports (i : Input) (m : Machine P) : MatrixMultiply.Input :=
  ⟨i.rst, i.start, m.bramRddataA, m.bramRddataB⟩

def bramAddrA (m : Machine P) : ℕ := ScatterA.bramAddrA P m.mm.scatterA
def bramAddrB (m : Machine P) : ℕ := ScatterB.bramAddrB P m.mm.scatterB.main
def bramAddrC (m : Machine P) : ℕ := GatherC.bramAddrC P m.mm.gatherC.control
def bramWeC (m : Machine P) : Bool := GatherC.bramWeC m.mm.gatherC.control

def bramWrdataC (m : Machine P) : BitVec (16 * N) :=
  Clocked.pack (fun j => GatherC.bramWrdataC m.mm.gatherC (Fin.ofNat N j)) N

def finish (m : Machine P) : Bool := m.mm.computeControl.finish

def step (i : Input) (m : Machine P) : Machine P where
  mm := MatrixMultiply.step (m.ports i) m.mm
  bramRddataA := i.bramA.word m.bramAddrA N
  bramRddataB := i.bramB.word m.bramAddrB N
  bramC := if m.bramWeC then m.bramC.write m.bramAddrC (2 * N) m.bramWrdataC else m.bramC

theorem step_bramC (i : Input) (m : Machine P) :
    (step i m).bramC =
      if m.bramWeC then m.bramC.write m.bramAddrC (2 * N) m.bramWrdataC else m.bramC := rfl

def powerOn (P : Params) (bramC : Mem) : Machine P := ⟨MatrixMultiply.powerOn P, 0, 0, bramC⟩

end Machine

end EmbeddedAccelerator
