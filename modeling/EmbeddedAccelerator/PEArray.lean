import Mathlib.Data.Fin.VecNotation
import EmbeddedAccelerator.Params

namespace EmbeddedAccelerator

variable {W : ℕ}

namespace PE

def next (rst stationaryCtrl : Bool) (aIn rAInput : BitVec W) : BitVec W :=
  if rst then 0 else if stationaryCtrl then aIn else rAInput

/-- Both operands are signed, so the product is formed on their sign extensions. -/
def cOut (aData bIn : BitVec W) : BitVec (2 * W) :=
  aData.signExtend (2 * W) * bIn.signExtend (2 * W)

end PE

namespace PEArray

/-- The stationary operand of every `PE`. -/
abbrev Weights (W : ℕ) := Fin N → Fin N → BitVec W

def aIns (aIn : Fin N → BitVec W) (r : Weights W) (m n : Fin N) : BitVec W :=
  if m.val = 0 then aIn n else r (m - 1) n

def step (rst stationaryCtrl : Bool) (aIn : Fin N → BitVec W) (r : Weights W) : Weights W :=
  fun i j => PE.next rst stationaryCtrl (aIns aIn r i j) (r i j)

def cOuts (r : Weights W) (bIn : Fin N → BitVec W) (i j : Fin N) : BitVec (2 * W) :=
  PE.cOut (r i j) (bIn j)

def adderTree {n : ℕ} (c : Fin N → BitVec n) : BitVec n :=
  let sumLevel1 : Fin 8 → BitVec n :=
    ![c 0 + c 1, c 2 + c 3, c 4 + c 5, c 6 + c 7, c 8 + c 9, c 10 + c 11, c 12 + c 13, c 14 + c 15]
  let sumLevel2 : Fin 4 → BitVec n :=
    ![sumLevel1 0 + sumLevel1 1, sumLevel1 2 + sumLevel1 3, sumLevel1 4 + sumLevel1 5,
      sumLevel1 6 + sumLevel1 7]
  let sumLevel3 : Fin 2 → BitVec n := ![sumLevel2 0 + sumLevel2 1, sumLevel2 2 + sumLevel2 3]
  sumLevel3 0 + sumLevel3 1

def cOut (r : Weights W) (bIn : Fin N → BitVec W) (j : Fin N) : BitVec (2 * W) :=
  adderTree (cOuts r bIn j)

end PEArray

end EmbeddedAccelerator
