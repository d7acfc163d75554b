import EmbeddedAccelerator.Clocked.Words
import EmbeddedAccelerator.Params

namespace EmbeddedAccelerator.ScatterA

inductive Mode where
  | idle | calculate | waiting | done
  deriving DecidableEq, Repr

structure State where
  state : Mode
  colCnt : ℕ
  inBlockCnt : ℕ
  outputEnable : Bool
  colCalDone : Bool
  deriving DecidableEq, Repr

def colCount (P : Params) : ℕ := P.dataASizeX / N

def bramAddrPointer (P : Params) (s : State) : ℕ :=
  (s.inBlockCnt * P.dataASizeX + s.colCnt * N) % 2 ^ 13

def bramAddrA (P : Params) (s : State) : ℕ := bramAddrPointer P s / 2 ^ 4

def step (P : Params) (rst startCal : Bool) (s : State) : State :=
  if rst then { s with colCnt := 0, state := .idle }
  else match s.state with
  | .idle =>
    if startCal then { s with state := .calculate, inBlockCnt := 0 }
    else { s with outputEnable := false, colCalDone := false, state := .idle, inBlockCnt := 0 }
  | .calculate =>
    if s.inBlockCnt = P.dataASizeY - 1 then
      if s.colCnt = colCount P - 1 then { s with colCnt := 0, colCalDone := true, state := .idle }
      else
        { s with
          inBlockCnt := 0, colCnt := (s.colCnt + 1) % 2 ^ (P.dataASizeX / N), state := .waiting }
    else { s with outputEnable := true, inBlockCnt := (s.inBlockCnt + 1) % 2 ^ N }
  | .waiting =>
    if startCal then { s with state := .calculate }
    else { s with outputEnable := false, state := .waiting }
  | .done => s

def aIn {W n : ℕ} (s : State) (bramRddataA : BitVec n) (j : Fin N) : BitVec W :=
  if s.outputEnable then Clocked.lane W bramRddataA j else 0

end EmbeddedAccelerator.ScatterA
