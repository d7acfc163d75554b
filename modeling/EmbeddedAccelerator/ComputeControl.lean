import EmbeddedAccelerator.Params

namespace EmbeddedAccelerator.ComputeControl

inductive Mode where
  | idle | preparing | computing | waiting
  deriving DecidableEq, Repr

structure State where
  state : Mode
  startCal : Bool
  bLoad : Bool
  finish : Bool
  rowCnt : ℕ
  colCnt : ℕ
  deriving DecidableEq, Repr

def rowCount (P : Params) : ℕ := P.dataASizeY / N
def colCount (P : Params) : ℕ := P.dataBSizeX / N

/-- `A_col_cal_done` is an input of the module that its process never reads. -/
def step (P : Params) (rst start bLoadDone cGatherDone : Bool) (s : State) : State :=
  if rst then ⟨.idle, false, false, false, 0, 0⟩
  else match s.state with
  | .idle =>
    if start then { s with state := .preparing, bLoad := true }
    else { s with bLoad := false, startCal := false, finish := false }
  | .preparing =>
    if bLoadDone then { s with state := .computing, startCal := true, bLoad := false }
    else { s with startCal := false, bLoad := false }
  | .computing =>
    if cGatherDone then
      if s.rowCnt = rowCount P - 1 then
        if s.colCnt = colCount P - 1 then
          { s with rowCnt := 0, colCnt := 0, finish := true, state := .idle }
        else
          { s with
            rowCnt := 0, finish := false, colCnt := (s.colCnt + 1) % 2 ^ (P.dataBSizeX / N)
            state := .preparing, bLoad := true }
      else
        { s with
          rowCnt := (s.rowCnt + 1) % 2 ^ (P.dataBSizeY / N), finish := false
          state := .preparing, bLoad := true }
    else { s with finish := false, startCal := false }
  | .waiting => { s with state := .idle, finish := false, startCal := false, bLoad := false }

end EmbeddedAccelerator.ComputeControl
