import EmbeddedAccelerator.Clocked.Words
import EmbeddedAccelerator.Params

namespace EmbeddedAccelerator.ScatterB

inductive Mode where
  | idle | preparing | loading | waiting | done
  deriving DecidableEq, Repr

/-- The registers of the first `always` block. -/
structure Main where
  state : Mode
  rowCnt : ℕ
  colCnt : ℕ
  inBlockCnt : ℕ
  loadCnt : ℕ
  final : Bool
  first : Bool
  stationaryCtrl : Bool
  loadDone : Bool
  deriving DecidableEq, Repr

def rowCount (P : Params) : ℕ := P.dataASizeY / N
def colCount (P : Params) : ℕ := P.dataASizeX / N

def bramAddrPointer (P : Params) (s : Main) : ℕ :=
  (s.rowCnt * N * P.dataBSizeX + s.colCnt * N + s.inBlockCnt * P.dataASizeX) % 2 ^ 13

def bramAddrB (P : Params) (s : Main) : ℕ := bramAddrPointer P s / 2 ^ 4

def mainProcess (P : Params) (rst load : Bool) (s : Main) : Main :=
  if rst then { s with colCnt := 0, state := .idle, loadCnt := 0 }
  else match s.state with
  | .idle =>
    if load then { s with state := .preparing }
    else
      { s with
        first := true, stationaryCtrl := false, loadDone := false, state := .idle
        inBlockCnt := 0, colCnt := 0, rowCnt := 0, loadCnt := 0 }
  | .preparing =>
    let t := { s with loadDone := false, stationaryCtrl := false }
    if s.inBlockCnt = N + 1 then
      let t := { t with inBlockCnt := 0, state := .waiting }
      if s.rowCnt = rowCount P - 1 then
        if s.colCnt = colCount P - 1 then { t with rowCnt := 0, colCnt := 0, final := true }
        else { t with rowCnt := 0, colCnt := (s.colCnt + 1) % 2 ^ (P.dataBSizeX / N) }
      else { t with rowCnt := (s.rowCnt + 1) % 2 ^ (P.dataBSizeX / N) }
    else { t with inBlockCnt := (s.inBlockCnt + 1) % 2 ^ N }
  | .waiting =>
    let t := { s with loadDone := false }
    if load || s.first then { t with state := .loading, stationaryCtrl := true, first := false }
    else t
  | .loading =>
    if s.loadCnt = N - 1 then
      let t := { s with loadDone := true, stationaryCtrl := true, loadCnt := 0 }
      if s.final then { t with state := .idle, final := false } else { t with state := .preparing }
    else { s with loadCnt := (s.loadCnt + 1) % 2 ^ N }
  | .done => s

variable {W n : ℕ}

structure State (W : ℕ) where
  main : Main
  bufferB : Fin N → Fin N → BitVec W
  bIns : Fin N → BitVec W

/-- Column `j` of `buffer_B` after the edge. A write at an index outside `0 .. N-1` is dropped. -/
def genBuffer (rst : Bool) (bramRddataB : BitVec n) (s : State W) (j : Fin N) : Fin N → BitVec W :=
  if rst then fun _ => 0
  else if s.main.state = .preparing then
    fun m => if m.val = pred32 s.main.inBlockCnt then Clocked.lane W bramRddataB j else s.bufferB m j
  else fun m => s.bufferB m j

def genLoad (rst : Bool) (s : State W) (i : Fin N) : BitVec W :=
  if rst then 0
  else if s.main.state = .loading then
    if h : s.main.loadCnt < N then s.bufferB i ⟨s.main.loadCnt, h⟩ else 0
  else 0

def step (P : Params) (rst load : Bool) (bramRddataB : BitVec n) (s : State W) : State W where
  main := mainProcess P rst load s.main
  bufferB := fun m j => genBuffer rst bramRddataB s j m
  bIns := genLoad rst s

end EmbeddedAccelerator.ScatterB
