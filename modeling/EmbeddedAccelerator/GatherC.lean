import EmbeddedAccelerator.Clocked.Words
import EmbeddedAccelerator.Params

namespace EmbeddedAccelerator.GatherC

/-- The values of both `state` and `bram_state`. -/
inductive Mode where
  | idle | gathering | waiting | writing | cleaning
  deriving DecidableEq, Repr

/-- The registers of the write-back process. -/
structure Bram where
  writeBackCnt : ℕ
  bramState : Mode
  writeBackDone : Bool
  deriving DecidableEq, Repr

/-- The registers of the gathering process. -/
structure Gather where
  state : Mode
  recieveDone : Bool
  inBlockCnt : ℕ
  rowCnt : ℕ
  colCnt : ℕ
  writeBack : Bool
  deriving DecidableEq, Repr

structure Control where
  bram : Bram
  gather : Gather
  deriving DecidableEq, Repr

def rowCount (P : Params) : ℕ := P.dataBSizeY / N
def colCount (P : Params) : ℕ := P.dataBSizeX / N

def bramAddrPointer (P : Params) (s : Control) : ℕ :=
  (s.bram.writeBackCnt * 2 * P.dataBSizeX + s.gather.colCnt * 2 * N) % 2 ^ 13

def bramAddrC (P : Params) (s : Control) : ℕ := bramAddrPointer P s / 2 ^ 5

def bramWeC (s : Control) : Bool := s.bram.bramState = .writing

def gatherDone (s : Control) : Bool :=
  if s.bram.bramState = .cleaning then s.bram.writeBackDone
  else s.gather.recieveDone && !s.gather.writeBack

def bramProcess (P : Params) (rst writeBack : Bool) (s : Bram) : Bram :=
  if rst then ⟨0, .idle, true⟩
  else match s.bramState with
  | .idle =>
    if writeBack then { s with bramState := .writing, writeBackDone := false }
    else { s with writeBackCnt := 0, writeBackDone := true }
  | .writing =>
    if s.writeBackCnt = P.dataASizeY - 1 then ⟨0, .cleaning, true⟩
    else { s with writeBackCnt := (s.writeBackCnt + 1) % 2 ^ N, writeBackDone := false }
  | .cleaning => { s with bramState := .idle }
  | _ => s

def gatherProcess (P : Params) (rst startCal gatherDone : Bool) (s : Gather) : Gather :=
  if rst then
    { s with state := .idle, recieveDone := false, inBlockCnt := 0, rowCnt := 0, colCnt := 0 }
  else match s.state with
  | .idle =>
    let t := { s with recieveDone := false, writeBack := false }
    if startCal then { t with state := .gathering } else t
  | .gathering =>
    if s.inBlockCnt = P.dataASizeY + 1 then
      let t := { s with state := .waiting, inBlockCnt := 0, recieveDone := true }
      if s.rowCnt = rowCount P - 1 then { t with writeBack := true } else t
    else { s with inBlockCnt := (s.inBlockCnt + 1) % 2 ^ N, recieveDone := false }
  | .waiting =>
    let t := { s with writeBack := false, recieveDone := false }
    let t := if startCal then { t with state := .gathering } else t
    if gatherDone then
      if s.rowCnt = rowCount P - 1 then
        if s.colCnt = colCount P - 1 then { t with rowCnt := 0, colCnt := 0, state := .idle }
        else
          { t with
            rowCnt := 0, colCnt := (s.colCnt + 1) % 2 ^ (P.dataBSizeX / N), state := .waiting }
      else { t with state := .waiting, rowCnt := (s.rowCnt + 1) % 2 ^ (P.dataBSizeY / N) }
    else t
  | _ => s

def controlStep (P : Params) (rst startCal : Bool) (s : Control) : Control where
  bram := bramProcess P rst s.gather.writeBack s.bram
  gather := gatherProcess P rst startCal (gatherDone s) s.gather

variable {P : Params} {W : ℕ}

structure State (P : Params) (W : ℕ) where
  control : Control
  buffer : Fin P.dataASizeY → Fin N → BitVec (2 * W)

/-- Lane `ji` of the accumulation buffer after the edge. The clearing loop runs over
`DATA_A_SIZE_X` rows; a write at an index outside the buffer is dropped. -/
def genBlock1 (rst : Bool) (cOuts : Fin N → BitVec (2 * W)) (s : State P W) (ji : Fin N) :
    Fin P.dataASizeY → BitVec (2 * W) :=
  if rst || s.control.gather.state = .idle || s.control.bram.bramState = .cleaning then
    fun m => if m.val < P.dataASizeX then 0 else s.buffer m ji
  else if s.control.gather.state = .gathering then
    fun m => if m.val = pred32 s.control.gather.inBlockCnt then s.buffer m ji + cOuts ji
      else s.buffer m ji
  else fun m => s.buffer m ji

/-- `buffer[write_back_cnt][j]`. -/
def writeRow (s : State P W) (j : Fin N) : BitVec (2 * W) :=
  if h : s.control.bram.writeBackCnt < P.dataASizeY then
    s.buffer ⟨s.control.bram.writeBackCnt, h⟩ j
  else 0

/-- Lane `j` of `bram_wrdata_c`. -/
def bramWrdataC (s : State P W) (j : Fin N) : BitVec (2 * W) :=
  if s.control.bram.bramState = .writing then writeRow s j else 0

def step (rst startCal : Bool) (cOuts : Fin N → BitVec (2 * W)) (s : State P W) : State P W where
  control := controlStep P rst startCal s.control
  buffer := fun m ji => genBlock1 rst cOuts s ji m

end EmbeddedAccelerator.GatherC
