import EmbeddedAccelerator.GatherC

namespace EmbeddedAccelerator.GatherC

/-- The block of the product a pass contributes to: `row` counts the passes of a group. -/
structure Cursor where
  row : ℕ
  col : ℕ
  deriving DecidableEq, Repr

namespace Cursor

abbrev Last (P : Params) (b : Cursor) : Prop := b.row = rowCount P - 1

def advance (P : Params) (b : Cursor) : Cursor :=
  if b.row = rowCount P - 1 then
    if b.col = colCount P - 1 then ⟨0, 0⟩ else ⟨0, (b.col + 1) % 2 ^ (P.dataBSizeX / N)⟩
  else ⟨(b.row + 1) % 2 ^ (P.dataBSizeY / N), b.col⟩

def Valid (P : Params) (b : Cursor) : Prop := b.row < rowCount P ∧ b.col < colCount P

theorem advance_valid {P : Params} {b : Cursor} (hb : b.Valid P) : (b.advance P).Valid P := by
  obtain ⟨hr, hc⟩ := hb
  have hrow : rowCount P < 2 ^ (P.dataBSizeY / N) := Nat.lt_two_pow_self
  have hcol : colCount P < 2 ^ (P.dataBSizeX / N) := Nat.lt_two_pow_self
  by_cases h : b.row = rowCount P - 1
  · by_cases h' : b.col = colCount P - 1
    · simp only [advance, h, h', ↓reduceIte, Valid]
      omega
    · simp only [advance, h, h', ↓reduceIte, Valid]
      rw [Nat.mod_eq_of_lt (by omega)]
      omega
  · simp only [advance, h, ↓reduceIte, Valid]
    rw [Nat.mod_eq_of_lt (by omega)]
    omega

end Cursor

/-- `IDLE` before the first pass of a run, `WAITING` before the others. -/
def ready (b : Cursor) : Control :=
  ⟨⟨0, .idle, true⟩, ⟨if b.row = 0 ∧ b.col = 0 then .idle else .waiting, false, 0, b.row, b.col, false⟩⟩

def gatheringAt (b : Cursor) (k : ℕ) : Control :=
  ⟨⟨0, .idle, true⟩, ⟨.gathering, false, k, b.row, b.col, false⟩⟩

def receivedAt (P : Params) (b : Cursor) : Control :=
  ⟨⟨0, .idle, true⟩, ⟨.waiting, true, 0, b.row, b.col, b.Last P⟩⟩

def writingAt (b : Cursor) (r : ℕ) : Control :=
  ⟨⟨r, .writing, false⟩, ⟨.waiting, false, 0, b.row, b.col, false⟩⟩

def cleaningAt (b : Cursor) : Control :=
  ⟨⟨0, .cleaning, true⟩, ⟨.waiting, false, 0, b.row, b.col, false⟩⟩

section Process

variable {P : Params} {b : Cursor} (startCal : Bool)

theorem step_ready :
    controlStep P false startCal (ready b) = if startCal then gatheringAt b 0 else ready b := by
  by_cases h : b.row = 0 ∧ b.col = 0 <;> cases startCal <;>
    simp [controlStep, bramProcess, gatherProcess, gatherDone, ready, gatheringAt, h]

theorem step_gathering {k : ℕ} (hk : k ≤ P.dataASizeY) (hL : P.dataASizeY + 1 < 2 ^ N) :
    controlStep P false startCal (gatheringAt b k) = gatheringAt b (k + 1) := by
  have hne : k ≠ P.dataASizeY + 1 := by omega
  have hmod : (k + 1) % 2 ^ N = k + 1 := Nat.mod_eq_of_lt (by omega)
  simp [controlStep, bramProcess, gatherProcess, gatheringAt, hne, hmod]

theorem step_gathered :
    controlStep P false startCal (gatheringAt b (P.dataASizeY + 1)) = receivedAt P b := by
  by_cases h : b.row = rowCount P - 1 <;>
    simp [controlStep, bramProcess, gatherProcess, gatheringAt, receivedAt, Cursor.Last, h]

theorem step_received (hb : b.Valid P) :
    controlStep P false false (receivedAt P b) =
      if b.Last P then writingAt b 0 else ready (b.advance P) := by
  have hrow : rowCount P < 2 ^ (P.dataBSizeY / N) := Nat.lt_two_pow_self
  obtain ⟨hr, -⟩ := hb
  by_cases h : b.row = rowCount P - 1
  · simp [controlStep, bramProcess, gatherProcess, gatherDone, receivedAt, writingAt, Cursor.Last, h]
  · have hmod : (b.row + 1) % 2 ^ (P.dataBSizeY / N) = b.row + 1 := Nat.mod_eq_of_lt (by omega)
    simp [controlStep, bramProcess, gatherProcess, gatherDone, receivedAt, ready, Cursor.Last,
      Cursor.advance, h, hmod]

theorem step_writing {r : ℕ} (hr : r + 1 < P.dataASizeY) (hL : P.dataASizeY < 2 ^ N) :
    controlStep P false false (writingAt b r) = writingAt b (r + 1) := by
  have hne : r ≠ P.dataASizeY - 1 := by omega
  have hmod : (r + 1) % 2 ^ N = r + 1 := Nat.mod_eq_of_lt (by omega)
  simp [controlStep, bramProcess, gatherProcess, gatherDone, writingAt, hne, hmod]

theorem step_written :
    controlStep P false false (writingAt b (P.dataASizeY - 1)) = cleaningAt b := by
  simp [controlStep, bramProcess, gatherProcess, gatherDone, writingAt, cleaningAt]

theorem step_cleaning (hl : b.Last P) (hb : b.Valid P) :
    controlStep P false false (cleaningAt b) = ready (b.advance P) := by
  have hcol : colCount P < 2 ^ (P.dataBSizeX / N) := Nat.lt_two_pow_self
  obtain ⟨-, hc⟩ := hb
  simp only [Cursor.Last] at hl
  by_cases h : b.col = colCount P - 1
  · simp [controlStep, bramProcess, gatherProcess, gatherDone, cleaningAt, ready, Cursor.advance, hl, h]
  · have hmod : (b.col + 1) % 2 ^ (P.dataBSizeX / N) = b.col + 1 := Nat.mod_eq_of_lt (by omega)
    simp [controlStep, bramProcess, gatherProcess, gatherDone, cleaningAt, ready, Cursor.advance, hl, h,
      hmod]

end Process

/-- The cycle, counted from the `start_cal` pulse, in which `gather_done` is high. -/
def doneTime (P : Params) (b : Cursor) : ℕ :=
  if b.Last P then 2 * P.dataASizeY + 4 else P.dataASizeY + 3

/-- The controllers of `gather_c` `t` cycles after a `start_cal` pulse. -/
def gatherAt (P : Params) (b : Cursor) (t : ℕ) : Control :=
  if t = 0 then ready b
  else if t ≤ P.dataASizeY + 2 then gatheringAt b (t - 1)
  else if t = P.dataASizeY + 3 then receivedAt P b
  else if doneTime P b < t then ready (b.advance P)
  else if t ≤ 2 * P.dataASizeY + 3 then writingAt b (t - (P.dataASizeY + 4))
  else cleaningAt b

section Phases

variable (P : Params) (b : Cursor)

@[simp] theorem gatherAt_zero : gatherAt P b 0 = ready b := rfl

theorem gatherAt_gathering {k : ℕ} (hk : k ≤ P.dataASizeY + 1) :
    gatherAt P b (k + 1) = gatheringAt b k := by
  simp (disch := omega) only [gatherAt, if_pos, if_neg, Nat.add_sub_cancel]

theorem gatherAt_received : gatherAt P b (P.dataASizeY + 3) = receivedAt P b := by
  simp (disch := omega) only [gatherAt, if_neg, ↓reduceIte]

variable {P b}

theorem gatherAt_writing (hl : b.Last P) {r : ℕ} (hr : r < P.dataASizeY) :
    gatherAt P b (P.dataASizeY + 4 + r) = writingAt b r := by
  have hd : doneTime P b = 2 * P.dataASizeY + 4 := if_pos hl
  simp (disch := omega) only [gatherAt, if_pos, if_neg, Nat.add_sub_cancel_left]

theorem gatherAt_cleaning (hl : b.Last P) :
    gatherAt P b (2 * P.dataASizeY + 4) = cleaningAt b := by
  have hd : doneTime P b = 2 * P.dataASizeY + 4 := if_pos hl
  simp (disch := omega) only [gatherAt, if_neg]

theorem gatherAt_ready {t : ℕ} (ht : doneTime P b < t) : gatherAt P b t = ready (b.advance P) := by
  have hd : P.dataASizeY + 3 ≤ doneTime P b := by
    unfold doneTime
    split <;> omega
  simp (disch := omega) only [gatherAt, if_pos, if_neg]

theorem doneTime_eq (hl : b.Last P) : doneTime P b = 2 * P.dataASizeY + 4 := if_pos hl

theorem le_doneTime : P.dataASizeY + 3 ≤ doneTime P b := by
  unfold doneTime
  split <;> omega

theorem phase_cases (P : Params) (b : Cursor) (t : ℕ) :
    t = 0 ∨ (∃ k ≤ P.dataASizeY + 1, t = k + 1) ∨ t = P.dataASizeY + 3 ∨
      (b.Last P ∧ ∃ r < P.dataASizeY, t = P.dataASizeY + 4 + r) ∨
      (b.Last P ∧ t = 2 * P.dataASizeY + 4) ∨ doneTime P b < t := by
  by_cases h0 : t = 0 ∨ t = P.dataASizeY + 3 ∨ doneTime P b < t
  · tauto
  · by_cases ht : t < P.dataASizeY + 3
    · exact .inr (.inl ⟨t - 1, by omega, by omega⟩)
    · have hl : b.Last P := by
        by_contra hl
        rw [doneTime, if_neg hl] at h0
        omega
      have hd := doneTime_eq hl
      by_cases ht' : t = 2 * P.dataASizeY + 4
      · tauto
      · exact .inr (.inr (.inr (.inl ⟨hl, t - (P.dataASizeY + 4), by omega, by omega⟩)))

theorem gatherAt_step (hL : P.dataASizeY + 1 < 2 ^ N) (hL' : 0 < P.dataASizeY) (hb : b.Valid P) (t : ℕ) :
    controlStep P false (t = 0) (gatherAt P b t) = gatherAt P b (t + 1) := by
  rcases phase_cases P b t with rfl | ⟨k, hk, rfl⟩ | rfl | ⟨hl, r, hr, rfl⟩ | ⟨hl, rfl⟩ | ht
  · rw [gatherAt_zero, step_ready, gatherAt_gathering P b (by omega)]
    rfl
  · rw [gatherAt_gathering P b hk]
    obtain rfl | hk : k = P.dataASizeY + 1 ∨ k ≤ P.dataASizeY := by omega
    · rw [step_gathered, gatherAt_received]
    · rw [step_gathering _ hk hL, gatherAt_gathering P b (by omega)]
  · rw [gatherAt_received, decide_eq_false (by omega), step_received hb]
    by_cases hl : b.Last P
    · rw [if_pos hl]
      exact (gatherAt_writing hl hL').symm
    · rw [if_neg hl, gatherAt_ready (by rw [doneTime, if_neg hl]; omega)]
  · rw [gatherAt_writing hl hr, decide_eq_false (by omega)]
    obtain rfl | hr : r = P.dataASizeY - 1 ∨ r + 1 < P.dataASizeY := by omega
    · rw [step_written, show P.dataASizeY + 4 + (P.dataASizeY - 1) + 1 = 2 * P.dataASizeY + 4 by omega,
        gatherAt_cleaning hl]
    · rw [step_writing hr (by omega), Nat.add_assoc _ r 1, gatherAt_writing hl hr]
  · rw [gatherAt_cleaning hl, decide_eq_false (by omega), step_cleaning hl hb,
      gatherAt_ready (by rw [doneTime_eq hl]; omega)]
  · rw [gatherAt_ready ht, gatherAt_ready (by omega), decide_eq_false (by omega), step_ready]
    rfl

theorem gatherAt_gathering_iff {t k : ℕ} (ht : 0 < t) (hk : k ≤ P.dataASizeY + 1) :
    (gatherAt P b t).gather.state = .gathering ∧ (gatherAt P b t).gather.inBlockCnt = k ↔ t = k + 1 := by
  rcases phase_cases P b t with rfl | ⟨i, hi, rfl⟩ | rfl | ⟨hl, r, hr, rfl⟩ | ⟨hl, rfl⟩ | h
  · omega
  · rw [gatherAt_gathering P b hi]
    simp [gatheringAt]
  · rw [gatherAt_received]
    exact iff_of_false (fun h => by simp [receivedAt] at h) (by omega)
  · rw [gatherAt_writing hl hr]
    exact iff_of_false (fun h => by simp [writingAt] at h) (by omega)
  · rw [gatherAt_cleaning hl]
    exact iff_of_false (fun h => by simp [cleaningAt] at h) (by omega)
  · have hd : P.dataASizeY + 3 ≤ doneTime P b := le_doneTime
    rw [gatherAt_ready h]
    refine iff_of_false (fun hg => ?_) (by omega)
    have h1 := hg.1
    rw [ready] at h1
    split at h1 <;> simp at h1

theorem gatherAt_holding {t : ℕ} (h : P.dataASizeY + 3 ≤ t) (h' : t ≤ doneTime P b) :
    (gatherAt P b t).gather.state = .waiting ∧
      ((gatherAt P b t).bram.bramState = .cleaning ↔ b.Last P ∧ t = doneTime P b) := by
  rcases phase_cases P b t with rfl | ⟨k, hk, rfl⟩ | rfl | ⟨hl, r, hr, rfl⟩ | ⟨hl, rfl⟩ | ht
  · omega
  · omega
  · rw [gatherAt_received]
    refine ⟨rfl, iff_of_false (by simp [receivedAt]) fun ⟨hl, he⟩ => ?_⟩
    rw [doneTime_eq hl] at he
    omega
  · rw [gatherAt_writing hl hr]
    refine ⟨rfl, iff_of_false (by simp [writingAt]) fun ⟨_, he⟩ => ?_⟩
    rw [doneTime_eq hl] at he
    omega
  · rw [gatherAt_cleaning hl, doneTime_eq hl]
    exact ⟨rfl, iff_of_true rfl ⟨hl, rfl⟩⟩
  · omega

theorem bramWeC_gatherAt (t : ℕ) :
    bramWeC (gatherAt P b t) =
      decide (b.Last P ∧ P.dataASizeY + 4 ≤ t ∧ t < 2 * P.dataASizeY + 4) := by
  rcases phase_cases P b t with rfl | ⟨k, hk, rfl⟩ | rfl | ⟨hl, r, hr, rfl⟩ | ⟨hl, rfl⟩ | ht
  · rw [decide_eq_false (by omega)]
    rfl
  · rw [gatherAt_gathering P b hk, decide_eq_false (by omega)]
    rfl
  · rw [gatherAt_received, decide_eq_false (by omega)]
    rfl
  · rw [gatherAt_writing hl hr, decide_eq_true ⟨hl, by omega, by omega⟩]
    rfl
  · rw [gatherAt_cleaning hl, decide_eq_false (by omega)]
    rfl
  · rw [gatherAt_ready ht, decide_eq_false (fun ⟨hl, _, h⟩ => by rw [doneTime_eq hl] at ht; omega)]
    rfl

theorem gatherDone_gatherAt (t : ℕ) : gatherDone (gatherAt P b t) = decide (t = doneTime P b) := by
  have hd := le_doneTime (P := P) (b := b)
  rcases phase_cases P b t with rfl | ⟨k, hk, rfl⟩ | rfl | ⟨hl, r, hr, rfl⟩ | ⟨hl, rfl⟩ | ht
  · rw [decide_eq_false (by omega)]
    rfl
  · rw [gatherAt_gathering P b hk, decide_eq_false (by omega)]
    rfl
  · rw [gatherAt_received]
    by_cases hl : b.Last P
    · rw [doneTime_eq hl, decide_eq_false (by omega)]
      simp only [gatherDone, receivedAt, decide_eq_true hl]
      rfl
    · simp [gatherDone, receivedAt, doneTime, decide_eq_false hl, if_neg hl]
  · rw [gatherAt_writing hl hr, doneTime_eq hl, decide_eq_false (by omega)]
    rfl
  · rw [gatherAt_cleaning hl, doneTime_eq hl]
    simp [gatherDone, cleaningAt]
  · rw [gatherAt_ready ht, decide_eq_false (by omega)]
    rfl

end Phases

end EmbeddedAccelerator.GatherC
