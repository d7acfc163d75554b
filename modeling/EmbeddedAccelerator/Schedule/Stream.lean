import EmbeddedAccelerator.ScatterA

namespace EmbeddedAccelerator.ScatterA

/-- `IDLE` before the first column block, `WAITING` before the others. -/
def ready (c : ℕ) : State := ⟨if c = 0 then .idle else .waiting, c, 0, false, false⟩

def calculating (c k : ℕ) : State := ⟨.calculate, c, k, 0 < k, false⟩

/-- The cycle in which the last row leaves the memory. -/
def draining (P : Params) (c : ℕ) : State :=
  if c = colCount P - 1 then ⟨.idle, 0, P.dataASizeY - 1, true, true⟩
  else ⟨.waiting, (c + 1) % 2 ^ (P.dataASizeX / N), 0, true, false⟩

def nextCol (P : Params) (c : ℕ) : ℕ :=
  if c = colCount P - 1 then 0 else (c + 1) % 2 ^ (P.dataASizeX / N)

theorem nextCol_lt {P : Params} {c : ℕ} (hc : c < colCount P) : nextCol P c < colCount P := by
  have hlt : colCount P < 2 ^ (P.dataASizeX / N) := Nat.lt_two_pow_self
  by_cases h : c = colCount P - 1
  · rw [nextCol, if_pos h]
    omega
  · rw [nextCol, if_neg h, Nat.mod_eq_of_lt (by omega)]
    omega

section Process

variable {P : Params} {c : ℕ}

theorem step_ready (startCal : Bool) :
    step P false startCal (ready c) = if startCal then calculating c 0 else ready c := by
  by_cases h : c = 0 <;> cases startCal <;> simp [step, ready, calculating, h]

theorem step_calculating (startCal : Bool) {k : ℕ} (hk : k + 1 < P.dataASizeY)
    (hL : P.dataASizeY < 2 ^ N) :
    step P false startCal (calculating c k) = calculating c (k + 1) := by
  have hne : k ≠ P.dataASizeY - 1 := by omega
  have hmod : (k + 1) % 2 ^ N = k + 1 := Nat.mod_eq_of_lt (by omega)
  simp [step, calculating, hne, hmod]

theorem step_last (startCal : Bool) (hL : 1 < P.dataASizeY) :
    step P false startCal (calculating c (P.dataASizeY - 1)) = draining P c := by
  have hk : 0 < P.dataASizeY - 1 := by omega
  by_cases h : c = colCount P - 1 <;> simp [step, calculating, draining, h, hk]

theorem step_draining (hc : c < colCount P) : step P false false (draining P c) = ready (nextCol P c) := by
  by_cases h : c = colCount P - 1
  · simp [step, draining, ready, nextCol, h]
  · have hlt : colCount P < 2 ^ (P.dataASizeX / N) := Nat.lt_two_pow_self
    have hmod : (c + 1) % 2 ^ (P.dataASizeX / N) = c + 1 := Nat.mod_eq_of_lt (by omega)
    simp [step, draining, ready, nextCol, h, hmod]

end Process

/-- The registers `t` cycles after a `start_cal` pulse. -/
def streamAt (P : Params) (c t : ℕ) : State :=
  if t = 0 then ready c
  else if t ≤ P.dataASizeY then calculating c (t - 1)
  else if t = P.dataASizeY + 1 then draining P c
  else ready (nextCol P c)

section Phases

variable (P : Params) (c : ℕ)

@[simp] theorem streamAt_zero : streamAt P c 0 = ready c := rfl

theorem streamAt_calculating {k : ℕ} (hk : k < P.dataASizeY) :
    streamAt P c (k + 1) = calculating c k := by
  simp (disch := omega) only [streamAt, if_pos, if_neg, Nat.add_sub_cancel]

theorem streamAt_draining : streamAt P c (P.dataASizeY + 1) = draining P c := by
  simp (disch := omega) only [streamAt, if_neg, ↓reduceIte]

theorem streamAt_ready {t : ℕ} (ht : P.dataASizeY + 1 < t) : streamAt P c t = ready (nextCol P c) := by
  simp (disch := omega) only [streamAt, if_neg]

theorem outputEnable_streamAt (hL : 0 < P.dataASizeY) (t : ℕ) :
    (streamAt P c t).outputEnable = decide (1 < t ∧ t ≤ P.dataASizeY + 1) := by
  obtain rfl | ⟨k, hk, rfl⟩ | rfl | h : t = 0 ∨ (∃ k < P.dataASizeY, t = k + 1) ∨ t = P.dataASizeY + 1 ∨
      P.dataASizeY + 1 < t := by
    by_cases ht : 0 < t ∧ t ≤ P.dataASizeY
    · exact .inr (.inl ⟨t - 1, by omega, by omega⟩)
    · omega
  · rfl
  · rw [streamAt_calculating P c hk]
    change decide (0 < k) = _
    exact decide_eq_decide.mpr (by omega)
  · rw [streamAt_draining, decide_eq_true (by omega), draining]
    split <;> rfl
  · rw [streamAt_ready P c h, decide_eq_false (by omega)]
    rfl

variable {P c}

theorem streamAt_step (hL : 1 < P.dataASizeY) (hL' : P.dataASizeY < 2 ^ N) (hc : c < colCount P) (t : ℕ) :
    step P false (t = 0) (streamAt P c t) = streamAt P c (t + 1) := by
  obtain rfl | ⟨k, hk, rfl⟩ | rfl | rfl | h : t = 0 ∨ (∃ k, k + 1 < P.dataASizeY ∧ t = k + 1) ∨
      t = P.dataASizeY ∨ t = P.dataASizeY + 1 ∨ P.dataASizeY + 1 < t := by
    by_cases ht : 0 < t ∧ t < P.dataASizeY
    · exact .inr (.inl ⟨t - 1, by omega, by omega⟩)
    · omega
  · rw [streamAt_zero, step_ready, streamAt_calculating P c (by omega)]
    rfl
  · rw [streamAt_calculating P c (by omega), step_calculating _ hk hL', streamAt_calculating P c hk]
  · have hk := streamAt_calculating P c (k := P.dataASizeY - 1) (by omega)
    rw [Nat.sub_add_cancel (by omega)] at hk
    rw [hk, step_last _ hL, streamAt_draining]
  · rw [streamAt_draining, decide_eq_false (by omega), step_draining hc, streamAt_ready P c (by omega)]
  · rw [streamAt_ready P c h, decide_eq_false (by omega), step_ready, streamAt_ready P c (by omega)]
    rfl

end Phases

end EmbeddedAccelerator.ScatterA
