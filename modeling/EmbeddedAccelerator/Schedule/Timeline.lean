import EmbeddedAccelerator.Schedule.Passes

namespace EmbeddedAccelerator.MatrixMultiply

open GatherC (Cursor)

def passCount (P : Params) : ℕ := GatherC.rowCount P * GatherC.colCount P

/-- The block of pass `p`. -/
def blockAt (P : Params) : ℕ → Cursor
  | 0 => ⟨0, 0⟩
  | p + 1 => (blockAt P p).advance P

/-- The cycles before pass `p`. -/
def passTime (P : Params) : ℕ → ℕ
  | 0 => 0
  | p + 1 => passTime P p + ((aligned (blockAt P p)).endTime P + 1)

/-- The cycles from the first `B_load` pulse to `Finish`. -/
def runTime (P : Params) : ℕ := passTime P (passCount P)

variable {P : Params}

theorem blockAt_valid (hP : P.Fits) (p : ℕ) : (blockAt P p).Valid P := by
  induction p with
  | zero => exact zero_valid hP
  | succ p ih => exact Cursor.advance_valid ih

theorem rowCount_pos (hP : P.Fits) : 0 < GatherC.rowCount P := Nat.zero_lt_of_lt (zero_valid hP).1

theorem colCount_pos (hP : P.Fits) : 0 < GatherC.colCount P := Nat.zero_lt_of_lt (zero_valid hP).2

theorem passCount_pos (hP : P.Fits) : 0 < passCount P :=
  Nat.mul_pos (rowCount_pos hP) (colCount_pos hP)

theorem succ_divMod_of_last {p R : ℕ} (hR : 0 < R) (h : p % R = R - 1) :
    (p + 1) / R = p / R + 1 ∧ (p + 1) % R = 0 := by
  have hp := Nat.mod_add_div p R
  exact (Nat.div_mod_unique hR).mpr ⟨by rw [Nat.mul_add]; omega, hR⟩

theorem succ_divMod_of_not_last {p R : ℕ} (hR : 0 < R) (h : p % R ≠ R - 1) :
    (p + 1) / R = p / R ∧ (p + 1) % R = p % R + 1 := by
  have hp := Nat.mod_add_div p R
  have hlt := Nat.mod_lt p hR
  exact (Nat.div_mod_unique hR).mpr ⟨by omega, by omega⟩

theorem divMod_of_succ_eq_mul {p m n : ℕ} (hm : 0 < m) (hp : p + 1 = m * n) :
    p % m = m - 1 ∧ p / m = n - 1 := by
  have hr : p % m = m - 1 := by
    by_contra hr
    have h := (succ_divMod_of_not_last hm hr).2
    rw [hp, Nat.mul_mod_right] at h
    omega
  have hd := (succ_divMod_of_last hm hr).1
  rw [hp, Nat.mul_div_cancel_left _ hm] at hd
  exact ⟨hr, by rw [hd, Nat.add_sub_cancel]⟩

theorem blockAt_mod (hP : P.Fits) (p : ℕ) :
    blockAt P p = ⟨p % GatherC.rowCount P, p / GatherC.rowCount P % GatherC.colCount P⟩ := by
  have hR := rowCount_pos hP
  have hC := colCount_pos hP
  induction p with
  | zero => simp [blockAt]
  | succ p ih =>
    have hrow : GatherC.rowCount P < 2 ^ (P.dataBSizeY / N) := Nat.lt_two_pow_self
    have hcol : GatherC.colCount P < 2 ^ (P.dataBSizeX / N) := Nat.lt_two_pow_self
    have hmod := Nat.mod_lt p hR
    rw [blockAt, ih, Cursor.advance]
    dsimp only
    by_cases h : p % GatherC.rowCount P = GatherC.rowCount P - 1
    · obtain ⟨hd, hm⟩ := succ_divMod_of_last hR h
      rw [if_pos h, hd, hm]
      by_cases h' : p / GatherC.rowCount P % GatherC.colCount P = GatherC.colCount P - 1
      · rw [if_pos h', (succ_divMod_of_last hC h').2]
      · rw [if_neg h', (succ_divMod_of_not_last hC h').2, Nat.mod_eq_of_lt]
        have hmod' := Nat.mod_lt (p / GatherC.rowCount P) hC
        omega
    · obtain ⟨hd, hm⟩ := succ_divMod_of_not_last hR h
      rw [if_neg h, hd, hm, Nat.mod_eq_of_lt (by omega)]

theorem blockAt_eq (hP : P.Fits) {p : ℕ} (hp : p < passCount P) :
    blockAt P p = ⟨p % GatherC.rowCount P, p / GatherC.rowCount P⟩ := by
  rw [blockAt_mod hP, Nat.mod_eq_of_lt (Nat.div_lt_of_lt_mul hp)]

theorem blockAt_last (hP : P.Fits) (p : ℕ) :
    (blockAt P p).Last P ↔ p % GatherC.rowCount P = GatherC.rowCount P - 1 := by
  rw [Cursor.Last, blockAt_mod hP]

theorem aligned_blockAt_isLast (hP : P.Fits) (hsq : P.Square) {p : ℕ} (hp : p < passCount P) :
    (aligned (blockAt P p)).IsLast P ↔ p + 1 = passCount P := by
  have hpos := rowCount_pos hP
  rw [aligned_isLast hP hsq, blockAt_eq hP hp]
  dsimp only [Cursor.Last]
  constructor
  · rintro ⟨hr, hc⟩
    have hcpos := colCount_pos hP
    obtain ⟨hd, hm⟩ := succ_divMod_of_last hpos hr
    have h := Nat.mod_add_div (p + 1) (GatherC.rowCount P)
    rw [hd, hm, hc, Nat.sub_add_cancel hcpos, Nat.zero_add] at h
    exact h.symm
  · exact divMod_of_succ_eq_mul hpos

theorem blockAt_passCount (hP : P.Fits) : blockAt P (passCount P) = ⟨0, 0⟩ := by
  have hR := rowCount_pos hP
  obtain ⟨p, hp⟩ : ∃ p, passCount P = p + 1 := ⟨passCount P - 1, by have := passCount_pos hP; omega⟩
  obtain ⟨hr, hd⟩ := divMod_of_succ_eq_mul hR hp.symm
  rw [hp, blockAt, blockAt_eq hP (by omega), Cursor.advance, if_pos hr, if_pos hd]

section Square

variable (hP : P.Fits) (hsq : P.Square)
include hP hsq

theorem nthPass_eq (p : ℕ) : nthPass P p = aligned (blockAt P p) := by
  induction p with
  | zero => rfl
  | succ p ih => rw [nthPass, ih, aligned_next hP hsq (blockAt_valid hP p), blockAt]

theorem nthBegin_eq (p : ℕ) : nthBegin P p = passTime P p := by
  induction p with
  | zero => rfl
  | succ p ih => rw [nthBegin, ih, nthPass_eq hP hsq, passTime]

theorem nthPass_isLast {p : ℕ} (hp : p < passCount P) : (nthPass P p).IsLast P ↔ p + 1 = passCount P := by
  rw [nthPass_eq hP hsq, aligned_blockAt_isLast hP hsq hp]

theorem goesOn_of_lt {p : ℕ} (hp : p < passCount P) : GoesOn P p := fun q hq hl => by
  have h := (nthPass_isLast hP hsq (by omega)).mp hl
  omega

variable {c : ℕ → Control} {start : ℕ → Bool} (hc : ControlRun P start c) {T : ℕ} {fin : Bool}
  (hT : c T = passAt P (aligned ⟨0, 0⟩) fin 0)
include hc hT

theorem timeline_pass {p : ℕ} (hp : p < passCount P) :
    c (T + passTime P p) = passAt P (aligned (blockAt P p)) (fin && p = 0) 0 := by
  rw [← nthBegin_eq hP hsq, ← nthPass_eq hP hsq]
  exact run_pass hP hc hT (goesOn_of_lt hP hsq hp)

theorem timeline_within {p : ℕ} (hp : p < passCount P) {u : ℕ}
    (hu : u ≤ (aligned (blockAt P p)).endTime P) :
    c (T + passTime P p + u) = passAt P (aligned (blockAt P p)) (fin && p = 0) u :=
  pass_schedule hP hc (aligned_valid hP (blockAt_valid hP p)) (timeline_pass hP hsq hc hT hp) u hu

theorem timeline_finish : c (T + runTime P) = idleAt P (aligned ⟨0, 0⟩) true := by
  obtain ⟨p, hp⟩ : ∃ p, passCount P = p + 1 := ⟨passCount P - 1, by have := passCount_pos hP; omega⟩
  have hn := run_finish hP hc hT (goesOn_of_lt hP hsq (p := p) (by omega))
    ((nthPass_isLast hP hsq (by omega)).mpr hp.symm)
  rw [runTime, hp, ← blockAt_passCount hP, hp, ← nthBegin_eq hP hsq, ← nthPass_eq hP hsq]
  exact hn

end Square

theorem passTime_mono {p q : ℕ} (h : p ≤ q) : passTime P p ≤ passTime P q := by
  induction q, h using Nat.le_induction with
  | base => exact le_rfl
  | succ q _ ih =>
    rw [passTime]
    omega

theorem exists_pass (hP : P.Fits) (hsq : P.Square) {q u : ℕ} (hu : u < passTime P q) :
    ∃ p < q, ∃ v ≤ (aligned (blockAt P p)).endTime P, u = passTime P p + v := by
  rw [← nthBegin_eq hP hsq] at hu
  obtain ⟨p, hp, v, hv, h⟩ := exists_nthPass hu
  rw [nthPass_eq hP hsq] at hv
  rw [nthBegin_eq hP hsq] at h
  exact ⟨p, hp, v, hv, h⟩

theorem timeline_busy {c : ℕ → Control} {start : ℕ → Bool} (hP : P.Fits) (hsq : P.Square)
    (hc : ControlRun P start c) {T : ℕ} (hT : c T = passAt P (aligned ⟨0, 0⟩) false 0) {u : ℕ}
    (hu : u < runTime P) :
    (c (T + u)).computeControl.state ≠ .idle ∧ (c (T + u)).computeControl.finish = false := by
  obtain ⟨p, hp, v, hv, rfl⟩ := exists_pass hP hsq hu
  rw [← Nat.add_assoc, timeline_within hP hsq hc hT hp hv, Bool.false_and]
  simp only [passAt, ComputeControl.passAt]
  split_ifs <;> simp

theorem runTime_pos (hP : P.Fits) : 0 < runTime P := by
  have h : passTime P 1 ≤ runTime P := passTime_mono (passCount_pos hP)
  simp only [passTime] at h
  omega

theorem runTime_shipped : runTime shipped = 1655 := by decide

end EmbeddedAccelerator.MatrixMultiply
