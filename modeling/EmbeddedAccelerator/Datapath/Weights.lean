import Mathlib.Data.Fin.Basic
import EmbeddedAccelerator.PEArray
import EmbeddedAccelerator.Schedule.Load

/-!
How a block travels from the memory through `buffer_B` into the array. Rows are fetched one cycle
after they are addressed; columns are shifted in, the first one deepest.
-/

namespace EmbeddedAccelerator.ScatterB

variable {P : Params} {W n : ℕ} {load : ℕ → Bool} {rd : ℕ → BitVec n} {s : ℕ → State W}
  {w : ℕ → PEArray.Weights W} {T : ℕ}

abbrev Run (P : Params) (load : ℕ → Bool) (rd : ℕ → BitVec n) (s : ℕ → State W) : Prop :=
  ∀ t, s (t + 1) = step P false (load t) (rd t) (s t)

/-- The array as `scatter_b` drives it. -/
abbrev Drives (s : ℕ → State W) (w : ℕ → PEArray.Weights W) : Prop :=
  ∀ t, w (t + 1) = PEArray.step false (s t).main.stationaryCtrl (s t).bIns (w t)

theorem bufferB_preparing (hs : Run P load rd s) {t k : ℕ} (hk : k < 2 ^ 32)
    (hp : (s t).main.state = .preparing) (hc : (s t).main.inBlockCnt = k) (m j : Fin N) :
    (s (t + 1)).bufferB m j =
      if m.val + 1 = k then Clocked.lane W (rd t) j else (s t).bufferB m j := by
  have hpred : m.val = pred32 k ↔ m.val + 1 = k := by
    cases k with
    | zero =>
      have hm := m.isLt
      rw [pred32_zero]
      simp only [N] at hm
      omega
    | succ k =>
      rw [pred32_succ (by omega)]
      omega
  simp only [hs t, step, genBuffer, hp, hc, hpred, Bool.false_eq_true, ↓reduceIte]

theorem bufferB_hold (hs : Run P load rd s) {d : ℕ}
    (hp : ∀ u < d, (s (T + u)).main.state ≠ .preparing) : (s (T + d)).bufferB = (s T).bufferB := by
  induction d with
  | zero => rfl
  | succ d ih =>
    rw [← ih (fun u hu => hp u (by omega)), ← Nat.add_assoc, hs]
    funext m j
    simp [step, genBuffer, hp d (by omega)]

theorem bufferB_fetched (hs : Run P load rd s)
    (hp : ∀ k ≤ N + 1, (s (T + k)).main.state = .preparing ∧ (s (T + k)).main.inBlockCnt = k)
    (m j : Fin N) : (s (T + (N + 2))).bufferB m j = Clocked.lane W (rd (T + (m + 1))) j := by
  have rows (k : ℕ) (hk : k ≤ N + 2) (hm : m.val + 1 < k) :
      (s (T + k)).bufferB m j = Clocked.lane W (rd (T + (m + 1))) j := by
    induction k with
    | zero => omega
    | succ k ih =>
      obtain ⟨h1, h2⟩ := hp k (by omega)
      have hN : N = 16 := rfl
      rw [← Nat.add_assoc, bufferB_preparing hs (by omega) h1 h2]
      by_cases he : m.val + 1 = k
      · rw [if_pos he, he]
      · rw [if_neg he, ih (by omega) (by omega)]
  exact rows (N + 2) le_rfl (by omega)

theorem bIns_loading (hs : Run P load rd s) {t l : ℕ} (hl : l < N) (h : (s t).main.state = .loading)
    (hc : (s t).main.loadCnt = l) (j : Fin N) : (s (t + 1)).bIns j = (s t).bufferB j ⟨l, hl⟩ := by
  simp [hs t, step, genLoad, h, hc, hl]

theorem weights_hold (hw : Drives s w) {d : ℕ}
    (hc : ∀ u < d, (s (T + u)).main.stationaryCtrl = false) : w (T + d) = w T := by
  induction d with
  | zero => rfl
  | succ d ih =>
    rw [← ih (fun u hu => hc u (by omega)), ← Nat.add_assoc, hw]
    funext i j
    simp [PEArray.step, PE.next, hc d (by omega)]

/-- `N` columns leave `buffer_B` one cycle behind `load_cnt` while `stationaryCtrl` is high for
`N + 1` cycles: what the first of them shifts in has left the array when the last column enters. -/
theorem weights_loaded (hs : Run P load rd s) (hw : Drives s w)
    (hl : ∀ l < N, (s (T + l)).main.state = .loading ∧ (s (T + l)).main.loadCnt = l)
    (hc : ∀ l ≤ N, (s (T + l)).main.stationaryCtrl = true) (i j : Fin N) :
    w (T + (N + 1)) i j = (s T).bufferB j i.rev := by
  have hold (l : ℕ) (hle : l ≤ N) : (s (T + l)).bufferB = (s T).bufferB :=
    bufferB_hold hs (fun u hu => by rw [(hl u (by omega)).1]; decide)
  have shifted (l : ℕ) (hle : l ≤ N + 1) (i : Fin N) (hi : i.val + 2 ≤ l) :
      w (T + l) i j = (s T).bufferB j ⟨l - 2 - i, by omega⟩ := by
    induction l generalizing i with
    | zero => omega
    | succ l ih =>
      have hstep : w (T + (l + 1)) i j = PEArray.aIns (s (T + l)).bIns (w (T + l)) i j := by
        rw [← Nat.add_assoc, hw]
        simp [PEArray.step, PE.next, hc l (by omega)]
      rw [hstep, PEArray.aIns]
      by_cases h0 : i.val = 0
      · obtain ⟨l, rfl⟩ : ∃ k, l = k + 1 := ⟨l - 1, by omega⟩
        obtain ⟨h1, h2⟩ := hl l (by omega)
        rw [if_pos h0, ← Nat.add_assoc, bIns_loading hs (by omega) h1 h2, hold l (by omega)]
        congr
        omega
      · have hpred : (i - 1).val = i.val - 1 :=
          Fin.val_sub_one_of_ne_zero (fun h => h0 (by rw [h]; rfl))
        rw [if_neg h0, ih (by omega) (i - 1) (by omega)]
        congr 2
        omega
  rw [shifted (N + 1) le_rfl i (by omega)]
  congr 1
  apply Fin.ext
  rw [Fin.val_rev]
  show N + 1 - 2 - i.val = N - (i.val + 1)
  omega

theorem weights_loadAt (hs : Run P load rd s) (hw : Drives s w) {b : Cursor} {L : ℕ}
    (h : ∀ l ≤ N, (s (L + 1 + l)).main = loadAt P b (l + 1)) (i j : Fin N) :
    w (L + 1 + (N + 1)) i j = (s (L + 1)).bufferB j i.rev := by
  apply weights_loaded hs hw
  · intro l hl
    rw [h l hl.le, loadAt_loading P hl]
    exact ⟨rfl, rfl⟩
  · intro l hl
    rw [h l hl, stationaryCtrl_loadAt, decide_eq_true (by omega)]

end EmbeddedAccelerator.ScatterB
