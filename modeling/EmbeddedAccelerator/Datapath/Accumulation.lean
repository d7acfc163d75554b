import Mathlib.Algebra.BigOperators.Fin
import Mathlib.Data.BitVec
import EmbeddedAccelerator.PEArray
import EmbeddedAccelerator.Schedule.Accumulate

namespace EmbeddedAccelerator

namespace PEArray

theorem adderTree_eq_sum {n : ℕ} (c : Fin N → BitVec n) : adderTree c = ∑ k, c k := by
  simp only [adderTree, N, Fin.sum_univ_succ, Fin.sum_univ_zero, Matrix.cons_val]
  simp only [Fin.reduceSucc, add_assoc, add_zero]

theorem cOut_eq_sum {W : ℕ} (r : Weights W) (bIn : Fin N → BitVec W) (i : Fin N) :
    cOut r bIn i = ∑ j, (r i j).signExtend (2 * W) * (bIn j).signExtend (2 * W) :=
  adderTree_eq_sum _

end PEArray

namespace GatherC

variable {P : Params} {W : ℕ} {startCal : ℕ → Bool} {cOuts : ℕ → Fin N → BitVec (2 * W)}
  {s : ℕ → State P W} {T : ℕ}

abbrev Run (startCal : ℕ → Bool) (cOuts : ℕ → Fin N → BitVec (2 * W)) (s : ℕ → State P W) : Prop :=
  ∀ t, s (t + 1) = step false (startCal t) (cOuts t) (s t)

theorem buffer_cleared (hs : Run startCal cOuts s) (hle : P.dataASizeY ≤ P.dataASizeX) {t : ℕ}
    (h : (s t).control.gather.state = .idle ∨ (s t).control.bram.bramState = .cleaning) :
    (s (t + 1)).buffer = fun _ _ => 0 := by
  funext m j
  have hm : m.val < P.dataASizeX := by omega
  rcases h with h | h <;> simp [hs t, step, genBlock1, h, hm]

theorem buffer_hold (hs : Run startCal cOuts s) {d : ℕ}
    (h : ∀ u < d, (s (T + u)).control.gather.state = .waiting ∧
      (s (T + u)).control.bram.bramState ≠ .cleaning) : (s (T + d)).buffer = (s T).buffer := by
  induction d with
  | zero => rfl
  | succ d ih =>
    obtain ⟨h1, h2⟩ := h d (by omega)
    rw [← ih (fun u hu => h u (by omega)), ← Nat.add_assoc, hs]
    funext m j
    simp [step, genBlock1, h1, h2]

theorem buffer_gathering (hs : Run startCal cOuts s) {t k : ℕ} (hk : k < 2 ^ 32)
    (hL : P.dataASizeY < 2 ^ 32 - 1)
    (h : (s t).control.gather.state = .gathering) (hc : (s t).control.gather.inBlockCnt = k)
    (hb : (s t).control.bram.bramState ≠ .cleaning) (m : Fin P.dataASizeY) (j : Fin N) :
    (s (t + 1)).buffer m j =
      if m.val + 1 = k then (s t).buffer m j + cOuts t j else (s t).buffer m j := by
  have hpred : m.val = pred32 k ↔ m.val + 1 = k := by
    cases k with
    | zero =>
      rw [pred32_zero]
      omega
    | succ k =>
      rw [pred32_succ (by omega)]
      omega
  simp [hs t, step, genBlock1, h, hc, hb, hpred]

theorem buffer_gathered (hs : Run startCal cOuts s) (hL : P.dataASizeY + 1 < 2 ^ 32 - 1)
    (h : ∀ k ≤ P.dataASizeY + 1, (s (T + k)).control.gather.state = .gathering ∧
      (s (T + k)).control.gather.inBlockCnt = k ∧ (s (T + k)).control.bram.bramState ≠ .cleaning)
    (m : Fin P.dataASizeY) (j : Fin N) {k : ℕ} (hk : k ≤ P.dataASizeY + 2) :
    (s (T + k)).buffer m j =
      if m.val + 1 < k then (s T).buffer m j + cOuts (T + (m + 1)) j else (s T).buffer m j := by
  induction k with
  | zero => rfl
  | succ k ih =>
    obtain ⟨h1, h2, h3⟩ := h k (by omega)
    rw [← Nat.add_assoc, buffer_gathering hs (by omega) (by omega) h1 h2 h3, ih (by omega)]
    by_cases he : m.val + 1 = k
    · rw [if_pos he, if_neg (by omega), if_pos (by omega), he]
    · rw [if_neg he]
      by_cases hlt : m.val + 1 < k
      · rw [if_pos hlt, if_pos (by omega)]
      · rw [if_neg hlt, if_neg (by omega)]

section Pass

variable (hs : Run startCal cOuts s) {b : Cursor}
  (hT : ∀ k, 0 < k → k ≤ doneTime P b → (s (T + k)).control = gatherAt P b k)
include hs hT

theorem buffer_sampling (hL : P.dataASizeY + 1 < 2 ^ 32 - 1) (m : Fin P.dataASizeY) (j : Fin N) {k : ℕ}
    (hk : k ≤ P.dataASizeY + 2) :
    (s (T + (k + 1))).buffer m j =
      if m.val + 1 < k then (s (T + 1)).buffer m j + cOuts (T + (m + 2)) j
      else (s (T + 1)).buffer m j := by
  have hd := le_doneTime (P := P) (b := b)
  have h := buffer_gathered (T := T + 1) hs hL (fun k hk => by
    rw [Nat.add_assoc, Nat.add_comm 1 k, hT (k + 1) (Nat.succ_pos k) (by omega), gatherAt_gathering P b hk]
    exact ⟨rfl, rfl, by simp [gatheringAt]⟩) m j hk
  rwa [show T + 1 + k = T + (k + 1) by omega, show T + 1 + (m.val + 1) = T + (m + 2) by omega] at h

theorem buffer_sampled (hL : P.dataASizeY + 1 < 2 ^ 32 - 1) (m : Fin P.dataASizeY) (j : Fin N) {k : ℕ}
    (hk : P.dataASizeY + 3 ≤ k) (hk' : k ≤ doneTime P b) :
    (s (T + k)).buffer m j = (s (T + 1)).buffer m j + cOuts (T + (m + 2)) j := by
  have h := buffer_sampling hs hT hL m j (k := P.dataASizeY + 2) le_rfl
  rw [if_pos (by omega)] at h
  have hh := buffer_hold hs (T := T + (P.dataASizeY + 3)) (d := k - (P.dataASizeY + 3)) (fun u hu => by
    rw [Nat.add_assoc, hT _ (by omega) (by omega)]
    obtain ⟨h1, h2⟩ := gatherAt_holding (P := P) (b := b) (t := P.dataASizeY + 3 + u) (by omega) (by omega)
    exact ⟨h1, fun hc => by have := (h2.mp hc).2; omega⟩)
  rw [show T + (P.dataASizeY + 3) + (k - (P.dataASizeY + 3)) = T + k by omega] at hh
  rw [hh]
  exact h

theorem buffer_done (hle : P.dataASizeY ≤ P.dataASizeX) :
    (s (T + (doneTime P b + 1))).buffer =
      if b.Last P then fun _ _ => 0 else (s (T + doneTime P b)).buffer := by
  have hd := le_doneTime (P := P) (b := b)
  have hg := hT (doneTime P b) (by omega) le_rfl
  obtain ⟨h1, h2⟩ := gatherAt_holding (P := P) (b := b) le_doneTime le_rfl
  rw [← Nat.add_assoc]
  by_cases hl : b.Last P
  · rw [if_pos hl]
    apply buffer_cleared hs hle
    right
    rw [hg]
    exact h2.mpr ⟨hl, rfl⟩
  · rw [if_neg hl]
    apply buffer_hold hs (d := 1)
    intro u hu
    obtain rfl : u = 0 := by omega
    rw [Nat.add_zero, hg]
    exact ⟨h1, fun hc => hl (h2.mp hc).1⟩

end Pass

theorem bramWrdataC_writing {b : Cursor} {r : ℕ} {x : State P W} (h : x.control = writingAt b r)
    (hr : r < P.dataASizeY) (j : Fin N) : bramWrdataC x j = x.buffer ⟨r, hr⟩ j := by
  simp [bramWrdataC, writeRow, h, writingAt, hr]

end GatherC

end EmbeddedAccelerator
