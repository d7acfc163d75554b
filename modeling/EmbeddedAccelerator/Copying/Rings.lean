import Mathlib.Tactic.Common

/-!
Slots of a ring that are given out one after the other. What is given out is known by how many slots have been given
out before it.
-/

namespace Copying

/-- How far it is from one slot on to another one: once around if they are the same. -/
def ahead (n a b : ℕ) : ℕ := if a < b then b - a else b + n - a

section Slots

variable {n v w : ℕ} (hn : 0 < n) (hvw : v ≤ w) (hwv : w ≤ v + n)
include hn hvw hwv

theorem mod_cases : v % n < n ∧ (w % n = v % n + (w - v) ∨ w % n + n = v % n + (w - v)) := by
  obtain ⟨d, rfl⟩ := Nat.exists_eq_add_of_le hvw
  have hlt := Nat.mod_lt v hn
  refine ⟨hlt, ?_⟩
  rw [Nat.add_sub_cancel_left, Nat.add_mod, Nat.add_mod_mod]
  by_cases h : v % n + d < n
  · exact .inl (Nat.mod_eq_of_lt h)
  · rw [Nat.mod_eq_sub_mod (by omega), Nat.mod_eq_of_lt (by omega)]
    omega

theorem ahead_mod (hlt : v < w) : ahead n (v % n) (w % n) = w - v := by
  obtain ⟨h, h1 | h2⟩ := mod_cases hn hvw hwv
  · rw [ahead, if_pos (by omega)]
    omega
  · rw [ahead, if_neg (by omega)]
    omega

theorem apart {c m k : ℕ} (hv : v + c ≤ w) (hw : w + m ≤ v + n) (hk : w % n ≤ k) (hkm : k < w % n + m) :
    k < v % n ∨ v % n + c ≤ k := by
  obtain ⟨-, h1 | h2⟩ := mod_cases hn hvw hwv
  · exact .inr (by omega)
  · exact .inl (by omega)

theorem overlap {m : ℕ} (hw : v + n < w + m) (hm : w % n + m ≤ n) : w % n ≤ v % n ∧ v % n < w % n + m := by
  obtain ⟨h, h1 | h2⟩ := mod_cases hn hvw hwv
  · omega
  · omega

end Slots

end Copying
