import Mathlib.Data.Nat.Basic
import Mathlib.Tactic.Common

namespace Clocked

variable {w : ℕ}

/-- `n` lanes side by side, lane 0 in the least significant bits. -/
def pack (f : ℕ → BitVec w) : (n : ℕ) → BitVec (w * n)
  | 0 => 0
  | n + 1 => (f n ++ pack f n).cast (by rw [Nat.mul_succ, Nat.add_comm])

/-- Lane `j` of a word, the part select `x[w*j + w-1 : w*j]`. -/
def lane {m : ℕ} (w : ℕ) (x : BitVec m) (j : ℕ) : BitVec w := x.extractLsb' (w * j) w

theorem pack_getLsbD (f : ℕ → BitVec w) (n j i : ℕ) (hj : j < n) (hi : i < w) :
    (pack f n).getLsbD (w * j + i) = (f j).getLsbD i := by
  induction n with
  | zero => omega
  | succ n ih =>
    simp only [pack, BitVec.getLsbD_cast, BitVec.getLsbD_append]
    by_cases h : j = n
    · subst h
      simp
    · have hle : w * j + w ≤ w * n := by
        rw [← Nat.mul_succ]
        exact Nat.mul_le_mul_left w (by omega)
      rw [if_pos (by omega), ih (by omega)]

theorem lane_pack (f : ℕ → BitVec w) (n j : ℕ) (hj : j < n) : lane w (pack f n) j = f j := by
  apply BitVec.eq_of_getLsbD_eq
  intro i hi
  simp only [lane, BitVec.getLsbD_extractLsb', hi, decide_true, Bool.true_and]
  exact pack_getLsbD f n j i hj hi

theorem pack_congr {f g : ℕ → BitVec w} {n : ℕ} (h : ∀ j < n, f j = g j) : pack f n = pack g n := by
  induction n with
  | zero => rfl
  | succ n ih => rw [pack, pack, h n (Nat.lt_succ_self n), ih fun j hj => h j (Nat.lt_succ_of_lt hj)]

end Clocked
