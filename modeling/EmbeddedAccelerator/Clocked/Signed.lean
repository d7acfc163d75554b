import Mathlib.Algebra.BigOperators.Fin
import Mathlib.Algebra.Order.Group.Abs
import Mathlib.Data.BitVec
import Mathlib.Data.Int.ModEq
import Mathlib.Tactic.Linarith
import Mathlib.Tactic.Positivity
import Mathlib.Tactic.Ring

namespace Clocked

variable {n : ℕ}

/-- `x` is a signed number of `n` bits: `-2 ^ (n - 1) ≤ x < 2 ^ (n - 1)`. -/
def Fits (n : ℕ) (x : ℤ) : Prop := -2 ^ n ≤ 2 * x ∧ 2 * x < 2 ^ n

instance (n : ℕ) (x : ℤ) : Decidable (Fits n x) := inferInstanceAs (Decidable (_ ∧ _))

theorem fits_toInt (x : BitVec n) : Fits n x.toInt := ⟨BitVec.le_two_mul_toInt, BitVec.two_mul_toInt_lt⟩

theorem toInt_ofInt_iff (x : ℤ) : (BitVec.ofInt n x).toInt = x ↔ Fits n x := by
  constructor
  · intro h
    rw [← h]
    exact fits_toInt _
  · rintro ⟨h1, h2⟩
    rw [BitVec.toInt_ofInt]
    apply Int.bmod_eq_of_le_mul_two
    · push_cast
      omega
    · push_cast
      omega

theorem toInt_ofInt_modEq (x : ℤ) : (BitVec.ofInt n x).toInt ≡ x [ZMOD 2 ^ n] := by
  rw [BitVec.toInt_ofInt, Int.ModEq]
  have h : ((2 ^ n : ℕ) : ℤ) = 2 ^ n := by push_cast; rfl
  rw [← h]
  exact Int.bmod_emod

theorem toInt_add_iff (x y : BitVec n) :
    (x + y).toInt = x.toInt + y.toInt ↔ Fits n (x.toInt + y.toInt) := by
  rw [← toInt_ofInt_iff, BitVec.ofInt_add, BitVec.ofInt_toInt, BitVec.ofInt_toInt]

theorem ofInt_sum {κ : Type*} (s : Finset κ) (f : κ → ℤ) :
    BitVec.ofInt n (∑ k ∈ s, f k) = ∑ k ∈ s, BitVec.ofInt n (f k) := by
  classical
  induction s using Finset.induction_on with
  | empty => rfl
  | insert k s hk ih => rw [Finset.sum_insert hk, Finset.sum_insert hk, BitVec.ofInt_add, ih]

theorem signExtend_mul_signExtend {w : ℕ} (x y : BitVec w) :
    x.signExtend n * y.signExtend n = BitVec.ofInt n (x.toInt * y.toInt) :=
  (BitVec.ofInt_mul _ _).symm

theorem fits_mul {w : ℕ} {x y : ℤ} (hx : Fits w x) (hy : Fits w y) : Fits (2 * w) (x * y) := by
  obtain ⟨hx1, hx2⟩ := hx
  obtain ⟨hy1, hy2⟩ := hy
  have hx : |2 * x| ≤ 2 ^ w := abs_le.mpr ⟨hx1, hx2.le⟩
  have hy : |2 * y| ≤ 2 ^ w := abs_le.mpr ⟨hy1, hy2.le⟩
  have hpos : (0 : ℤ) < 2 ^ w := by positivity
  have hpow : (2 : ℤ) ^ (2 * w) = 2 ^ w * 2 ^ w := by rw [two_mul, pow_add]
  have h : |2 * x * (2 * y)| ≤ 2 ^ w * 2 ^ w := by
    rw [abs_mul]
    exact mul_le_mul hx hy (abs_nonneg _) hpos.le
  have hlt : (0 : ℤ) < 2 ^ w * 2 ^ w := mul_pos hpos hpos
  rw [abs_le] at h
  have hxy : 2 * x * (2 * y) = 4 * (x * y) := by ring
  rw [hxy] at h
  rw [Fits, hpow]
  omega

end Clocked
