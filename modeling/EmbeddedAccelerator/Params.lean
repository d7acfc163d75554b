import Mathlib.Algebra.GroupWithZero.Nat
import Mathlib.Tactic.Common

namespace EmbeddedAccelerator

/-- The number of lanes. It is fixed because `PE_array` unrolls its adder tree for 16 of them. -/
abbrev N : ℕ := 16

instance : NeZero N := ⟨Nat.succ_ne_zero 15⟩

/-- The matrix sizes, in bytes of the `int8` operands. -/
structure Params where
  dataASizeX : ℕ
  dataASizeY : ℕ
  dataBSizeX : ℕ
  dataBSizeY : ℕ
  deriving DecidableEq, Repr

def shipped : Params := ⟨64, 64, 64, 64⟩

/-- Sizes that can be multiplied in whole blocks and fit the three memories of 8192 bytes. -/
structure Params.Fits (P : Params) : Prop where
  dvd_ax : N ∣ P.dataASizeX
  dvd_ay : N ∣ P.dataASizeY
  dvd_bx : N ∣ P.dataBSizeX
  ax_pos : 0 < P.dataASizeX
  ay_pos : 0 < P.dataASizeY
  bx_pos : 0 < P.dataBSizeX
  inner : P.dataBSizeY = P.dataASizeX
  a_fits : P.dataASizeX * P.dataASizeY ≤ 8192
  b_fits : P.dataBSizeX * P.dataBSizeY ≤ 8192
  c_fits : 2 * (P.dataBSizeX * P.dataASizeY) ≤ 8192

theorem shipped_fits : shipped.Fits := by
  constructor <;> decide

namespace Params.Fits

variable {P : Params} (hP : P.Fits)
include hP

theorem le_ax : N ≤ P.dataASizeX := Nat.le_of_dvd hP.ax_pos hP.dvd_ax

theorem le_ay : N ≤ P.dataASizeY := Nat.le_of_dvd hP.ay_pos hP.dvd_ay

theorem le_bx : N ≤ P.dataBSizeX := Nat.le_of_dvd hP.bx_pos hP.dvd_bx

theorem ay_le : P.dataASizeY ≤ 512 := by
  have h := Nat.mul_le_mul_right P.dataASizeY hP.le_ax
  have ha := hP.a_fits
  simp only [N] at h
  omega

theorem one_lt_ay : 1 < P.dataASizeY := Nat.lt_of_lt_of_le (by decide) hP.le_ay

theorem ay_lt : P.dataASizeY + 1 < 2 ^ N := by
  have h := hP.ay_le
  simp only [N]
  omega

end Params.Fits

/-- `cnt - 1` on the 32 bits of an index expression. -/
def pred32 (cnt : ℕ) : ℕ := (cnt + (2 ^ 32 - 1)) % 2 ^ 32

theorem pred32_succ {k : ℕ} (hk : k < 2 ^ 32) : pred32 (k + 1) = k := by
  simp only [pred32]
  omega

theorem pred32_zero : pred32 0 = 2 ^ 32 - 1 := by decide

end EmbeddedAccelerator
