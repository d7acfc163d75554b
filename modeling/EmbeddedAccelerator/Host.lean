import Mathlib.Algebra.BigOperators.Fin
import Mathlib.Data.BitVec
import EmbeddedAccelerator.Clocked.BlockRam

/-!
The programs on the host: `matrix_top2.c` prepares the operands and decodes the result,
`compare2.c` multiplies on the processor.
-/

namespace EmbeddedAccelerator.Host

open Clocked (Mem)

abbrev matrixSize : ℕ := 64

/-- An `int8_t` matrix. -/
abbrev Matrix := Fin matrixSize → Fin matrixSize → BitVec 8

/-- The memory `old` after the bytes of the flattened matrix have been written to it. -/
def flattenMatrixRowMajor (matrix : Matrix) (old : Mem) : Mem := fun a =>
  if h : a < matrixSize * matrixSize then
    matrix ⟨a / matrixSize, Nat.div_lt_of_lt_mul h⟩ ⟨a % matrixSize, Nat.mod_lt a (by decide)⟩
  else old a

/-- The operands of `<<` and `|` are promoted to `int`. -/
def convertToInt16Array (input : Mem) (i : ℕ) : BitVec 16 :=
  let index := i * 2
  (((input (index + 1)).signExtend 32 <<< 8) ||| ((input index).signExtend 32 &&& 0xFF)).setWidth 16

/-- `C[i][j]`, which every `+=` narrows to `int16_t`. -/
def matrixMultiply (A B : Matrix) (i j : Fin matrixSize) : BitVec 16 :=
  (List.finRange matrixSize).foldl
    (fun c k => BitVec.ofInt 16 (c.toInt + (A i k).toInt * (B k j).toInt)) 0

theorem flattenMatrixRowMajor_apply (matrix : Matrix) (old : Mem) (i j : Fin matrixSize) :
    flattenMatrixRowMajor matrix old (i * matrixSize + j) = matrix i j := by
  have hlt : i * matrixSize + j < matrixSize * matrixSize := by
    have hi := i.isLt
    have hj := j.isLt
    simp only [matrixSize] at *
    omega
  have hdiv : (i * matrixSize + j : ℕ) / matrixSize = i := by
    have hj := j.isLt
    simp only [matrixSize] at *
    omega
  have hmod : (i * matrixSize + j : ℕ) % matrixSize = j := by
    have hj := j.isLt
    simp only [matrixSize] at *
    omega
  simp only [flattenMatrixRowMajor, hlt, ↓reduceDIte, hdiv, hmod]

theorem convertToInt16Array_eq_half (input : Mem) (i : ℕ) :
    convertToInt16Array input i = input.half i := by
  apply BitVec.eq_of_getLsbD_eq
  intro b hb
  have hmask : (0xFF : BitVec 32) = (BitVec.allOnes 8).setWidth 32 := rfl
  simp only [convertToInt16Array, Mem.half, Nat.mul_comm i 2, hmask, BitVec.getLsbD_setWidth,
    BitVec.getLsbD_or, BitVec.getLsbD_and, BitVec.getLsbD_shiftLeft, BitVec.getLsbD_signExtend,
    BitVec.getLsbD_allOnes, BitVec.getLsbD_append, hb, decide_true, Bool.true_and]
  have hb32 : b < 32 := by omega
  by_cases h : b < 8
  · simp [h, hb32]
  · have h8 : b - 8 < 8 := by omega
    have h32 : b - 8 < 32 := by omega
    simp [h, h8, hb32, h32]

theorem foldl_accumulate {κ : Type} (x : κ → ℤ) (l : List κ) (c : BitVec 16) :
    l.foldl (fun c k => BitVec.ofInt 16 (c.toInt + x k)) c =
      c + (l.map fun k => BitVec.ofInt 16 (x k)).sum := by
  induction l generalizing c with
  | nil => simp
  | cons k l ih => rw [List.foldl_cons, ih, BitVec.ofInt_add, BitVec.ofInt_toInt, List.map_cons,
      List.sum_cons, add_assoc]

theorem matrixMultiply_eq_sum (A B : Matrix) (i j : Fin matrixSize) :
    matrixMultiply A B i j = ∑ k, (A i k).signExtend 16 * (B k j).signExtend 16 := by
  rw [matrixMultiply, foldl_accumulate, Fin.sum_univ_def]
  simp only [BitVec.ofInt_mul, zero_add]
  rfl

end EmbeddedAccelerator.Host
