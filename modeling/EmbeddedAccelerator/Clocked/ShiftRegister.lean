import Mathlib.Algebra.GroupWithZero.Nat
import Mathlib.Data.Fin.Basic
import Mathlib.Data.List.Induction
import Mathlib.Tactic.Common

/-!
A chain of registers with an enable and a reset. After any edges that begin with a reset, register
`i` holds what was taken in at the enabled edge `i` places back.
-/

namespace Clocked

structure ShiftEdge (α : Type*) where
  rst : Bool
  enable : Bool
  input : α

namespace ShiftEdge

variable {α : Type*} {n : ℕ} [NeZero n]

def shift (zero : α) (r : Fin n → α) (e : ShiftEdge α) : Fin n → α := fun i =>
  if e.rst then zero else if e.enable then if i.val = 0 then e.input else r (i - 1) else r i

/-- The inputs at the enabled edges since the last reset, the most recent one first. -/
def taken (edges : List (ShiftEdge α)) : List α :=
  ((edges.reverse.takeWhile fun e => !e.rst).filter fun e => e.enable).map fun e => e.input

theorem taken_concat (edges : List (ShiftEdge α)) (e : ShiftEdge α) :
    taken (edges ++ [e]) =
      if e.rst then [] else if e.enable then e.input :: taken edges else taken edges := by
  obtain ⟨rst, enable, input⟩ := e
  rw [taken, List.reverse_append]
  cases rst
  · cases enable <;> simp [taken]
  · simp

theorem foldl_shift (zero : α) (r : Fin n → α) {first : ShiftEdge α} (hfirst : first.rst = true)
    (edges : List (ShiftEdge α)) (i : Fin n) :
    (first :: edges).foldl (shift zero) r i = (taken (first :: edges)).getD i zero := by
  induction edges using List.reverseRecOn generalizing i with
  | nil => simp [shift, taken, hfirst]
  | append_singleton edges e ih =>
    rw [← List.cons_append, List.foldl_append, taken_concat]
    simp only [List.foldl_cons, List.foldl_nil]
    rw [← List.foldl_cons, shift]
    cases e.rst
    · cases e.enable
      · simp only [Bool.false_eq_true, ↓reduceIte]
        exact ih i
      · simp only [Bool.false_eq_true, ↓reduceIte]
        by_cases h0 : i.val = 0
        · rw [if_pos h0, h0, List.getD_cons_zero]
        · have hi : (i - 1).val + 1 = i.val := by
            rw [Fin.val_sub_one_of_ne_zero (fun h => h0 (by rw [h]; rfl))]
            omega
          rw [if_neg h0, ih, ← hi, List.getD_cons_succ]
    · simp

end ShiftEdge

end Clocked
