import Mathlib.Algebra.BigOperators.Intervals
import EmbeddedAccelerator.Clocked.Signed

/-!
Sums of words as hardware forms them: in a tree of pairwise sums, and block by block in an
accumulator. No addition overflows exactly when the exact sums fit.
-/

namespace Clocked

open Finset (range)

/-- Node `k` of level `l` of the tree of pairwise sums. -/
def node {α : Type*} [Add α] (x : ℕ → α) : ℕ → ℕ → α
  | 0, k => x k
  | l + 1, k => node x l (2 * k) + node x l (2 * k + 1)

theorem children_le {l k M : ℕ} (h : 2 ^ (l + 1) * (k + 1) ≤ M) :
    2 ^ l * (2 * k + 1) ≤ M ∧ 2 ^ l * (2 * k + 1 + 1) ≤ M := by
  have hpow : 2 ^ (l + 1) * (k + 1) = 2 ^ l * (2 * k + 1 + 1) := by ring
  have hle : 2 ^ l * (2 * k + 1) ≤ 2 ^ l * (2 * k + 1 + 1) := Nat.mul_le_mul_left _ (Nat.le_succ _)
  rw [hpow] at h
  exact ⟨hle.trans h, h⟩

section Node

variable {α : Type*}

theorem node_shift [Add α] (x : ℕ → α) (b l d k : ℕ) :
    node (fun i => x (2 ^ (l + d) * b + i)) l k = node x l (2 ^ d * b + k) := by
  induction l generalizing d k with
  | zero => rw [Nat.zero_add, node, node]
  | succ l ih =>
    have hd : 2 ^ (d + 1) * b = 2 * (2 ^ d * b) := by ring
    rw [node, node, Nat.add_right_comm l 1 d, Nat.add_assoc l d 1, ih, ih, hd, Nat.mul_add,
      Nat.add_assoc (2 * _)]

theorem node_congr [Add α] {x y : ℕ → α} {l k : ℕ} (h : ∀ i < 2 ^ l * (k + 1), x i = y i) :
    node x l k = node y l k := by
  induction l generalizing k with
  | zero =>
    rw [node, node]
    exact h k (by omega)
  | succ l ih =>
    obtain ⟨h0, h1⟩ := children_le (l := l) (k := k) le_rfl
    rw [node, node, ih (fun i hi => h i (hi.trans_le h0)), ih (fun i hi => h i (hi.trans_le h1))]

variable [AddCommMonoid α]

theorem node_eq_sum (x : ℕ → α) (l k : ℕ) : node x l k = ∑ i ∈ range (2 ^ l), x (2 ^ l * k + i) := by
  induction l generalizing k with
  | zero => simp [node]
  | succ l ih =>
    have h1 : 2 ^ l * (2 * k) = 2 ^ (l + 1) * k := by ring
    have h2 : 2 ^ l * (2 * k + 1) = 2 ^ (l + 1) * k + 2 ^ l := by ring
    rw [node, ih, ih, pow_succ 2 l, Nat.mul_two (2 ^ l), Finset.sum_range_add, ← Nat.mul_two, ← pow_succ, h1, h2]
    simp only [Nat.add_assoc]

theorem sum_node (x : ℕ → α) (l q : ℕ) : ∑ k ∈ range q, node x l k = ∑ i ∈ range (2 ^ l * q), x i := by
  induction q with
  | zero => rfl
  | succ q ih => rw [Finset.sum_range_succ, ih, node_eq_sum, Nat.mul_succ, Finset.sum_range_add]

end Node

variable {n : ℕ} (x : ℕ → BitVec n)

/-- The word `x k` as a number. -/
def signed (k : ℕ) : ℤ := (x k).toInt

section Tree

variable {L M : ℕ}

theorem toInt_node (h : ∀ l e, l < L → 2 ^ (l + 1) * (e + 1) ≤ M →
      (node x l (2 * e)).toInt = node (signed x) l (2 * e) →
      (node x l (2 * e + 1)).toInt = node (signed x) l (2 * e + 1) → Fits n (node (signed x) (l + 1) e))
    {l e : ℕ} (hl : l ≤ L) (he : 2 ^ l * (e + 1) ≤ M) : (node x l e).toInt = node (signed x) l e := by
  induction l generalizing e with
  | zero => rfl
  | succ l ih =>
    obtain ⟨he0, he1⟩ := children_le he
    have h0 := ih (by omega) he0
    have h1 := ih (by omega) he1
    have hfit := h l e hl he h0 h1
    rw [node, ← h0, ← h1] at hfit
    rw [node, node, ← h0, ← h1]
    exact (toInt_add_iff _ _).mpr hfit

theorem node_fits_iff :
    (∀ l e, l < L → 2 ^ (l + 1) * (e + 1) ≤ M →
      Fits n ((node x l (2 * e)).toInt + (node x l (2 * e + 1)).toInt)) ↔
      ∀ l e, l < L → 2 ^ (l + 1) * (e + 1) ≤ M → Fits n (node (signed x) (l + 1) e) := by
  constructor
  · intro h l e hl he
    obtain ⟨he0, he1⟩ := children_le he
    have hexact {l e : ℕ} (hl : l ≤ L) (he : 2 ^ l * (e + 1) ≤ M) := toInt_node x (L := L) (M := M)
      (fun l e hl he h0 h1 => by
        rw [node, ← h0, ← h1]
        exact h l e hl he) hl he
    rw [node, ← hexact hl.le he0, ← hexact hl.le he1]
    exact h l e hl he
  · intro h l e hl he
    obtain ⟨he0, he1⟩ := children_le he
    have hexact {l e : ℕ} (hl : l ≤ L) (he : 2 ^ l * (e + 1) ≤ M) := toInt_node x (L := L) (M := M)
      (fun l e hl he _ _ => h l e hl he) hl he
    rw [hexact hl.le he0, hexact hl.le he1]
    exact h l e hl he

end Tree

section Accumulator

variable {R : ℕ}

theorem toInt_sum (h : ∀ q < R, (∑ k ∈ range q, x k).toInt = ∑ k ∈ range q, signed x k →
      Fits n (∑ k ∈ range (q + 1), signed x k)) {q : ℕ} (hq : q ≤ R) :
    (∑ k ∈ range q, x k).toInt = ∑ k ∈ range q, signed x k := by
  induction q with
  | zero => exact BitVec.toInt_zero
  | succ q ih =>
    have hi := ih (by omega)
    have hfit := h q hq hi
    rw [Finset.sum_range_succ, ← hi] at hfit
    rw [Finset.sum_range_succ, Finset.sum_range_succ, ← hi]
    exact (toInt_add_iff _ _).mpr hfit

theorem sum_fits_iff :
    (∀ q < R, Fits n ((∑ k ∈ range q, x k).toInt + (x q).toInt)) ↔
      ∀ q < R, Fits n (∑ k ∈ range (q + 1), signed x k) := by
  constructor
  · intro h q hq
    have hexact := toInt_sum x (R := R) (q := q) (fun q hq hi => by
      rw [Finset.sum_range_succ, ← hi]
      exact h q hq) hq.le
    rw [Finset.sum_range_succ, ← hexact]
    exact h q hq
  · intro h q hq
    have hfit := h q hq
    rw [Finset.sum_range_succ, ← toInt_sum x (fun q hq _ => h q hq) hq.le] at hfit
    exact hfit

end Accumulator

section Blocks

/-- Blocks of `2 ^ L` words are summed in trees, and the sums are accumulated: no addition for block
`q` overflows. -/
structure BlockFits (n : ℕ) (x : ℕ → BitVec n) (L q : ℕ) : Prop where
  tree : ∀ l e, l < L → 2 ^ (l + 1) * (e + 1) ≤ 2 ^ L →
    Fits n ((node x l (2 * (2 ^ (L - (l + 1)) * q + e))).toInt +
      (node x l (2 * (2 ^ (L - (l + 1)) * q + e) + 1)).toInt)
  accumulate : Fits n ((∑ k ∈ range (2 ^ L * q), x k).toInt + (node x L q).toInt)

theorem forall_node_iff {L R : ℕ} (f : ℕ → ℕ → Prop) :
    (∀ q < R, ∀ l e, l < L → 2 ^ (l + 1) * (e + 1) ≤ 2 ^ L → f l (2 ^ (L - (l + 1)) * q + e)) ↔
      ∀ l e, l < L → 2 ^ (l + 1) * (e + 1) ≤ 2 ^ L * R → f l e := by
  have hle {l : ℕ} (hl : l < L) (e m : ℕ) :
      2 ^ (l + 1) * (e + 1) ≤ 2 ^ L * m ↔ e + 1 ≤ 2 ^ (L - (l + 1)) * m := by
    have hpow : 2 ^ L = 2 ^ (l + 1) * 2 ^ (L - (l + 1)) := by rw [← pow_add, Nat.add_sub_cancel' hl]
    rw [hpow, Nat.mul_assoc]
    exact Nat.mul_le_mul_left_iff (Nat.two_pow_pos _)
  constructor
  · intro h l e hl he
    have hpos := Nat.two_pow_pos (L - (l + 1))
    have hmod := Nat.mod_lt e hpos
    rw [hle hl] at he
    have hf := h (e / 2 ^ (L - (l + 1))) (Nat.div_lt_of_lt_mul he) l (e % 2 ^ (L - (l + 1))) hl
      (by rw [← Nat.mul_one (2 ^ L), hle hl, Nat.mul_one]; exact hmod)
    rwa [Nat.div_add_mod] at hf
  · intro h q hq l e hl he
    apply h l _ hl
    rw [hle hl]
    rw [← Nat.mul_one (2 ^ L), hle hl, Nat.mul_one] at he
    have hmul := Nat.mul_le_mul_left (2 ^ (L - (l + 1))) hq
    rw [Nat.mul_succ] at hmul
    omega

/-- No addition overflows exactly when the exact nodes and the exact sums of the first blocks fit. -/
theorem blockFits_iff (L R : ℕ) :
    (∀ q < R, BlockFits n x L q) ↔
      (∀ l e, l < L → 2 ^ (l + 1) * (e + 1) ≤ 2 ^ L * R → Fits n (node (signed x) (l + 1) e)) ∧
        ∀ q < R, Fits n (∑ k ∈ range (2 ^ L * (q + 1)), signed x k) := by
  have htree : (∀ q < R, ∀ l e, l < L → 2 ^ (l + 1) * (e + 1) ≤ 2 ^ L → _) ↔ _ :=
    (forall_node_iff (fun l e => Fits n ((node x l (2 * e)).toInt + (node x l (2 * e + 1)).toInt))).trans
      (node_fits_iff x (L := L) (M := 2 ^ L * R))
  have hacc (h : ∀ l e, l < L → 2 ^ (l + 1) * (e + 1) ≤ 2 ^ L * R → Fits n (node (signed x) (l + 1) e)) :
      (∀ q < R, Fits n ((∑ k ∈ range (2 ^ L * q), x k).toInt + (node x L q).toInt)) ↔
        ∀ q < R, Fits n (∑ k ∈ range (2 ^ L * (q + 1)), signed x k) := by
    have hsum := sum_fits_iff (fun k => node x L k) (R := R)
    simp only [sum_node] at hsum
    rw [hsum]
    apply forall₂_congr
    intro q hq
    rw [← sum_node (signed x)]
    apply iff_of_eq
    congr 1
    apply Finset.sum_congr rfl
    intro k hk
    rw [Finset.mem_range] at hk
    exact toInt_node x (fun l e hl he _ _ => h l e hl he) le_rfl (Nat.mul_le_mul_left _ (by omega))
  constructor
  · intro h
    have h1 := htree.mp fun q hq => (h q hq).tree
    exact ⟨h1, (hacc h1).mp fun q hq => (h q hq).accumulate⟩
  · rintro ⟨h1, h2⟩ q hq
    exact ⟨htree.mpr h1 q hq, (hacc h1).mpr h2 q hq⟩

end Blocks

end Clocked
