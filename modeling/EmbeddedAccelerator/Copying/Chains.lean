import Mathlib.Data.List.Basic
import Mathlib.Data.List.Range
import Mathlib.Tactic.Common

/-!
Lists that are linked through a memory, one cell after the other or in blocks of neighbours.
-/

namespace Copying

variable {A D : Type*} (cell : A → D) (next : D → A) (last : D → Bool)

/-- The cells from address `a` on, up to the last one. -/
def follow : ℕ → A → List D
  | 0, _ => []
  | fuel + 1, a => if last (cell a) then [cell a] else cell a :: follow fuel (next (cell a))

/-- The same, but every cell also says how many neighbours of the next one are read with it. -/
def followBlocks (shift : A → ℕ → A) (adjacent : D → ℕ) : ℕ → A → ℕ → List (List D)
  | 0, _, _ => []
  | fuel + 1, a, adj =>
    let block := (List.range (adj + 1)).map fun i => cell (shift a i)
    let d := cell (shift a adj)
    if last d then [block] else block :: followBlocks shift adjacent fuel (next d) (adjacent d)

/-- A list of `n` cells at the addresses `addr 0`, `addr 1` and so on. -/
structure Linked (addr : ℕ → A) (n : ℕ) : Prop where
  next : ∀ i, i + 1 < n → next (cell (addr i)) = addr (i + 1)
  last : ∀ i < n, last (cell (addr i)) = decide (i + 1 = n)

variable {cell next last} {addr : ℕ → A} {n : ℕ} (h : Linked cell next last addr n)
include h

theorem Linked.follow_eq {k fuel : ℕ} (hk : k < n) (hfuel : n ≤ k + fuel) :
    follow cell next last fuel (addr k) = (List.range' k (n - k)).map fun i => cell (addr i) := by
  induction fuel generalizing k with
  | zero => omega
  | succ fuel ih =>
    obtain ⟨j, hj⟩ : ∃ j, n - k = j + 1 := ⟨n - k - 1, by omega⟩
    rw [follow, h.last k hk, hj, List.range'_succ, List.map_cons]
    by_cases hlast : k + 1 = n
    · obtain rfl : j = 0 := by omega
      rw [decide_eq_true hlast]
      rfl
    · have hrest : n - (k + 1) = j := by omega
      rw [decide_eq_false hlast, h.next k (by omega), ih (by omega) (by omega), hrest]
      rfl

omit h in
theorem map_shift {shift : A → ℕ → A} (hshift : ∀ k i, k + i < n → shift (addr k) i = addr (k + i)) {k adj : ℕ}
    (hk : k + adj < n) : (List.range (adj + 1)).map (fun i => cell (shift (addr k) i)) =
      (List.range' k (adj + 1)).map fun i => cell (addr i) := by
  rw [List.range'_eq_map_range, List.map_map]
  apply List.map_congr_left
  intro i hi
  have hi := List.mem_range.mp hi
  rw [Function.comp_apply, hshift k i (by omega)]

theorem Linked.followBlocks_flatten {shift : A → ℕ → A} {adjacent : D → ℕ}
    (hshift : ∀ k i, k + i < n → shift (addr k) i = addr (k + i))
    (hadj : ∀ i, i + 1 < n → i + 1 + adjacent (cell (addr i)) < n) (k adj fuel : ℕ) (hk : k + adj < n)
    (hfuel : n ≤ k + fuel) :
    (followBlocks cell next last shift adjacent fuel (addr k) adj).flatten = follow cell next last fuel (addr k) := by
  rw [h.follow_eq (by omega) hfuel]
  induction fuel generalizing k adj with
  | zero => omega
  | succ fuel ih =>
    have hsplit : List.range' k (n - k) = List.range' k (adj + 1) ++ List.range' (k + adj + 1) (n - (k + adj + 1)) := by
      rw [Nat.add_assoc, List.range'_append_1]
      congr 1
      omega
    rw [followBlocks, map_shift hshift hk, hshift k adj hk, h.last (k + adj) hk]
    by_cases hlast : k + adj + 1 = n
    · rw [decide_eq_true hlast, hsplit, hlast, Nat.sub_self]
      simp
    · rw [decide_eq_false hlast, if_neg Bool.false_ne_true, List.flatten_cons, h.next (k + adj) (by omega),
        ih _ _ (hadj (k + adj) (by omega)) (by omega), hsplit, List.map_append]

theorem Linked.followBlocks_forall {shift : A → ℕ → A} {adjacent : D → ℕ} {p : ℕ → ℕ → Prop}
    (hshift : ∀ k i, k + i < n → shift (addr k) i = addr (k + i))
    (hadj : ∀ i, i + 1 < n → i + 1 + adjacent (cell (addr i)) < n ∧ p (i + 1) (adjacent (cell (addr i))))
    (k adj fuel : ℕ) (hk : k + adj < n) (hp : p k adj) (hfuel : n ≤ k + fuel) :
    ∀ block ∈ followBlocks cell next last shift adjacent fuel (addr k) adj,
      ∃ i j, p i j ∧ block = (List.range' i (j + 1)).map fun u => cell (addr u) := by
  induction fuel generalizing k adj with
  | zero => omega
  | succ fuel ih =>
    intro block hb
    rw [followBlocks, map_shift hshift hk, hshift k adj hk, h.last (k + adj) hk] at hb
    by_cases hlast : k + adj + 1 = n
    · rw [decide_eq_true hlast] at hb
      exact ⟨k, adj, hp, List.mem_singleton.mp hb⟩
    · rw [decide_eq_false hlast, if_neg Bool.false_ne_true, h.next (k + adj) (by omega)] at hb
      obtain rfl | hb := List.mem_cons.mp hb
      · exact ⟨k, adj, hp, rfl⟩
      · obtain ⟨h1, h2⟩ := hadj (k + adj) (by omega)
        exact ih _ _ h1 h2 (by omega) block hb

end Copying
