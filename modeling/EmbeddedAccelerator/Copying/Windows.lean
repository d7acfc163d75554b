import EmbeddedAccelerator.Copying.Stores

/-!
Copies between a memory and a window of another one, behind whose last cell comes its first one again. Each copy
stays within the window.
-/

namespace Copying

variable {A B : Type*}

/-- A window, and how many cells are copied at once at most. -/
structure Window (B : Type*) where
  base : B
  size : ℕ
  most : ℕ
  size_pos : 0 < size
  most_pos : 0 < most

namespace Move

def sources (xs : List (Move A B)) : List (Piece A) := xs.map fun x => ⟨x.src, x.len⟩

def targets (xs : List (Move A B)) : List (Piece B) := xs.map fun x => ⟨x.dst, x.len⟩

def count (xs : List (Move A B)) : ℕ := (xs.map Move.len).sum

@[simp] theorem count_cons (x : Move A B) (xs : List (Move A B)) : count (x :: xs) = x.len + count xs := List.sum_cons

@[simp] theorem count_append (xs ys : List (Move A B)) : count (xs ++ ys) = count xs + count ys := by simp [count]

theorem len_le_count {x : Move A B} {xs : List (Move A B)} (hx : x ∈ xs) : x.len ≤ count xs := by
  obtain ⟨ys, zs, rfl⟩ := List.append_of_mem hx
  rw [count_append, count_cons]
  omega

theorem total_sources (xs : List (Move A B)) : total (sources xs) = count xs := by
  rw [total, sources, List.map_map]
  rfl

end Move

namespace Window

variable [AddMonoidWithOne A] [AddMonoidWithOne B] (w : Window B)

def place (pos : ℕ) : B := w.base + (pos % w.size : ℕ)

/-- How many of `len` cells are copied at once at position `pos`. -/
def step (pos len : ℕ) : ℕ := min (min len w.most) (w.size - pos % w.size)

omit [AddMonoidWithOne B] in
theorem step_bounds (pos : ℕ) {len : ℕ} (hlen : len ≠ 0) :
    0 < w.step pos len ∧ w.step pos len ≤ len ∧ w.step pos len ≤ w.most ∧ pos % w.size + w.step pos len ≤ w.size := by
  have hsize := Nat.mod_lt pos w.size_pos
  have hmost := w.most_pos
  rw [step]
  omega

/-- The copies of the `len` cells from `addr` on. -/
def cut (addr : A) (pos len : ℕ) : List (Move A B) :=
  if len = 0 then []
  else ⟨addr, w.place pos, w.step pos len⟩ :: cut (addr + w.step pos len) (pos + w.step pos len) (len - w.step pos len)
termination_by len
decreasing_by
  obtain ⟨hpos, hle, -⟩ := w.step_bounds pos ‹¬ len = 0›
  omega

/-- The copies of all pieces, one after the other. -/
def cutAll : ℕ → List (Piece A) → List (Move A B)
  | _, [] => []
  | pos, p :: ps => w.cut p.addr pos p.len ++ cutAll (pos + p.len) ps

theorem place_add {pos i : ℕ} (h : pos % w.size + i < w.size) : w.place (pos + i) = w.place pos + i := by
  rw [place, place, Nat.add_mod, Nat.mod_eq_of_lt (a := i) (by omega), Nat.mod_eq_of_lt h, Nat.cast_add, add_assoc]

theorem map_range_add {C : Type*} (f : ℕ → C) (m n : ℕ) :
    (List.range (m + n)).map f = (List.range m).map f ++ (List.range n).map fun i => f (m + i) := by
  rw [List.range_add, List.map_append, List.map_map]
  rfl

theorem sources_cut (addr : A) (pos len : ℕ) :
    addresses (Move.sources (w.cut addr pos len)) = (List.range len).map fun i : ℕ => addr + i := by
  fun_induction cut w addr pos len with
  | case1 => rfl
  | case2 addr pos len h ih =>
    obtain ⟨-, hle, -⟩ := w.step_bounds pos h
    have hsplit : len = w.step pos len + (len - w.step pos len) := by omega
    conv_rhs => rw [hsplit, map_range_add]
    rw [Move.sources, List.map_cons, addresses, List.flatMap_cons]
    refine congrArg _ (ih.trans (List.map_congr_left fun i _ => ?_))
    rw [Nat.cast_add, add_assoc]

theorem targets_cut (addr : A) (pos len : ℕ) :
    addresses (Move.targets (w.cut addr pos len)) = (List.range len).map fun i => w.place (pos + i) := by
  fun_induction cut w addr pos len with
  | case1 => rfl
  | case2 addr pos len h ih =>
    obtain ⟨-, hle, -, hin⟩ := w.step_bounds pos h
    have hsplit : len = w.step pos len + (len - w.step pos len) := by omega
    have hfirst : (List.range (w.step pos len)).map (fun i : ℕ => w.place pos + i) =
        (List.range (w.step pos len)).map fun i => w.place (pos + i) :=
      List.map_congr_left fun i hi => (w.place_add (by have := List.mem_range.mp hi; omega)).symm
    conv_rhs => rw [hsplit, map_range_add]
    rw [Move.targets, List.map_cons, addresses, List.flatMap_cons]
    refine congrArg₂ _ hfirst (ih.trans (List.map_congr_left fun i _ => ?_))
    rw [Nat.add_assoc]

theorem addresses_cutAll (pos : ℕ) (ps : List (Piece A)) :
    addresses (Move.sources (w.cutAll pos ps)) = addresses ps ∧
      addresses (Move.targets (w.cutAll pos ps)) = (List.range (total ps)).map fun i => w.place (pos + i) := by
  induction ps generalizing pos with
  | nil => exact ⟨rfl, rfl⟩
  | cons p ps ih =>
    obtain ⟨hs, ht⟩ := ih (pos + p.len)
    have hsources := w.sources_cut p.addr pos p.len
    have htargets := w.targets_cut p.addr pos p.len
    rw [addresses, Move.sources] at hs hsources
    rw [addresses, Move.targets] at ht htargets
    rw [cutAll, total_cons, map_range_add, addresses, Move.sources, addresses, Move.targets, addresses, List.map_append,
      List.flatMap_append, hs, hsources, List.map_append, List.flatMap_append, ht, htargets]
    refine ⟨rfl, congrArg _ (List.map_congr_left fun i _ => ?_)⟩
    rw [Nat.add_assoc]

theorem cut_of_le {addr : A} {pos len : ℕ} (hlen : len ≠ 0) (hmost : len ≤ w.most) (hin : pos % w.size + len ≤ w.size) :
    w.cut addr pos len = [⟨addr, w.place pos, len⟩] := by
  have hstep : w.step pos len = len := by
    rw [step]
    omega
  rw [cut, if_neg hlen, hstep, Nat.sub_self, cut, if_pos rfl]

theorem count_cut (addr : A) (pos len : ℕ) : Move.count (w.cut addr pos len) = len := by
  have h := congrArg List.length (w.sources_cut addr pos len)
  rwa [length_addresses, Move.total_sources, List.length_map, List.length_range] at h

theorem count_cutAll (pos : ℕ) (ps : List (Piece A)) : Move.count (w.cutAll pos ps) = total ps := by
  have h := congrArg List.length (w.addresses_cutAll pos ps).1
  rwa [length_addresses, length_addresses, Move.total_sources] at h

theorem length_cutAll_pos (pos : ℕ) {ps : List (Piece A)} (hps : ∀ p ∈ ps, 0 < p.len) (hne : ps ≠ []) :
    0 < (w.cutAll pos ps).length := by
  have hcount := w.count_cutAll pos ps
  apply List.length_pos_iff.mpr
  intro hnil
  rw [hnil] at hcount
  exact (total_pos hps hne).ne hcount

end Window

end Copying
