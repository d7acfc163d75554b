import Mathlib.Data.List.Nodup
import Mathlib.Tactic.Common

/-!
Clocked processes that share registers. The processes of one edge are executed one after the other;
a blocking assignment is seen by the processes after it, the nonblocking ones are done at the end.
-/

namespace Clocked

variable {σ ι : Type*} {α : ι → Type*}

/-- From the registers it sees, a process gives the registers the next process sees, and the
nonblocking assignments it leaves behind. -/
abbrev Process (σ : Type*) := σ → σ × (σ → σ)

namespace Process

def exec : List (Process σ) → Process σ
  | [] => fun s => (s, id)
  | p :: ps => fun s => ((exec ps (p s).1).1, (exec ps (p s).1).2 ∘ (p s).2)

/-- The registers after the edge. -/
def edge (P : ι → Process σ) (order : List ι) (s : σ) : σ :=
  (exec (order.map P) s).2 (exec (order.map P) s).1

/-- The registers that process `i` sees. -/
def seen [DecidableEq ι] (P : ι → Process σ) : List ι → ι → σ → σ
  | [], _, s => s
  | k :: order, i, s => if k = i then s else seen P order i (P k s).1

/-- Every process is executed once. -/
structure Schedule (order : List ι) : Prop where
  nodup : order.Nodup
  mem : ∀ i, i ∈ order

section Single

variable [DecidableEq ι] {P : ι → Process σ} {k : ι} (hP : ∀ j ≠ k, ∀ s, (P j s).1 = s) {order : List ι}
include hP

theorem seen_of_not_mem (hk : k ∉ order) (i : ι) (s : σ) : seen P order i s = s := by
  induction order with
  | nil => rfl
  | cons j order ih =>
    obtain ⟨hj, ho⟩ := List.ne_and_not_mem_of_not_mem_cons hk
    rw [seen, hP j (Ne.symm hj), ih ho, ite_self]

theorem seen_cases (hn : order.Nodup) (i : ι) (s : σ) :
    seen P order i s = s ∨ i ≠ k ∧ seen P order i s = (P k s).1 := by
  induction order with
  | nil => exact .inl rfl
  | cons j order ih =>
    obtain ⟨hj, ho⟩ := List.nodup_cons.mp hn
    rw [seen]
    split_ifs with hji
    · exact .inl rfl
    · by_cases hjk : j = k
      · subst hjk
        exact .inr ⟨Ne.symm hji, seen_of_not_mem hP hj i _⟩
      · rw [hP j hjk]
        exact ih ho

theorem seen_cons_self (hk : k ∉ order) {i : ι} (hi : i ≠ k) (s : σ) :
    seen P (k :: order) i s = (P k s).1 := by
  rw [seen, if_neg (Ne.symm hi), seen_of_not_mem hP hk]

end Single

end Process

/-- The registers `σ` in parts, one for each process. -/
structure Parts (σ : Type*) (α : ι → Type*) where
  get : ∀ i, σ → α i
  put : ∀ i, α i → σ → σ
  ext : ∀ {s t}, (∀ i, get i s = get i t) → s = t
  get_put : ∀ i a s, get i (put i a s) = a
  get_put_of_ne : ∀ {i j}, i ≠ j → ∀ a s, get j (put i a s) = get j s

namespace Parts

open Process (edge exec seen Schedule)

/-- A process that reads all registers and assigns to those of its part. -/
def process (L : Parts σ α) (f : ∀ i, σ → α i × (α i → α i)) (i : ι) : Process σ := fun s =>
  (L.put i (f i s).1 s, fun t => L.put i ((f i s).2 (L.get i t)) t)

/-- The part of a process after its own assignments. -/
def settled (f : ∀ i, σ → α i × (α i → α i)) (i : ι) (s : σ) : α i := (f i s).2 (f i s).1

variable {L : Parts σ α} {f : ∀ i, σ → α i × (α i → α i)} {order : List ι} {i : ι}

theorem get_exec_of_not_mem (hi : i ∉ order) (s : σ) :
    L.get i (exec (order.map (L.process f)) s).1 = L.get i s ∧
      ∀ t, L.get i ((exec (order.map (L.process f)) s).2 t) = L.get i t := by
  induction order generalizing s with
  | nil => exact ⟨rfl, fun _ => rfl⟩
  | cons k order ih =>
    obtain ⟨hk, ho⟩ := List.ne_and_not_mem_of_not_mem_cons hi
    obtain ⟨hv, hu⟩ := ih ho (L.process f k s).1
    exact ⟨hv.trans (L.get_put_of_ne (Ne.symm hk) _ s), fun t =>
      (hu _).trans (L.get_put_of_ne (Ne.symm hk) _ t)⟩

theorem get_exec_congr (order : List ι) (s : σ) {t t' : σ} (ht : L.get i t = L.get i t') :
    L.get i ((exec (order.map (L.process f)) s).2 t) =
      L.get i ((exec (order.map (L.process f)) s).2 t') := by
  induction order generalizing s t t' with
  | nil => exact ht
  | cons k order ih =>
    refine ih (L.process f k s).1 ?_
    by_cases hk : k = i
    · subst hk
      simp only [process, L.get_put, ht]
    · simp only [process, L.get_put_of_ne hk, ht]

variable [DecidableEq ι]

theorem get_edge (hn : order.Nodup) (hi : i ∈ order) (s : σ) :
    L.get i (edge (L.process f) order s) = settled f i (seen (L.process f) order i s) := by
  induction order generalizing s with
  | nil => exact absurd hi List.not_mem_nil
  | cons k order ih =>
    obtain ⟨hk, ho⟩ := List.nodup_cons.mp hn
    rw [seen]
    split_ifs with hki
    · subst hki
      obtain ⟨hv, hu⟩ := get_exec_of_not_mem (L := L) (f := f) hk (L.process f k s).1
      rw [process, L.get_put, ← process] at hv
      exact (hu _).trans ((L.get_put k _ _).trans (congrArg (f k s).2 hv))
    · have hmem : i ∈ order := (List.mem_cons.mp hi).resolve_left (Ne.symm hki)
      rw [← ih ho hmem (L.process f k s).1]
      exact get_exec_congr order _ (L.get_put_of_ne hki _ _)

/-- If no process reads what the blocking assignments of another one change, then the order does
not count. -/
theorem edge_eq_of_unseen {step : σ → σ} (hs : Schedule order) (s : σ)
    (hunseen : ∀ i j, i ≠ j → ∀ t, settled f i (L.process f j t).1 = settled f i t)
    (hstep : ∀ i, settled f i s = L.get i (step s)) : edge (L.process f) order s = step s := by
  have hseen (i : ι) (ks : List ι) (t : σ) :
      settled f i (seen (L.process f) ks i t) = settled f i t := by
    induction ks generalizing t with
    | nil => rfl
    | cons k ks ih =>
      rw [seen]
      split_ifs with hk
      · rfl
      · rw [ih, hunseen i k (Ne.symm hk)]
  exact L.ext fun i => by rw [get_edge hs.nodup (hs.mem i), hseen, hstep]

end Parts

end Clocked
