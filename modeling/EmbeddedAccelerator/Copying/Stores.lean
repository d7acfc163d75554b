import Mathlib.Data.BitVec
import Mathlib.Data.List.Basic
import Mathlib.Tactic.Common

/-!
Copies between memories with arbitrary addresses and cells. A copy in pieces to consecutive addresses is one
store of all that the pieces hold.
-/

namespace Copying

variable {A B V : Type*}

structure Piece (A : Type*) where
  addr : A
  len : ℕ
  deriving DecidableEq, Repr

def total (ps : List (Piece A)) : ℕ := (ps.map Piece.len).sum

section Total

variable (p : Piece A) (ps qs : List (Piece A))

@[simp] theorem total_nil : total ([] : List (Piece A)) = 0 := rfl

@[simp] theorem total_cons : total (p :: ps) = p.len + total ps := rfl

@[simp] theorem total_append : total (ps ++ qs) = total ps + total qs := by simp [total]

theorem total_pos {ps : List (Piece A)} (hps : ∀ p ∈ ps, 0 < p.len) (hne : ps ≠ []) : 0 < total ps := by
  obtain ⟨p, ps, rfl⟩ := List.exists_cons_of_ne_nil hne
  exact Nat.add_pos_left (hps p List.mem_cons_self) (total ps)

end Total

variable [AddMonoidWithOne A] [AddMonoidWithOne B]

section Load

def load (m : A → V) (a : A) (n : ℕ) : List V := (List.range n).map fun i : ℕ => m (a + i)

variable (m : A → V) (a : A) (n k : ℕ)

@[simp] theorem length_load : (load m a n).length = n := by simp [load]

@[simp] theorem load_zero : load m a 0 = [] := rfl

theorem getElem_load {i : ℕ} (h : i < (load m a n).length) : (load m a n)[i] = m (a + i) := by simp [load]

theorem load_add : load m a (n + k) = load m a n ++ load m (a + n) k := by
  rw [load, List.range_add, List.map_append, List.map_map]
  congr 1
  apply List.map_congr_left
  intro i _
  rw [Function.comp_apply, Nat.cast_add, add_assoc]

theorem load_congr {m' : A → V} (h : ∀ i < n, m (a + i) = m' (a + i)) : load m a n = load m' a n := by
  apply List.map_congr_left
  intro i hi
  exact h i (List.mem_range.mp hi)

theorem load_eq_map : load m a n = ((List.range n).map fun i : ℕ => a + i).map m := (List.map_map).symm

end Load

section Store

variable [DecidableEq B]

/-- The values one after the other from address `b` on. -/
def store (m : B → V) (b : B) : List V → B → V
  | [] => m
  | v :: vs => store (Function.update m b v) (b + 1) vs

variable (m : B → V) (b : B)

theorem store_of_ne {vs : List V} {x : B} (h : ∀ i < vs.length, x ≠ b + i) : store m b vs x = m x := by
  induction vs generalizing m b with
  | nil => rfl
  | cons v vs ih =>
    have hb : x ≠ b := by
      have h0 := h 0 (Nat.succ_pos _)
      rwa [Nat.cast_zero, add_zero] at h0
    rw [store, ih, Function.update_of_ne hb]
    intro i hi
    have hsucc := h (i + 1) (Nat.succ_lt_succ hi)
    rwa [Nat.add_comm, Nat.cast_add, Nat.cast_one, ← add_assoc] at hsucc

/-- The addresses of a store are pairwise different. -/
def Distinct (b : B) (n : ℕ) : Prop := ∀ i < n, ∀ j < n, b + i = b + j → i = j

theorem store_apply {vs : List V} (hd : Distinct b vs.length) {i : ℕ} (hi : i < vs.length) :
    store m b vs (b + i) = vs[i] := by
  induction vs generalizing m b i with
  | nil => exact absurd hi (Nat.not_lt_zero i)
  | cons v vs ih =>
    have hshift (j : ℕ) : b + (j + 1 : ℕ) = b + 1 + j := by
      rw [Nat.add_comm, Nat.cast_add, Nat.cast_one, add_assoc]
    cases i with
    | zero =>
      rw [store, store_of_ne]
      · simp
      · intro j hj heq
        rw [← hshift] at heq
        exact absurd (hd 0 (Nat.succ_pos _) (j + 1) (Nat.succ_lt_succ hj) heq) (Nat.succ_ne_zero j).symm
    | succ i =>
      have htail : Distinct (b + 1) vs.length := by
        intro j hj k hk heq
        rw [← hshift, ← hshift] at heq
        exact Nat.succ_injective (hd _ (Nat.succ_lt_succ hj) _ (Nat.succ_lt_succ hk) heq)
      rw [store, hshift, ih _ _ htail (Nat.lt_of_succ_lt_succ hi)]
      rfl

theorem load_store {vs : List V} (hd : Distinct b vs.length) : load (store m b vs) b vs.length = vs := by
  apply List.ext_getElem (length_load _ _ _)
  intro i h1 h2
  rw [getElem_load, store_apply m b hd h2]

end Store

/-- What the pieces hold, one after the other. -/
def gather (m : A → V) (ps : List (Piece A)) : List V := ps.flatMap fun p => load m p.addr p.len

section Gather

variable (m : A → V) (p : Piece A) (ps qs : List (Piece A))

@[simp] theorem gather_nil : gather m [] = [] := rfl

@[simp] theorem gather_cons : gather m (p :: ps) = load m p.addr p.len ++ gather m ps := rfl

@[simp] theorem gather_append : gather m (ps ++ qs) = gather m ps ++ gather m qs := List.flatMap_append

@[simp] theorem length_gather : (gather m ps).length = total ps := by
  induction ps with
  | nil => rfl
  | cons p ps ih => simp [ih]

end Gather

def addresses (ps : List (Piece A)) : List A := ps.flatMap fun p => (List.range p.len).map fun i : ℕ => p.addr + i

theorem gather_eq_map (m : A → V) (ps : List (Piece A)) : gather m ps = (addresses ps).map m := by
  rw [gather, addresses, List.map_flatMap]
  exact List.flatMap_congr fun p _ => load_eq_map m p.addr p.len

@[simp] theorem length_addresses (ps : List (Piece A)) : (addresses ps).length = total ps := by
  induction ps with
  | nil => rfl
  | cons p ps ih => simp [addresses] at ih ⊢; omega

/-- A copy of `len` cells. -/
structure Move (A B : Type*) where
  src : A
  dst : B
  len : ℕ
  deriving DecidableEq, Repr

namespace Move

section Exec

variable [DecidableEq B]

def exec (source : A → V) (m : B → V) (x : Move A B) : B → V := store m x.dst (load source x.src x.len)

def execAll (source : A → V) (m : B → V) (xs : List (Move A B)) : B → V := xs.foldl (exec source) m

end Exec

/-- The moves from consecutive addresses to the pieces. -/
def away (b : B) : List (Piece A) → List (Move B A)
  | [] => []
  | p :: ps => ⟨b, p.addr, p.len⟩ :: away (b + p.len) ps

section Away

variable [DecidableEq A] (source : B → V) (m : A → V) (b : B) {ps : List (Piece A)}

theorem execAll_away_of_notMem {x : A} (h : x ∉ addresses ps) : execAll source m (away b ps) x = m x := by
  induction ps generalizing m b with
  | nil => rfl
  | cons p ps ih =>
    rw [addresses, List.flatMap_cons, List.mem_append, not_or] at h
    rw [away, execAll, List.foldl_cons]
    refine (ih _ _ h.2).trans (store_of_ne _ _ fun i hi heq => h.1 ?_)
    rw [length_load] at hi
    exact List.mem_map.mpr ⟨i, List.mem_range.mpr hi, heq.symm⟩

theorem gather_execAll_away (h : (addresses ps).Nodup) :
    gather (execAll source m (away b ps)) ps = load source b (total ps) := by
  induction ps generalizing m b with
  | nil => rfl
  | cons p ps ih =>
    rw [addresses, List.flatMap_cons, List.nodup_append'] at h
    obtain ⟨hp, hps, hdisjoint⟩ := h
    have hdistinct : Distinct p.addr (load source b p.len).length := by
      intro i hi j hj heq
      rw [length_load] at hi hj
      exact List.inj_on_of_nodup_map hp (List.mem_range.mpr hi) (List.mem_range.mpr hj) heq
    have hfirst : load (execAll source (store m p.addr (load source b p.len)) (away (b + p.len) ps)) p.addr p.len =
        load source b p.len := by
      have hload := load_store m p.addr hdistinct
      rw [length_load] at hload
      refine (load_congr _ _ _ fun i hi => ?_).trans hload
      exact execAll_away_of_notMem _ _ _ fun hmem =>
        hdisjoint (List.mem_map.mpr ⟨i, List.mem_range.mpr hi, rfl⟩) hmem
    rw [away, execAll, List.foldl_cons, gather_cons, total_cons, load_add]
    exact congrArg₂ _ hfirst (ih _ _ hps)

theorem execAll_flatMap_away {pss : List (List (Piece A))} (h : (pss.flatMap addresses).Nodup) :
    let m' := execAll source m (pss.flatMap (away b))
    (∀ x ∉ pss.flatMap addresses, m' x = m x) ∧ ∀ ps ∈ pss, gather m' ps = load source b (total ps) := by
  induction pss generalizing m with
  | nil => exact ⟨fun _ _ => rfl, fun ps hps => absurd hps List.not_mem_nil⟩
  | cons ps pss ih =>
    rw [List.flatMap_cons, List.nodup_append'] at h
    obtain ⟨hps, hpss, hdisjoint⟩ := h
    obtain ⟨hother, hgather⟩ := ih (execAll source m (away b ps)) hpss
    have hsplit : execAll source m ((ps :: pss).flatMap (away b)) =
        execAll source (execAll source m (away b ps)) (pss.flatMap (away b)) := List.foldl_append
    rw [hsplit]
    refine ⟨fun x hx => ?_, fun qs hqs => ?_⟩
    · rw [List.flatMap_cons, List.mem_append, not_or] at hx
      exact (hother x hx.2).trans (execAll_away_of_notMem _ _ _ hx.1)
    · obtain rfl | hqs := List.mem_cons.mp hqs
      · rw [← gather_execAll_away source m b hps, gather_eq_map, gather_eq_map]
        apply List.map_congr_left
        intro x hx
        exact hother x fun hmem => hdisjoint hx hmem
      · exact hgather qs hqs

end Away

end Move

end Copying
