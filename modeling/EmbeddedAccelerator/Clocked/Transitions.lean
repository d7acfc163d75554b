import Mathlib.Data.List.Basic
import Mathlib.Tactic.Common

namespace Clocked

variable {σ ε : Type*}

/-- The steps with the labels `es` lead from one state to the other. -/
inductive Path (step : σ → ε → σ → Prop) : σ → List ε → σ → Prop
  | nil {s : σ} : Path step s [] s
  | cons {s m t : σ} {a : ε} {es : List ε} (h : step s a m) (rest : Path step m es t) : Path step s (a :: es) t

namespace Path

variable {step : σ → ε → σ → Prop} {s t : σ} {es : List ε}

theorem mono {step' : σ → ε → σ → Prop} (hstep : ∀ s a t, step s a t → step' s a t) (h : Path step s es t) :
    Path step' s es t := by
  induction h with
  | nil => exact .nil
  | cons ha _ ih => exact .cons (hstep _ _ _ ha) ih

theorem invariant {p : σ → Prop} (hstep : ∀ s a t, p s → step s a t → p t) (h : Path step s es t) (hs : p s) : p t := by
  induction h with
  | nil => exact hs
  | cons ha _ ih => exact ih (hstep _ _ _ hs ha)

theorem length_le {p : σ → Prop} (bound : σ → ℕ) (hstep : ∀ s a t, p s → step s a t → p t ∧ bound t < bound s)
    (h : Path step s es t) (hs : p s) : es.length + bound t ≤ bound s := by
  induction h with
  | nil => simp
  | cons ha _ ih =>
    obtain ⟨hm, hlt⟩ := hstep _ _ _ hs ha
    have hle := ih hm
    rw [List.length_cons]
    omega

end Path

end Clocked
