import Mathlib.Data.Nat.Notation
import Mathlib.Tactic.Common

namespace Clocked

variable {σ τ ι κ : Type*}

/-- `s t` is the register state in cycle `t`; the clock edge that ends a cycle consumes that
cycle's inputs. -/
def IsRun (step : ι → σ → σ) (inputs : ℕ → ι) (s : ℕ → σ) : Prop :=
  ∀ t, s (t + 1) = step (inputs t) (s t)

def run (step : ι → σ → σ) (s : σ) (inputs : ℕ → ι) : ℕ → σ
  | 0 => s
  | t + 1 => step (inputs t) (run step s inputs t)

variable {step : ι → σ → σ} {inputs : ℕ → ι} {s : ℕ → σ}

theorem isRun_run (step : ι → σ → σ) (s : σ) (inputs : ℕ → ι) : IsRun step inputs (run step s inputs) :=
  fun _ => rfl

namespace IsRun

theorem shift (h : IsRun step inputs s) (T : ℕ) :
    IsRun step (fun t => inputs (T + t)) (fun t => s (T + t)) := fun t => h (T + t)

theorem follows (h : IsRun step inputs s) (schedule : ℕ → σ) {T n : ℕ} (h0 : s T = schedule 0)
    (hs : ∀ u < n, step (inputs (T + u)) (schedule u) = schedule (u + 1)) :
    ∀ u ≤ n, s (T + u) = schedule u := by
  intro u hu
  induction u with
  | zero => exact h0
  | succ u ih => rw [← Nat.add_assoc, h, ih (by omega), hs u (by omega)]

end IsRun

end Clocked
