import Mathlib.Data.Nat.Init
import Mathlib.Tactic.Common

/-!
Operations on a clocked system that take any number of cycles each, and an abstract machine on which
they take effect at once.
-/

namespace Clocked

variable {ω α : Type*}

/-- Operations that follow each other in time: `quiet t` says that cycle `t` belongs to none, and
`occurs o t m` that `o` takes the cycles from `t` up to `m`. -/
inductive Session (quiet : ℕ → Prop) (occurs : ω → ℕ → ℕ → Prop) : ℕ → List ω → ℕ → Prop
  | done {t : ℕ} : Session quiet occurs t [] t
  | idle {t u : ℕ} {ops : List ω} (h : quiet t) (rest : Session quiet occurs (t + 1) ops u) :
      Session quiet occurs t ops u
  | op {o : ω} {t m u : ℕ} {ops : List ω} (h : occurs o t m) (rest : Session quiet occurs m ops u) :
      Session quiet occurs t (o :: ops) u

/-- An abstract machine. An operation carries its result; the machine says in which states the user
may do it, which results are right, and what it leaves behind. -/
structure Spec (α ω : Type*) where
  allowed : α → ω → Prop
  correct : α → ω → Prop
  next : α → ω → α

namespace Spec

variable (S : Spec α ω)

def run (a : α) (ops : List ω) : α := ops.foldl S.next a

def Disciplined : α → List ω → Prop
  | _, [] => True
  | a, o :: ops => S.allowed a o ∧ Disciplined (S.next a o) ops

def Correct : α → List ω → Prop
  | _, [] => True
  | a, o :: ops => S.correct a o ∧ Correct (S.next a o) ops

variable {S}

end Spec

namespace Session

variable {quiet : ℕ → Prop} {occurs : ω → ℕ → ℕ → Prop}

/-- What a quiet cycle and every allowed operation preserve, every disciplined session preserves, and
its results are right. -/
theorem simulates (S : Spec α ω) (sim : ℕ → α → Prop)
    (hquiet : ∀ t a, sim t a → quiet t → sim (t + 1) a)
    (hop : ∀ o t m a, sim t a → S.allowed a o → occurs o t m → S.correct a o ∧ sim m (S.next a o))
    {t u : ℕ} {ops : List ω} (h : Session quiet occurs t ops u) {a : α} (ha : sim t a)
    (hd : S.Disciplined a ops) : S.Correct a ops ∧ sim u (S.run a ops) := by
  induction h generalizing a with
  | done => exact ⟨trivial, ha⟩
  | idle hq _ ih => exact ih (hquiet _ _ ha hq) hd
  | op ho _ ih =>
    obtain ⟨hallowed, hd⟩ := hd
    obtain ⟨hcorrect, hsim⟩ := hop _ _ _ _ ha hallowed ho
    obtain ⟨hrest, hfinal⟩ := ih hsim hd
    exact ⟨⟨hcorrect, hrest⟩, hfinal⟩

theorem append {t m u : ℕ} {ops ops' : List ω} (h : Session quiet occurs t ops m)
    (h' : Session quiet occurs m ops' u) : Session quiet occurs t (ops ++ ops') u := by
  induction h with
  | done => exact h'
  | idle hq _ ih => exact .idle hq (ih h')
  | op ho _ ih => exact .op ho (ih h')

theorem split {t u : ℕ} {ops ops' : List ω} (h : Session quiet occurs t (ops ++ ops') u) :
    ∃ m, Session quiet occurs t ops m ∧ Session quiet occurs m ops' u := by
  generalize hall : ops ++ ops' = all at h
  induction h generalizing ops with
  | done =>
    obtain ⟨rfl, rfl⟩ := List.append_eq_nil_iff.mp hall
    exact ⟨_, .done, .done⟩
  | idle hq _ ih =>
    obtain ⟨m, h1, h2⟩ := ih hall
    exact ⟨m, .idle hq h1, h2⟩
  | op ho rest ih =>
    cases ops with
    | nil =>
      obtain rfl : ops' = _ := hall
      exact ⟨_, .done, .op ho rest⟩
    | cons o ops =>
      obtain ⟨rfl, htail⟩ := List.cons.inj hall
      obtain ⟨m, h1, h2⟩ := ih htail
      exact ⟨m, .op ho h1, h2⟩

theorem idles {t m u : ℕ} {ops : List ω} (hm : t ≤ m) (hq : ∀ v, t ≤ v → v < m → quiet v)
    (h : Session quiet occurs m ops u) : Session quiet occurs t ops u := by
  induction m, hm using Nat.le_induction with
  | base => exact h
  | succ m hm ih => exact ih (fun v h1 h2 => hq v h1 (by omega)) (.idle (hq m hm (Nat.lt_succ_self m)) h)

end Session

end Clocked
