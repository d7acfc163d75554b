import Mathlib.Data.ENat.Basic
import Mathlib.Data.Nat.Count
import Mathlib.Data.Nat.Find
import Mathlib.Data.Nat.Notation
import Mathlib.Tactic.Common

namespace Clocked

theorem count_pulse {pulse : ℕ → Prop} [DecidablePred pulse] {a n e u : ℕ}
    (h : ∀ u < n, pulse (a + u) ↔ u = e) (hu : u ≤ n) :
    Nat.count pulse (a + u) = Nat.count pulse a + if e < u then 1 else 0 := by
  induction u with
  | zero => rw [if_neg (Nat.not_lt_zero e), Nat.add_zero, Nat.add_zero]
  | succ u ih =>
    rw [← Nat.add_assoc, Nat.count_succ, ih (by omega), Nat.add_assoc]
    congr 1
    by_cases he : u = e
    · rw [if_pos ((h u hu).mpr he), if_neg (by omega), if_pos (by omega)]
    · rw [if_neg fun hp => he ((h u hu).mp hp)]
      by_cases hlt : e < u
      · rw [if_pos hlt, if_pos (by omega)]
      · rw [if_neg hlt, if_neg (by omega)]

theorem count_eq_zero {pulse : ℕ → Prop} [DecidablePred pulse] {a : ℕ} (h : ∀ u < a, ¬ pulse u) :
    Nat.count pulse a = 0 := by
  induction a with
  | zero => rfl
  | succ a ih => rw [Nat.count_succ, if_neg (h a (Nat.lt_succ_self a)), ih fun u hu => h u (by omega)]

/-- An `opening` pulse only meets a closed interval, a `closing` pulse only an open one. -/
structure Alternates (opening closing isOpen : ℕ → Prop) : Prop where
  meets_closed : ∀ t, opening t → ¬ isOpen t
  meets_open : ∀ t, closing t → isOpen t
  next : ∀ t, isOpen (t + 1) ↔ opening t ∨ (isOpen t ∧ ¬ closing t)

namespace Alternates

variable {opening closing isOpen : ℕ → Prop} (h : Alternates opening closing isOpen) {t₁ t₂ : ℕ}
include h

theorem open_until (h1 : isOpen t₁) (hn : ∀ t, t₁ ≤ t → t < t₂ → ¬ closing t) :
    ∀ t, t₁ ≤ t → t ≤ t₂ → isOpen t := by
  intro t ht
  induction t, ht using Nat.le_induction with
  | base => exact fun _ => h1
  | succ t ht ih => exact fun hle => (h.next t).mpr (.inr ⟨ih (by omega), hn t ht hle⟩)

theorem closed_until (h1 : ¬ isOpen t₁) (hn : ∀ t, t₁ ≤ t → t < t₂ → ¬ opening t) :
    ∀ t, t₁ ≤ t → t ≤ t₂ → ¬ isOpen t := by
  intro t ht
  induction t, ht using Nat.le_induction with
  | base => exact fun _ => h1
  | succ t ht ih =>
    intro hle hopen
    rcases (h.next t).mp hopen with h2 | ⟨h2, -⟩
    · exact hn t ht hle h2
    · exact ih (by omega) h2

theorem closed_after (t : ℕ) (hc : closing t) : ¬ isOpen (t + 1) := by
  rw [h.next]
  rintro (h1 | ⟨-, h1⟩)
  · exact h.meets_closed t h1 (h.meets_open t hc)
  · exact h1 hc

theorem exists_closing (h12 : t₁ < t₂) (h1 : opening t₁) (h2 : ¬ isOpen t₂) :
    ∃ t, t₁ < t ∧ t < t₂ ∧ closing t ∧ ∀ x, t₁ < x → x ≤ t → isOpen x := by
  classical
  have hopen : isOpen (t₁ + 1) := (h.next t₁).mpr (.inl h1)
  have hex : ∃ t, t₁ < t ∧ t < t₂ ∧ closing t := by
    by_contra hne
    push Not at hne
    exact h2 (h.open_until hopen (fun t ht ht' => hne t ht ht') t₂ h12 le_rfl)
  obtain ⟨ht1, ht2, hc⟩ := Nat.find_spec hex
  refine ⟨Nat.find hex, ht1, ht2, hc, h.open_until hopen fun t ht ht' hc' => ?_⟩
  exact Nat.find_min hex ht' ⟨ht, by omega, hc'⟩

theorem existsUnique_closing (h12 : t₁ < t₂) (h1 : opening t₁) (h2 : opening t₂)
    (hn : ∀ t, t₁ < t → t < t₂ → ¬ opening t) : ∃! t, t₁ < t ∧ t < t₂ ∧ closing t := by
  obtain ⟨t, ht1, ht2, hc, hopen⟩ := h.exists_closing h12 h1 (h.meets_closed t₂ h2)
  refine ⟨t, ⟨ht1, ht2, hc⟩, fun u ⟨hu1, hu2, hu⟩ => ?_⟩
  by_contra hne
  rcases Nat.lt_or_gt_of_ne hne with hlt | hlt
  · exact h.closed_after u hu (hopen (u + 1) (by omega) hlt)
  · exact h.closed_until (h.closed_after t hc) (fun x hx (hx' : x < t₂) => hn x (by omega) hx') u hlt
      (Nat.le_of_lt hu2) (h.meets_open u hu)

end Alternates

/-- The pulses are in the cycles `t 0 < t 1 < …`, and there are `n` of them. -/
structure Train (pulse : ℕ → Prop) (t : ℕ → ℕ) (n : ℕ∞) : Prop where
  pulse_iff : ∀ u, pulse u ↔ ∃ p : ℕ, p < n ∧ u = t p
  lt_succ : ∀ p : ℕ, (p + 1 : ℕ) < n → t p < t (p + 1)

namespace Train

/-- Cycle `u` comes after pulse `p` and not after the next one. -/
structure Within (t : ℕ → ℕ) (n : ℕ∞) (p u : ℕ) : Prop where
  lt : p < n
  after : t p < u
  before : (p + 1 : ℕ) < n → u ≤ t (p + 1)

theorem lt_of_lt {n : ℕ∞} {p q : ℕ} (hpq : p < q) (hq : q < n) : p < n :=
  (Nat.cast_lt.mpr hpq).trans hq

variable {pulse : ℕ → Prop} {t : ℕ → ℕ} {n : ℕ∞} (h : Train pulse t n)
include h

theorem strictMono {p q : ℕ} (hpq : p < q) (hq : q < n) : t p < t q := by
  induction q, hpq using Nat.le_induction with
  | base => exact h.lt_succ p hq
  | succ q hpq ih => exact (ih (lt_of_lt (Nat.lt_succ_self q) hq)).trans (h.lt_succ q hq)

theorem le_of_le {p q : ℕ} (hpq : p ≤ q) (hq : q < n) : t p ≤ t q := by
  obtain rfl | hlt := hpq.eq_or_lt
  · exact le_rfl
  · exact (h.strictMono hlt hq).le

theorem not_pulse {p u : ℕ} (hp : p < n) (ha : t p < u) (hb : (p + 1 : ℕ) < n → u < t (p + 1)) :
    ¬ pulse u := by
  intro hpulse
  obtain ⟨q, hq, rfl⟩ := (h.pulse_iff u).mp hpulse
  have hpq : p < q := by
    by_contra hle
    have := h.le_of_le (Nat.le_of_not_lt hle) hp
    omega
  have hle := h.le_of_le (p := p + 1) hpq hq
  have hlt := hb (lt_of_le_of_lt (Nat.cast_le.mpr hpq) hq)
  omega

theorem not_pulse_before {u : ℕ} (hu : ∀ p : ℕ, p < n → u < t p) : ¬ pulse u := by
  intro hpulse
  obtain ⟨p, hp, rfl⟩ := (h.pulse_iff u).mp hpulse
  exact lt_irrefl _ (hu p hp)

theorem pulse_add_iff {p u : ℕ} (hp : p < n) (hb : (p + 1 : ℕ) < n → t p + u < t (p + 1)) :
    pulse (t p + u) ↔ u = 0 := by
  constructor
  · intro hpulse
    by_contra hu
    exact h.not_pulse hp (by omega) hb hpulse
  · rintro rfl
    exact (h.pulse_iff (t p)).mpr ⟨p, hp, rfl⟩

theorem located (u : ℕ) : (∀ p : ℕ, p < n → u ≤ t p) ∨ ∃ p, Within t n p u := by
  induction u with
  | zero => exact .inl fun p _ => Nat.zero_le _
  | succ u ih =>
    rcases ih with ih | ⟨p, hp⟩
    · by_cases hbefore : ∀ p : ℕ, p < n → u + 1 ≤ t p
      · exact .inl hbefore
      · push Not at hbefore
        obtain ⟨p, hp, hlt⟩ := hbefore
        refine .inr ⟨p, hp, hlt, fun hp1 => ?_⟩
        have h1 := ih p hp
        have h2 := h.lt_succ p hp1
        omega
    · right
      by_cases hnext : (p + 1 : ℕ) < n ∧ u = t (p + 1)
      · refine ⟨p + 1, hnext.1, by omega, fun hp2 => ?_⟩
        have h2 := h.lt_succ (p + 1) hp2
        omega
      · refine ⟨p, hp.lt, Nat.lt_succ_of_lt hp.after, fun hp1 => ?_⟩
        have h1 := hp.before hp1
        have h2 : u ≠ t (p + 1) := fun he => hnext ⟨hp1, he⟩
        omega

end Train

end Clocked
