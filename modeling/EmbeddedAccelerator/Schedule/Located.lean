import EmbeddedAccelerator.Schedule.Aligned

namespace EmbeddedAccelerator.MatrixMultiply

open GatherC (Cursor)

variable {P : Params} {c : ℕ → Control} {start : ℕ → Bool}

/-- The controllers run without a reset. -/
abbrev ControlRun (P : Params) (start : ℕ → Bool) (c : ℕ → Control) : Prop :=
  Clocked.IsRun (controlStep P false) start c

section Pass

variable {T : ℕ} {x : Pass} {fin : Bool}

theorem pass_schedule (hP : P.Fits) (hc : ControlRun P start c) (hx : x.Valid P)
    (hT : c T = passAt P x fin 0) : ∀ u ≤ x.endTime P, c (T + u) = passAt P x fin u :=
  hc.follows (passAt P x fin) hT (fun _ hu => passAt_step hP _ hx fin hu)

theorem pass_next (hP : P.Fits) (hc : ControlRun P start c) (hx : x.Valid P)
    (hT : c T = passAt P x fin 0) :
    c (T + (x.endTime P + 1)) =
      if x.IsLast P then idleAt P (x.next P) true else passAt P (x.next P) false 0 := by
  rw [← Nat.add_assoc, hc, pass_schedule hP hc hx hT _ le_rfl, passAt_end hP _ hx]

end Pass

/-- Where a run stands in cycle `t`, with `Q T b` known of the pass for block `b` that began in
cycle `T`. -/
inductive Located (P : Params) (c : ℕ → Control) (Q : ℕ → Cursor → Prop) (t : ℕ) : Prop
  | power (h : c t = (powerOn P).control)
  | idle (fin : Bool) (h : c t = idleAt P (aligned ⟨0, 0⟩) fin)
  | pass (T u : ℕ) (b : Cursor) (fin : Bool) (ht : t = T + u) (hu : u ≤ (aligned b).endTime P)
      (hb : b.Valid P) (hQ : Q T b) (hT : c T = passAt P (aligned b) fin 0)

theorem powerOn_step (st : Bool) :
    controlStep P false st (powerOn P).control =
      if st then passAt P (aligned ⟨0, 0⟩) false 0 else idleAt P (aligned ⟨0, 0⟩) false := by
  cases st <;> rfl

theorem located (hP : P.Fits) (hsq : P.Square) (hc : ControlRun P start c)
    (h0 : c 0 = (powerOn P).control) {Q : ℕ → Cursor → Prop}
    (hfirst : ∀ T fin, c T = passAt P (aligned ⟨0, 0⟩) fin 0 → Q T ⟨0, 0⟩)
    (hnext : ∀ T b fin, b.Valid P → Q T b → c T = passAt P (aligned b) fin 0 →
      ¬ (aligned b).IsLast P → Q (T + ((aligned b).endTime P + 1)) (b.advance P)) (t : ℕ) :
    Located P c Q t := by
  have begin_pass {t : ℕ} {fin : Bool} (h : c t = passAt P (aligned ⟨0, 0⟩) fin 0) : Located P c Q t :=
    .pass t 0 ⟨0, 0⟩ fin rfl (Nat.zero_le _) (zero_valid hP) (hfirst t fin h) h
  induction t with
  | zero => exact .power h0
  | succ t ih =>
    cases ih with
    | power h =>
      have hs := hc t
      rw [h, powerOn_step] at hs
      cases hst : start t
      · rw [hst] at hs
        exact .idle false hs
      · rw [hst] at hs
        exact begin_pass hs
    | idle fin h =>
      have hs := hc t
      rw [h, idleAt_step _ _ ⟨rfl, rfl⟩] at hs
      cases hst : start t
      · rw [hst] at hs
        exact .idle false hs
      · rw [hst] at hs
        exact begin_pass hs
    | pass T u b fin ht hu hb hQ hT =>
      by_cases hlt : u < (aligned b).endTime P
      · exact .pass T (u + 1) b fin (by omega) hlt hb hQ hT
      · have hn := pass_next hP hc (aligned_valid hP hb) hT
        rw [aligned_next hP hsq hb, show T + ((aligned b).endTime P + 1) = t + 1 by omega] at hn
        by_cases hl : (aligned b).IsLast P
        · rw [if_pos hl] at hn
          have hz : b.advance P = ⟨0, 0⟩ := by
            obtain ⟨hr, hcol⟩ := (aligned_isLast hP hsq b).mp hl
            rw [Cursor.advance, if_pos hr, if_pos hcol]
          rw [hz] at hn
          exact .idle true hn
        · rw [if_neg hl] at hn
          have hq := hnext T b fin hb hQ hT hl
          rw [show T + ((aligned b).endTime P + 1) = t + 1 by omega] at hq
          exact .pass (t + 1) 0 (b.advance P) false rfl (Nat.zero_le _) (Cursor.advance_valid hb) hq hn

end EmbeddedAccelerator.MatrixMultiply
