import EmbeddedAccelerator.Clocked.Pulses
import EmbeddedAccelerator.Clocked.Run
import EmbeddedAccelerator.Datapath.Result

namespace EmbeddedAccelerator.GatherC

open Clocked (Train)
open MatrixMultiply (blockAt)

variable {P : Params}

/-- `IDLE`, as a reset or the end of the last group leaves it. -/
structure Quiet (x : Control) : Prop where
  gather : x.gather = ⟨.idle, false, 0, 0, 0, false⟩
  bram : x.bram.bramState = .idle

/-- The passes begin in the cycles `t 0 < t 1 < …`, each but the first one strictly after the
`gather_done` of the one before. -/
structure Schedule (startCal : ℕ → Bool) (c : ℕ → Control) (t : ℕ → ℕ) (n : ℕ∞) : Prop where
  pulse_iff : ∀ u, startCal u = true ↔ ∃ p : ℕ, p < n ∧ u = t p
  done : ∀ p : ℕ, (p + 1 : ℕ) < n → ∃ d, t p < d ∧ d < t (p + 1) ∧ gatherDone (c d) = true

theorem Schedule.train {startCal : ℕ → Bool} {c : ℕ → Control} {t : ℕ → ℕ} {n : ℕ∞}
    (h : Schedule startCal c t n) : Train (fun u => startCal u = true) t n where
  pulse_iff := h.pulse_iff
  lt_succ p hp := by
    obtain ⟨d, h1, h2, -⟩ := h.done p hp
    exact h1.trans h2

theorem quiet_ready : Quiet (ready ⟨0, 0⟩) := ⟨rfl, rfl⟩

theorem gatherDone_quiet {x : Control} (hx : Quiet x) : gatherDone x = false := by
  rw [gatherDone, hx.gather, hx.bram]
  rfl

theorem bramWeC_quiet {x : Control} (hx : Quiet x) : bramWeC x = false := by
  rw [bramWeC, hx.bram]
  rfl

theorem step_quiet (startCal : Bool) {x : Control} (hx : Quiet x) :
    controlStep P false startCal x = if startCal then gatheringAt ⟨0, 0⟩ 0 else ready ⟨0, 0⟩ := by
  have hb := hx.bram
  cases startCal <;>
    simp [controlStep, bramProcess, gatherProcess, hx.gather, hb, gatheringAt, ready]

theorem step_done {b : Cursor} {k : ℕ} (hk : doneTime P b < k) :
    controlStep P false true (gatherAt P b k) = gatheringAt (b.advance P) 0 := by
  rw [gatherAt_ready hk, step_ready]
  rfl

section Control

variable {startCal : ℕ → Bool} {c : ℕ → Control} {t : ℕ → ℕ} {n : ℕ∞} (hP : P.Fits)
  (hc : Clocked.IsRun (controlStep P false) startCal c) (h0 : Quiet (c 0))
  (hs : Schedule startCal c t n)
include hc h0 hs

theorem quiet_before {u : ℕ} (hu : ∀ p : ℕ, p < n → u ≤ t p) : Quiet (c u) := by
  induction u with
  | zero => exact h0
  | succ u ih =>
    have hlow : startCal u = false := Bool.eq_false_iff.mpr (hs.train.not_pulse_before hu)
    have hq := ih (fun p hp => (Nat.lt_of_succ_le (hu p hp)).le)
    rw [hc, step_quiet _ hq, hlow]
    exact quiet_ready

include hP

theorem control_pass (p : ℕ) (hp : p < n) :
    ∀ k, 0 < k → ((p + 1 : ℕ) < n → t p + k ≤ t (p + 1)) →
      c (t p + k) = gatherAt P (blockAt P p) k := by
  have hpulse : startCal (t p) = true := (hs.pulse_iff (t p)).mpr ⟨p, hp, rfl⟩
  have hopen : c (t p + 1) = gatheringAt (blockAt P p) 0 := by
    cases p with
    | zero =>
      have hq : Quiet (c (t 0)) := quiet_before hc h0 hs fun q hq => hs.train.le_of_le (Nat.zero_le q) hq
      rw [hc, step_quiet _ hq, hpulse]
      rfl
    | succ p =>
      have hp' := Train.lt_of_lt (Nat.lt_succ_self p) hp
      have hpass := control_pass p hp'
      obtain ⟨d, h1, h2, hd⟩ := hs.done p hp
      obtain ⟨k, rfl⟩ : ∃ k, d = t p + k := ⟨d - t p, by omega⟩
      rw [hpass k (by omega) (fun _ => by omega), gatherDone_gatherAt, decide_eq_true_eq] at hd
      obtain ⟨k', hk'⟩ : ∃ k', t (p + 1) = t p + k' := ⟨t (p + 1) - t p, by omega⟩
      have hnext := hpass k' (by omega) (fun _ => by omega)
      rw [hc, hpulse, hk', hnext, step_done (by omega)]
      rfl
  intro k hk hb
  have hfollow := hc.follows (fun u => gatherAt P (blockAt P p) (u + 1)) (T := t p + 1) (n := k - 1)
    (by rw [hopen]; exact (gatherAt_gathering P _ (Nat.zero_le _)).symm)
    (fun u hu => by
      have hlow : startCal (t p + 1 + u) = false := by
        apply Bool.eq_false_iff.mpr
        intro hhigh
        rw [Nat.add_assoc] at hhigh
        have hu0 := (hs.train.pulse_add_iff hp (fun hp1 => by have hle := hb hp1; omega)).mp hhigh
        omega
      have hstep := gatherAt_step hP.ay_lt hP.ay_pos (MatrixMultiply.blockAt_valid hP p) (u + 1)
      rw [decide_eq_false (Nat.succ_ne_zero u)] at hstep
      rw [hlow]
      exact hstep) (k - 1) le_rfl
  rwa [show t p + 1 + (k - 1) = t p + k by omega, show k - 1 + 1 = k by omega] at hfollow

theorem done_before_next {p : ℕ} (hp : (p + 1 : ℕ) < n) :
    t p + doneTime P (blockAt P p) < t (p + 1) := by
  have hp' := Train.lt_of_lt (Nat.lt_succ_self p) hp
  obtain ⟨d, h1, h2, hd⟩ := hs.done p hp
  obtain ⟨k, rfl⟩ : ∃ k, d = t p + k := ⟨d - t p, by omega⟩
  rw [control_pass hP hc h0 hs p hp' k (by omega) (fun _ => by omega), gatherDone_gatherAt,
    decide_eq_true_eq] at hd
  omega

theorem within_pass {p : ℕ} (hp : p < n) {k : ℕ} (hk0 : 0 < k) (hk : k ≤ doneTime P (blockAt P p)) :
    Train.Within t n p (t p + k) := by
  refine ⟨hp, by omega, fun hp1 => ?_⟩
  have hlt := done_before_next hP hc h0 hs hp1
  omega

theorem control_during {p : ℕ} (hp : p < n) (k : ℕ) (hk0 : 0 < k) (hk : k ≤ doneTime P (blockAt P p)) :
    c (t p + k) = gatherAt P (blockAt P p) k :=
  control_pass hP hc h0 hs p hp k hk0 (within_pass hP hc h0 hs hp hk0 hk).before

theorem pass_iff {f : Control → Prop} (hquiet : ∀ x, Quiet x → ¬ f x) {g : ℕ → ℕ → Prop}
    (hf : ∀ p k, 0 < k → (f (gatherAt P (blockAt P p) k) ↔ g p k))
    (hg : ∀ p k, g p k → 0 < k ∧ k ≤ doneTime P (blockAt P p)) (u : ℕ) :
    f (c u) ↔ ∃ p : ℕ, p < n ∧ ∃ k, g p k ∧ u = t p + k := by
  constructor
  · intro hu
    rcases hs.train.located u with hbefore | ⟨p, hp⟩
    · exact absurd hu (hquiet _ (quiet_before hc h0 hs hbefore))
    · obtain ⟨k, rfl⟩ : ∃ k, u = t p + k := ⟨u - t p, by have := hp.after; omega⟩
      have hk : 0 < k := by have := hp.after; omega
      rw [control_pass hP hc h0 hs p hp.lt k hk hp.before, hf p k hk] at hu
      exact ⟨p, hp.lt, k, hu, rfl⟩
  · rintro ⟨p, hp, k, hk, rfl⟩
    obtain ⟨hk0, hkd⟩ := hg p k hk
    rw [control_during hP hc h0 hs hp k hk0 hkd]
    exact (hf p k hk0).mpr hk

end Control

section Sums

variable {W : ℕ} {startCal : ℕ → Bool} {cOuts : ℕ → Fin N → BitVec (2 * W)} {s : ℕ → State P W}
  {t : ℕ → ℕ} {n : ℕ∞} (hP : P.Fits) (hle : P.dataASizeY ≤ P.dataASizeX) (h : Run startCal cOuts s)
  (h0 : Quiet (s 0).control) (hs : Schedule startCal (fun u => (s u).control) t n)
include h

theorem control_run : Clocked.IsRun (controlStep P false) startCal (fun u => (s u).control) := by
  intro u
  change (s (u + 1)).control = _
  rw [h]
  rfl

include hle h0 hs

theorem buffer_first : (s (t 0 + 1)).buffer = fun _ _ => 0 := by
  have hq : Quiet (s (t 0)).control :=
    quiet_before (control_run h) h0 hs fun p hp => hs.train.le_of_le (Nat.zero_le p) hp
  apply buffer_cleared h hle
  left
  rw [hq.gather]

include hP

/-- From the end of a pass to the first cycle of the next one the buffer keeps its rows, which are
0 already when the next pass finds the process in `IDLE`. -/
theorem buffer_gap {p : ℕ} (hp : (p + 1 : ℕ) < n) :
    (s (t (p + 1) + 1)).buffer = (s (t p + (doneTime P (blockAt P p) + 1))).buffer := by
  have hp' := Train.lt_of_lt (Nat.lt_succ_self p) hp
  have hlt := done_before_next hP (control_run h) h0 hs hp
  have hready (k : ℕ) (hk : doneTime P (blockAt P p) < k) (hk' : t p + k ≤ t (p + 1)) :
      (s (t p + k)).control = ready (blockAt P (p + 1)) := by
    have hc : (s (t p + k)).control = _ :=
      control_pass hP (control_run h) h0 hs p hp' k (by omega) (fun _ => hk')
    rw [hc, gatherAt_ready hk, blockAt]
  obtain ⟨d, hd⟩ : ∃ d, t (p + 1) + 1 = t p + (doneTime P (blockAt P p) + 1) + d :=
    ⟨t (p + 1) + 1 - (t p + (doneTime P (blockAt P p) + 1)), by omega⟩
  rw [hd]
  by_cases hz : blockAt P (p + 1) = ⟨0, 0⟩
  · have hlast : (blockAt P p).Last P := by
      rw [MatrixMultiply.blockAt_last hP]
      by_contra hl
      have hm := (MatrixMultiply.succ_divMod_of_not_last (MatrixMultiply.rowCount_pos hP) hl).2
      have hrow := congrArg Cursor.row hz
      rw [MatrixMultiply.blockAt_mod hP, hm] at hrow
      exact Nat.succ_ne_zero _ hrow
    have hzero := buffer_done h (fun k => control_during hP (control_run h) h0 hs hp' k) hle
    rw [if_pos hlast] at hzero
    obtain rfl | ⟨e, rfl⟩ : d = 0 ∨ ∃ e, d = e + 1 := by
      cases d with
      | zero => exact .inl rfl
      | succ e => exact .inr ⟨e, rfl⟩
    · rfl
    · rw [hzero, ← Nat.add_assoc]
      apply buffer_cleared h hle
      left
      rw [Nat.add_assoc, hready _ (by omega) (by omega), hz]
      rfl
  · apply buffer_hold h
    intro u hu
    rw [Nat.add_assoc, hready _ (by omega) (by omega)]
    have hne : ¬ ((blockAt P (p + 1)).row = 0 ∧ (blockAt P (p + 1)).col = 0) := fun h0 =>
      hz (congrArg₂ Cursor.mk h0.1 h0.2)
    simp [ready, hne]

theorem buffer_sum {p : ℕ} (hp : p < n) (r : Fin P.dataASizeY) (j : Fin N) :
    (s (t p + 1)).buffer r j =
      ∑ q ∈ Finset.range (p % rowCount P),
        cOuts (t (p / rowCount P * rowCount P + q) + (r + 2)) j := by
  have hR := MatrixMultiply.rowCount_pos hP
  have hay := hP.ay_le
  induction p with
  | zero =>
    rw [buffer_first hle h h0 hs, Nat.zero_mod]
    rfl
  | succ p ih =>
    have hp' := Train.lt_of_lt (Nat.lt_succ_self p) hp
    have hT := fun k => control_during hP (control_run h) h0 hs hp' k
    rw [buffer_gap hP hle h h0 hs hp, buffer_done h hT hle]
    by_cases hl : p % rowCount P = rowCount P - 1
    · rw [if_pos ((MatrixMultiply.blockAt_last hP p).mpr hl), (MatrixMultiply.succ_divMod_of_last hR hl).2]
      rfl
    · obtain ⟨hdiv, hmod⟩ := MatrixMultiply.succ_divMod_of_not_last hR hl
      have hp0 : p / rowCount P * rowCount P + p % rowCount P = p := Nat.div_add_mod' p (rowCount P)
      rw [if_neg (fun hb => hl ((MatrixMultiply.blockAt_last hP p).mp hb)),
        buffer_sampled h hT (by omega) r j le_doneTime le_rfl, ih hp', hdiv, hmod, Finset.sum_range_succ, hp0]

theorem buffer_written {p : ℕ} (hp : p < n) (hl : p % rowCount P = rowCount P - 1) {k : ℕ}
    (hk : k < P.dataASizeY) (r : Fin P.dataASizeY) (j : Fin N) :
    (s (t p + (P.dataASizeY + 4 + k))).buffer r j =
      ∑ q ∈ Finset.range (rowCount P), cOuts (t (p / rowCount P * rowCount P + q) + (r + 2)) j := by
  have hR := MatrixMultiply.rowCount_pos hP
  have hay := hP.ay_le
  have hd := doneTime_eq ((MatrixMultiply.blockAt_last hP p).mpr hl)
  have hT := fun k => control_during hP (control_run h) h0 hs hp k
  have hp0 : p / rowCount P * rowCount P + p % rowCount P = p := Nat.div_add_mod' p (rowCount P)
  rw [buffer_sampled h hT (by omega) r j (by omega) (by omega), buffer_sum hP hle h h0 hs hp r j]
  rw [hl] at hp0 ⊢
  obtain ⟨R, hRs⟩ : ∃ R, rowCount P = R + 1 := ⟨rowCount P - 1, by omega⟩
  rw [hRs] at hp0 ⊢
  rw [Nat.add_sub_cancel] at hp0 ⊢
  rw [Finset.sum_range_succ, hp0]

end Sums

open MatrixMultiply (passCount)

/-- The cycle of the `gather_done` of pass `p`, and the one in which row `r` is written by it. -/
def doneAt (P : Params) (t : ℕ → ℕ) (p : ℕ) : ℕ := t p + doneTime P (blockAt P p)

def writtenAt (P : Params) (t : ℕ → ℕ) (p r : ℕ) : ℕ := t p + (P.dataASizeY + 4 + r)

/-- What comes of the passes: passes `k * ROW_CNT` to `k * ROW_CNT + ROW_CNT - 1` are a group, whose
sums the last one of them writes. -/
structure WritesBack {P : Params} {W : ℕ} (cOuts : ℕ → Fin N → BitVec (2 * W)) (s : ℕ → State P W)
    (t : ℕ → ℕ) (n : ℕ∞) : Prop where
  done : ∀ u, gatherDone (s u).control = true ↔ ∃ p : ℕ, p < n ∧ u = doneAt P t p
  done_within : ∀ p : ℕ, p < n →
    t p < doneAt P t p ∧ ((p + 1 : ℕ) < n → doneAt P t p < t (p + 1))
  write : ∀ u, bramWeC (s u).control = true ↔
    ∃ p : ℕ, p < n ∧ p % rowCount P = rowCount P - 1 ∧ ∃ r < P.dataASizeY, u = writtenAt P t p r
  done_last : ∀ p r : ℕ, p % rowCount P = rowCount P - 1 → r < P.dataASizeY →
    writtenAt P t p r < doneAt P t p
  word : ∀ p r : ℕ, p < n → p % rowCount P = rowCount P - 1 → r < P.dataASizeY →
    bramAddrC P (s (writtenAt P t p r)).control =
        r * (P.dataBSizeX / N) + p / rowCount P % colCount P ∧
      ∀ j, bramWrdataC (s (writtenAt P t p r)) j =
        ∑ q ∈ Finset.range (rowCount P), cOuts (t (p / rowCount P * rowCount P + q) + (r + 2)) j
  once : ∀ k : ℕ, ((k + 1) * passCount P : ℕ) ≤ n → ∀ a < P.dataASizeY * (P.dataBSizeX / N),
    ∃! u, t (k * passCount P) < u ∧ u ≤ doneAt P t ((k + 1) * passCount P - 1) ∧
      bramWeC (s u).control = true ∧ bramAddrC P (s u).control = a
  idle : ∀ k : ℕ, ((k + 1) * passCount P : ℕ) ≤ n →
    Quiet (s (doneAt P t ((k + 1) * passCount P - 1) + 1)).control

/-- The pass of job `k` that writes the column of blocks `c`. -/
def lastPass (P : Params) (k c : ℕ) : ℕ := rowCount P * (k * colCount P + c) + (rowCount P - 1)

section LastPass

variable (hP : P.Fits) (k : ℕ) {c : ℕ}

theorem eq_lastPass {p : ℕ} (hl : p % rowCount P = rowCount P - 1) (hge : k * passCount P ≤ p)
    (hlt : p < (k + 1) * passCount P) : p = lastPass P k (p / rowCount P % colCount P) := by
  have hjob : p / rowCount P / colCount P = k := by
    rw [Nat.div_div_eq_div_mul]
    exact Nat.div_eq_of_lt_le hge hlt
  have hgroup : p / rowCount P = k * colCount P + p / rowCount P % colCount P := by
    conv_lhs => rw [← Nat.div_add_mod' (p / rowCount P) (colCount P), hjob]
  rw [lastPass, ← hgroup, ← hl, Nat.div_add_mod]

include hP

theorem lastPass_mod : lastPass P k c % rowCount P = rowCount P - 1 := by
  have hR := MatrixMultiply.rowCount_pos hP
  rw [lastPass, Nat.mul_add_mod, Nat.mod_eq_of_lt (by omega)]

theorem lastPass_div : lastPass P k c / rowCount P = k * colCount P + c := by
  have hR := MatrixMultiply.rowCount_pos hP
  rw [lastPass, Nat.mul_add_div hR, Nat.div_eq_of_lt (by omega), Nat.add_zero]

theorem lastPass_in_job (hc : c < colCount P) :
    k * passCount P ≤ lastPass P k c ∧ lastPass P k c < (k + 1) * passCount P := by
  have hR := MatrixMultiply.rowCount_pos hP
  have hcount : passCount P = rowCount P * colCount P := rfl
  constructor
  · rw [lastPass, Nat.mul_add, hcount, Nat.mul_left_comm]
    omega
  · have hx : k * colCount P + c + 1 ≤ (k + 1) * colCount P := by
      rw [Nat.succ_mul]
      omega
    have hm := Nat.mul_le_mul_left (rowCount P) hx
    rw [Nat.mul_add_one, Nat.mul_left_comm, ← hcount] at hm
    rw [lastPass]
    omega

end LastPass

section Trace

variable {W : ℕ} {startCal : ℕ → Bool} {cOuts : ℕ → Fin N → BitVec (2 * W)} {s : ℕ → State P W}
  {t : ℕ → ℕ} {n : ℕ∞} (hP : P.Fits) (hle : P.dataASizeY ≤ P.dataASizeX) (h : Run startCal cOuts s)
  (h0 : Quiet (s 0).control) (hs : Schedule startCal (fun u => (s u).control) t n)

theorem writtenAt_lt_doneAt (hP : P.Fits) (t : ℕ → ℕ) {p r : ℕ} (hl : p % rowCount P = rowCount P - 1)
    (hr : r < P.dataASizeY) : writtenAt P t p r < doneAt P t p := by
  have hd := doneTime_eq ((MatrixMultiply.blockAt_last hP p).mpr hl)
  rw [writtenAt, doneAt]
  omega

include hP h h0 hs

theorem gatherDone_iff (u : ℕ) :
    gatherDone (s u).control = true ↔ ∃ p : ℕ, p < n ∧ u = doneAt P t p := by
  rw [pass_iff (f := fun x => gatherDone x = true) (g := fun p k => k = doneTime P (blockAt P p)) hP
    (control_run h) h0 hs]
  · simp only [exists_eq_left, doneAt]
  · intro x hx
    rw [gatherDone_quiet hx]
    exact Bool.false_ne_true
  · intro p k _
    rw [gatherDone_gatherAt, decide_eq_true_eq]
  · rintro p k rfl
    have hd := le_doneTime (P := P) (b := blockAt P p)
    exact ⟨by omega, le_rfl⟩

theorem bramWeC_iff (u : ℕ) : bramWeC (s u).control = true ↔
    ∃ p : ℕ, p < n ∧ p % rowCount P = rowCount P - 1 ∧ ∃ r < P.dataASizeY, u = writtenAt P t p r := by
  rw [pass_iff (f := fun x => bramWeC x = true)
    (g := fun p k => p % rowCount P = rowCount P - 1 ∧ ∃ r < P.dataASizeY, k = P.dataASizeY + 4 + r) hP
    (control_run h) h0 hs]
  · constructor
    · rintro ⟨p, hp, k, ⟨hl, r, hr, rfl⟩, rfl⟩
      exact ⟨p, hp, hl, r, hr, rfl⟩
    · rintro ⟨p, hp, hl, r, hr, rfl⟩
      exact ⟨p, hp, _, ⟨hl, r, hr, rfl⟩, rfl⟩
  · intro x hx
    rw [bramWeC_quiet hx]
    exact Bool.false_ne_true
  · intro p k _
    rw [bramWeC_gatherAt, decide_eq_true_eq, MatrixMultiply.blockAt_last hP]
    refine and_congr_right fun _ => ?_
    constructor
    · rintro ⟨h1, h2⟩
      exact ⟨k - (P.dataASizeY + 4), by omega, by omega⟩
    · rintro ⟨r, hr, rfl⟩
      omega
  · rintro p k ⟨hl, r, hr, rfl⟩
    have hd := doneTime_eq ((MatrixMultiply.blockAt_last hP p).mpr hl)
    omega

theorem control_writtenAt {p r : ℕ} (hp : p < n) (hl : p % rowCount P = rowCount P - 1)
    (hr : r < P.dataASizeY) : (s (writtenAt P t p r)).control = writingAt (blockAt P p) r := by
  have hb := (MatrixMultiply.blockAt_last hP p).mpr hl
  have hd := doneTime_eq hb
  have hc : (s (writtenAt P t p r)).control = _ :=
    control_during hP (control_run h) h0 hs hp (P.dataASizeY + 4 + r) (by omega) (by omega)
  rw [hc, gatherAt_writing hb hr]

theorem bramAddrC_writtenAt {p r : ℕ} (hp : p < n) (hl : p % rowCount P = rowCount P - 1)
    (hr : r < P.dataASizeY) :
    bramAddrC P (s (writtenAt P t p r)).control =
      r * (P.dataBSizeX / N) + p / rowCount P % colCount P := by
  rw [control_writtenAt hP h h0 hs hp hl hr,
    Machine.bramAddrC_writingAt hP (MatrixMultiply.blockAt_valid hP p).2 hr, MatrixMultiply.blockAt_mod hP]

theorem doneAt_lt {p q : ℕ} (hpq : p < q) (hq : q < n) : doneAt P t p < t q := by
  have hnext : doneAt P t p < t (p + 1) :=
    done_before_next hP (control_run h) h0 hs (lt_of_le_of_lt (Nat.cast_le.mpr hpq) hq)
  exact hnext.trans_le (hs.train.le_of_le hpq hq)

theorem written_once {k : ℕ} (hk : ((k + 1) * passCount P : ℕ) ≤ n) {a : ℕ}
    (ha : a < P.dataASizeY * (P.dataBSizeX / N)) :
    ∃! u, t (k * passCount P) < u ∧ u ≤ doneAt P t ((k + 1) * passCount P - 1) ∧
      bramWeC (s u).control = true ∧ bramAddrC P (s u).control = a := by
  have hC := MatrixMultiply.colCount_pos hP
  have hX : P.dataBSizeX / N = colCount P := rfl
  have hpos := MatrixMultiply.passCount_pos hP
  have hsucc : (k + 1) * passCount P = k * passCount P + passCount P := Nat.succ_mul _ _
  rw [hX] at ha
  have hc : a % colCount P < colCount P := Nat.mod_lt a hC
  have hr : a / colCount P < P.dataASizeY := Nat.div_lt_of_lt_mul (by rwa [Nat.mul_comm])
  have hlast : (((k + 1) * passCount P - 1 : ℕ) : ℕ∞) < n :=
    lt_of_lt_of_le (Nat.cast_lt.mpr (by omega)) hk
  let p := lastPass P k (a % colCount P)
  have hmod : p % rowCount P = rowCount P - 1 := lastPass_mod hP k
  have hdiv : p / rowCount P = k * colCount P + a % colCount P := lastPass_div hP k
  obtain ⟨hle, hlt⟩ := lastPass_in_job hP k hc
  have hpn : (p : ℕ∞) < n := lt_of_lt_of_le (Nat.cast_lt.mpr hlt) hk
  refine ⟨writtenAt P t p (a / colCount P), ⟨?_, ?_, ?_, ?_⟩, ?_⟩
  · have hmono := hs.train.le_of_le hle hpn
    exact hmono.trans_lt (Nat.lt_add_of_pos_right (Nat.add_pos_left (by omega) _))
  · have hw := writtenAt_lt_doneAt hP t hmod hr
    obtain heq | hlt' : p = (k + 1) * passCount P - 1 ∨ p < (k + 1) * passCount P - 1 := by omega
    · rw [← heq]
      exact hw.le
    · have hd := doneAt_lt hP h h0 hs hlt' hlast
      have hge : t ((k + 1) * passCount P - 1) ≤ doneAt P t ((k + 1) * passCount P - 1) :=
        Nat.le_add_right _ _
      omega
  · exact (bramWeC_iff hP h h0 hs _).mpr ⟨p, hpn, hmod, _, hr, rfl⟩
  · rw [bramAddrC_writtenAt hP h h0 hs hpn hmod hr, hdiv, Nat.mul_comm k, Nat.mul_add_mod,
      Nat.mod_eq_of_lt hc, hX]
    exact Nat.div_add_mod' a (colCount P)
  · rintro u ⟨h1, h2, h3, h4⟩
    obtain ⟨p', hpn', hmod', r', hr', rfl⟩ := (bramWeC_iff hP h h0 hs u).mp h3
    have hw := writtenAt_lt_doneAt hP t hmod' hr'
    rw [bramAddrC_writtenAt hP h h0 hs hpn' hmod' hr', hX, ← Nat.div_add_mod' a (colCount P)] at h4
    obtain ⟨rfl, hcol⟩ := Clocked.mul_add_inj (Nat.mod_lt _ hC) hc h4
    -- a write between the two times is one of a pass of the job
    have hge : k * passCount P ≤ p' := by
      by_contra hlt'
      have hd := doneAt_lt hP h h0 hs (Nat.lt_of_not_le hlt') (lt_of_le_of_lt (Nat.cast_le.mpr hle) hpn)
      omega
    have hlt' : p' < (k + 1) * passCount P := by
      by_contra hge'
      have hd := doneAt_lt hP h h0 hs (p := (k + 1) * passCount P - 1) (q := p') (by omega) hpn'
      have hgt : t p' ≤ writtenAt P t p' (a / colCount P) := Nat.le_add_right _ _
      omega
    have heq : p' = p := by
      rw [eq_lastPass k hmod' hge hlt', hcol]
    rw [heq]

include hle

theorem writesBack : WritesBack cOuts s t n where
  done := gatherDone_iff hP h h0 hs
  done_within p hp := by
    have hd := le_doneTime (P := P) (b := blockAt P p)
    refine ⟨?_, fun hp1 => done_before_next hP (control_run h) h0 hs hp1⟩
    rw [doneAt]
    omega
  write := bramWeC_iff hP h h0 hs
  done_last _ _ hl hr := writtenAt_lt_doneAt hP t hl hr
  word p r hp hl hr := by
    refine ⟨bramAddrC_writtenAt hP h h0 hs hp hl hr, fun j => ?_⟩
    rw [bramWrdataC_writing (control_writtenAt hP h h0 hs hp hl hr) hr]
    exact buffer_written hP hle h h0 hs hp hl hr ⟨r, hr⟩ j
  once _ hk _ ha := written_once hP h h0 hs hk ha
  idle k hk := by
    have hpos := MatrixMultiply.passCount_pos hP
    have hsucc : (k + 1) * passCount P = k * passCount P + passCount P := Nat.succ_mul _ _
    obtain ⟨p, hp⟩ : ∃ p, p = (k + 1) * passCount P - 1 := ⟨_, rfl⟩
    have hpn : (p : ℕ∞) < n := lt_of_lt_of_le (Nat.cast_lt.mpr (by omega)) hk
    have hzero : blockAt P (p + 1) = ⟨0, 0⟩ := by
      rw [hp, Nat.sub_add_cancel (by omega), MatrixMultiply.blockAt_mod hP]
      simp [passCount, Nat.mul_left_comm (k + 1), MatrixMultiply.rowCount_pos hP]
    have hc : (s (doneAt P t p + 1)).control = _ :=
      control_pass hP (control_run h) h0 hs p hpn (doneTime P (blockAt P p) + 1) (Nat.succ_pos _)
        (fun hp1 => done_before_next hP (control_run h) h0 hs hp1)
    rw [← hp, hc, gatherAt_ready (Nat.lt_succ_self _)]
    change Quiet (ready (blockAt P (p + 1)))
    rw [hzero]
    exact quiet_ready

end Trace

/-- Whatever the array delivers, and however long the passes wait for each other. -/
theorem writesBack_shipped (startCal : ℕ → Bool) (cOuts : ℕ → Fin N → BitVec 16)
    (s : ℕ → State shipped 8) (t : ℕ → ℕ) (n : ℕ∞) (h : Run startCal cOuts s)
    (h0 : Quiet (s 0).control) (hs : Schedule startCal (fun u => (s u).control) t n) :
    WritesBack cOuts s t n :=
  writesBack shipped_fits shipped_square.1.le h h0 hs

theorem doneTime_le {b : Cursor} : doneTime P b ≤ 2 * P.dataASizeY + 4 := by
  unfold doneTime
  split <;> omega

theorem schedule_periodic (hP : P.Fits) {startCal : ℕ → Bool} {c : ℕ → Control} {period T n : ℕ}
    (hperiod : ∀ p, p + 1 < n → doneTime P (blockAt P p) < period)
    (hpulse : ∀ u, startCal u = true ↔ ∃ p < n, u = period * p + T)
    (hc : Clocked.IsRun (controlStep P false) startCal c) (hT : c T = ready ⟨0, 0⟩) :
    Schedule startCal c (fun p => period * p + T) n := by
  have hstart {p k : ℕ} (hp : p + 1 < n) (hk : k < period) : startCal (period * p + T + k) = decide (k = 0) := by
    rw [Bool.eq_iff_iff, hpulse, decide_eq_true_eq]
    constructor
    · rintro ⟨q, -, hq⟩
      have hsum : period * p + k = period * q := by omega
      have hmod := congrArg (· % period) hsum
      simp only [Nat.mul_add_mod, Nat.mul_mod_right, Nat.mod_eq_of_lt hk] at hmod
      exact hmod
    · rintro rfl
      exact ⟨p, by omega, rfl⟩
  have hpass {p : ℕ} (hp : p + 1 < n) (hready : c (period * p + T) = ready (blockAt P p)) :
      ∀ k ≤ period, c (period * p + T + k) = gatherAt P (blockAt P p) k :=
    hc.follows (gatherAt P (blockAt P p)) hready fun k hk => by
      rw [hstart hp hk]
      exact gatherAt_step hP.ay_lt hP.ay_pos (MatrixMultiply.blockAt_valid hP p) k
  have hready (p : ℕ) (hp : p < n) : c (period * p + T) = ready (blockAt P p) := by
    induction p with
    | zero => rwa [Nat.mul_zero, Nat.zero_add]
    | succ p ih =>
      have hend := hpass hp (ih (by omega)) period le_rfl
      rw [gatherAt_ready (hperiod p hp)] at hend
      rw [Nat.mul_succ, Nat.add_right_comm]
      exact hend
  refine ⟨fun u => ?_, fun p hp => ?_⟩
  · rw [hpulse]
    exact exists_congr fun p => and_congr_left fun _ => Nat.cast_lt.symm
  · have hp : p + 1 < n := Nat.cast_lt.mp hp
    have hdone := hperiod p hp
    have hpos : P.dataASizeY + 3 ≤ doneTime P (blockAt P p) := le_doneTime
    refine ⟨period * p + T + doneTime P (blockAt P p), Nat.lt_add_of_pos_right (by omega), ?_, ?_⟩
    · rw [Nat.mul_succ]
      omega
    · rw [hpass hp (hready p (by omega)) _ hdone.le, gatherDone_gatherAt]
      exact decide_eq_true rfl

/-- The passes of a whole run, 200 cycles apart. -/
def everyPass (u : ℕ) : Bool := u % 200 = 0 ∧ u < 3200

/-- A row that tells lanes and cycles apart. -/
def lanes (u : ℕ) (j : Fin N) : BitVec 16 := BitVec.ofNat 16 (1000 * j + u)

def everyPassRun : ℕ → State shipped 8 :=
  Clocked.run (fun i => step false i.1 i.2) ⟨ready ⟨0, 0⟩, fun _ _ => 0⟩ fun u => (everyPass u, lanes u)

theorem run_everyPassRun : Run everyPass lanes everyPassRun := Clocked.isRun_run _ _ _

theorem schedule_everyPass :
    Schedule everyPass (fun u => (everyPassRun u).control) (fun p => 200 * p) (16 : ℕ) := by
  refine schedule_periodic (T := 0) shipped_fits (fun p _ => ?_) (fun u => ?_) (control_run run_everyPassRun) rfl
  · exact doneTime_le.trans_lt (by decide)
  · rw [everyPass, decide_eq_true_eq]
    constructor
    · exact fun ⟨h, hu⟩ => ⟨u / 200, by omega, by omega⟩
    · rintro ⟨p, hp, rfl⟩
      omega

/-- The last pass writes its rows to every fourth address from 3 on, and every lane is a sum of four
rows that lie 200 cycles apart. -/
theorem writesBack_everyPass :
    WritesBack lanes everyPassRun (fun p => 200 * p) (16 : ℕ) ∧
      bramAddrC shipped (everyPassRun (200 * 15 + 68)).control = 3 ∧
      bramWrdataC (everyPassRun (200 * 15 + 68)) 5 = 30808 := by
  have h : WritesBack lanes everyPassRun _ (16 : ℕ) :=
    writesBack_shipped everyPass lanes everyPassRun _ _ run_everyPassRun quiet_ready schedule_everyPass
  obtain ⟨haddr, hdata⟩ := h.word 15 0 (Nat.cast_lt.mpr (by decide)) (by decide) (by decide)
  exact ⟨h, haddr, (hdata 5).trans (by decide)⟩

end EmbeddedAccelerator.GatherC
