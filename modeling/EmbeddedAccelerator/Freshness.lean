import EmbeddedAccelerator.Completion

namespace EmbeddedAccelerator.UsrLogic

open UsrControl (Accepts Triggers Reports OneAtATime IsRead)

/-- A computation that is started at or after `t` raises its `Finish` before `u`. -/
def FreshResult {P : Params} (s : ℕ → State P) (t u : ℕ) : Prop :=
  ∃ b f, t ≤ b ∧ b < f ∧ f < u ∧ StartRises s b ∧ FinishRises s f ∧
    ∀ x, b + 1 < x → x ≤ f → (s x).mm.computeControl.state ≠ .idle

theorem FreshResult.mono {P : Params} {s : ℕ → State P} {t t' u : ℕ} (hf : FreshResult s t' u)
    (h : t ≤ t') : FreshResult s t u := by
  obtain ⟨b, f, hb, hrest⟩ := hf
  exact ⟨b, f, h.trans hb, hrest⟩

section Run

variable {P : Params} {inputs : ℕ → Input} {s : ℕ → State P} (h : Run inputs s) (h0 : s 0 = powerOn P)
include h h0

theorem busy_of_active {x : ℕ} (ha : (phase s x).active = true) (ha' : (phase s (x + 1)).active = true) :
    (s (x + 1)).mm.computeControl.state ≠ .idle := by
  rw [Ne, h.idle_iff h0]
  rintro ⟨hack, hrun⟩
  have htr : phase s (x + 1) = .triggered := by
    cases hp : phase s (x + 1) <;> simp_all [Phase.active]
  rw [h.phase_succ h0, Phase.next_eq_triggered] at htr
  rw [htr.1] at ha
  cases ha

theorem freshResult_of_startRises {b u : ℕ} (hbu : b < u) (hb : StartRises s b)
    (hu : (registers s u).finishReg = true) : FreshResult s b u := by
  obtain ⟨f, hbf, hfu, hf, hactive⟩ := (alternates h h0).exists_closing hbu hb (by
    rcases inactive_of_finishReg h h0 hu with hp | hp <;> rw [hp] <;> decide)
  refine ⟨b, f, le_rfl, hbf, hfu, hb, hf, fun x hx hxf => ?_⟩
  obtain ⟨y, rfl⟩ : ∃ y, x = y + 1 := ⟨x - 1, by omega⟩
  exact busy_of_active h h0 (hactive y (by omega) (by omega)) (hactive (y + 1) (by omega) hxf)

end Run

/-- A reported result belongs to a computation started at or after `t` exactly if a read of `START`
was taken with `process = 0` since then. -/
theorem status_fresh_iff (inputs : ℕ → Input) (hreset : ∀ t, (inputs t).userResetn = true)
    (hone : OneAtATime (channel inputs (trace inputs)) (registers (trace inputs))) {t u r : ℕ}
    (hstatus : IsRead (channel inputs (trace inputs)) (registers (trace inputs)) 2#2 2 u r) :
    FreshResult (trace inputs) t u ↔
      ∃ b, t ≤ b ∧ b < u ∧ Triggers (channel inputs (trace inputs) b) (registers (trace inputs) b) := by
  have h := run_trace hreset
  have h0 : trace inputs 0 = powerOn shipped := rfl
  constructor
  · rintro ⟨b, f, htb, hbf, hfu, hb, -, -⟩
    exact ⟨b, htb, by omega, ((startRises_iff h h0).mp hb).2⟩
  · rintro ⟨b, htb, hbu, hb⟩
    have hv := finishReg_of_isRead h h0 hone hstatus
    have hf : (registers (trace inputs) u).finishReg = true := by
      by_contra hf
      rw [if_neg hf] at hv
      exact absurd hv (by decide)
    exact (freshResult_of_startRises h h0 hbu (startRises_of_triggers h h0 hb) hf).mono htb

/-- A host that is always ready reads `START` twice before it reads `STATUS`. -/
def secondStart (t : ℕ) : Input :=
  ⟨true, if t < 1705 then 0x1000 else 0x2000,
    t < 2 || t = 1700 || t = 1701 || t = 1710 || t = 1711, true, 0, 0⟩

section SecondStart

theorem run_secondStart : Run secondStart (trace secondStart) := run_trace fun _ => rfl

theorem inPairs_secondStart : UsrControl.InPairs (channel secondStart (trace secondStart))
    fun t => t = 0 ∨ t = 1700 ∨ t = 1710 where
  arvalid t := by
    simp only [channel, usrInput, secondStart, Bool.or_eq_true, decide_eq_true_eq]
    omega
  apart t h := by omega
  araddr t h := by
    change (if t + 1 < 1705 then 0x1000#32 else 0x2000#32) = if t < 1705 then 0x1000#32 else 0x2000#32
    exact if_congr (by omega) rfl rfl

theorem accepts_secondStart {t : ℕ} :
    Accepts (channel secondStart (trace secondStart) t) (registers (trace secondStart) t) ↔
      t = 0 ∨ t = 1700 ∨ t = 1710 :=
  inPairs_secondStart.accepts_iff run_secondStart.usrControl rfl

theorem oneAtATime_secondStart :
    OneAtATime (channel secondStart (trace secondStart)) (registers (trace secondStart)) :=
  inPairs_secondStart.oneAtATime run_secondStart.usrControl rfl fun _ => rfl

theorem phase_secondStart : phase (trace secondStart) 1 = .triggered := by
  rw [run_secondStart.phase_succ rfl, Phase.next_eq_triggered]
  exact ⟨rfl, accepts_secondStart.mpr (.inl rfl), rfl, rfl⟩

theorem phase_done_secondStart {t : ℕ} (ht : 1658 ≤ t) (ht' : t ≤ 1710) :
    phase (trace secondStart) t = .done :=
  phase_done_first run_secondStart rfl phase_secondStart ht fun x hx hx' hrep => by
    obtain rfl | rfl | rfl := accepts_secondStart.mp hrep.1
    · omega
    · exact absurd hrep.2.1 (by decide)
    · omega

theorem status_secondStart :
    IsRead (channel secondStart (trace secondStart)) (registers (trace secondStart)) 2#2 2 1710 1712 := by
  have hr := UsrControl.isRead_of_accepts run_secondStart.usrControl rfl oneAtATime_secondStart
    (t := 1710) (accepts_secondStart.mpr (by omega)) rfl
  have hd := phase_done_secondStart (t := 1710) (by omega) le_rfl
  have hf : (registers (trace secondStart) 1710).finishReg = true := by
    rw [run_secondStart.finishReg_eq rfl (by rw [hd]; decide), hd]
    rfl
  have hreg : (channel secondStart (trace secondStart) 1710).register = 2#2 := by
    simp only [channel, usrInput, secondStart]
    rfl
  rw [UsrControl.readValue, hreg, if_pos rfl, if_pos hf] at hr
  exact hr

/-- The first of two reads of `START` gets its own result. -/
theorem status_fresh_secondStart : FreshResult (trace secondStart) 0 1710 := by
  refine (status_fresh_iff secondStart (fun _ => rfl) oneAtATime_secondStart status_secondStart).mpr
    ⟨0, le_rfl, by omega, accepts_secondStart.mpr (.inl rfl), rfl, rfl⟩

/-- The second one gets the result of the first. -/
theorem second_start_is_stale :
    ¬ ∀ inputs : ℕ → Input, (∀ t, (inputs t).userResetn = true) →
      OneAtATime (channel inputs (trace inputs)) (registers (trace inputs)) →
      ∀ t t' u u', IsRead (channel inputs (trace inputs)) (registers (trace inputs)) 1#2 1 t t' →
        IsRead (channel inputs (trace inputs)) (registers (trace inputs)) 2#2 2 u u' → t < u →
        FreshResult (trace inputs) t u := by
  intro hall
  have hstart : IsRead (channel secondStart (trace secondStart)) (registers (trace secondStart)) 1#2 1
      1700 1702 := by
    have hr := UsrControl.isRead_of_accepts run_secondStart.usrControl rfl oneAtATime_secondStart
      (t := 1700) (accepts_secondStart.mpr (by omega)) rfl
    have hreg : (channel secondStart (trace secondStart) 1700).register = 1#2 := by
      simp only [channel, usrInput, secondStart]
      rfl
    rw [UsrControl.readValue, hreg, if_neg (by decide), if_pos rfl] at hr
    exact hr
  obtain ⟨b, f, htb, hbf, hfu, hb, -⟩ := hall secondStart (fun _ => rfl) oneAtATime_secondStart 1700 1702
    1710 1712 hstart status_secondStart (by omega)
  have hp := ((startRises_iff run_secondStart rfl).mp hb).1
  rw [phase_done_secondStart (by omega) (by omega)] at hp
  cases hp

end SecondStart

end EmbeddedAccelerator.UsrLogic
