import EmbeddedAccelerator.Schedule.Timeline
import EmbeddedAccelerator.UsrLogic

namespace EmbeddedAccelerator.UsrLogic

open MatrixMultiply (passAt idleAt aligned runTime)
open UsrControl (Accepts Triggers Reports)

variable {P : Params} {inputs : ℕ → Input} {s : ℕ → State P}

/-- `start` is raised with the edge that ends cycle `t`. -/
def StartRises (s : ℕ → State P) (t : ℕ) : Prop :=
  (s t).usrControl.start = false ∧ (s (t + 1)).usrControl.start = true

/-- `Finish` is raised with the edge that ends cycle `t`. -/
def FinishRises (s : ℕ → State P) (t : ℕ) : Prop :=
  (s t).mm.computeControl.finish = false ∧ (s (t + 1)).mm.computeControl.finish = true

def Phase.active : Phase → Bool
  | triggered | acknowledged | running => true
  | _ => false

section Run

variable (h : Run inputs s) (h0 : s 0 = powerOn P) {t : ℕ}
include h h0

theorem startRises_iff :
    StartRises s t ↔ phase s t = .ready ∧ Triggers (channel inputs s t) (registers s t) := by
  rw [StartRises, h.start_eq h0 t, h.start_eq h0 (t + 1), h.phase_succ h0 t,
    decide_eq_false_iff_not, decide_eq_true_eq, Phase.next_eq_triggered, Phase.next_eq_acknowledged]
  cases phase s t <;> simp

theorem finishRises_iff : FinishRises s t ↔ phase s t = .running ∧ phase s (t + 1) = .finishing := by
  have hp := h.phase_succ h0 t
  rw [FinishRises, h.finish_eq h0 t, h.finish_eq h0 (t + 1),
    decide_eq_true_eq, decide_eq_false_iff_not, hp, Phase.next_eq_finishing]
  cases phase s t <;> simp

theorem alternates :
    Clocked.Alternates (StartRises s) (FinishRises s) (fun t => (phase s t).active = true) where
  meets_closed t ht := by
    rw [((startRises_iff h h0).mp ht).1]
    decide
  meets_open t ht := by
    rw [((finishRises_iff h h0).mp ht).1]
    rfl
  next t := by
    have hp := h.phase_succ h0 t
    rw [startRises_iff h h0, finishRises_iff h h0, hp, Phase.next_eq_finishing]
    cases phase s t <;> simp [Phase.next, Phase.active] <;> split_ifs <;> simp_all

theorem start_pulse (ht : StartRises s t) :
    (s (t + 1)).mm.computeControl.state = .idle ∧ (s (t + 2)).mm.computeControl.state ≠ .idle ∧
      (s (t + 2)).usrControl.start = true ∧ (s (t + 3)).usrControl.start = false := by
  obtain ⟨hp, htr⟩ := (startRises_iff h h0).mp ht
  have h1 : phase s (t + 1) = .triggered := by
    rw [h.phase_succ h0, Phase.next_eq_triggered]
    exact ⟨hp, htr⟩
  have h2 : phase s (t + 2) = .acknowledged := by
    rw [h.phase_succ h0, Phase.next_eq_acknowledged, h1]
  have h3 : phase s (t + 3) = .running := by
    rw [h.phase_succ h0, Phase.next_eq_running, h2]
    exact .inl rfl
  refine ⟨(h.idle_iff h0 _).mpr ?_, fun hc => ((h.idle_iff h0 _).mp hc).1 h2, ?_, ?_⟩
  · rw [h1]
    decide
  · rw [h.start_eq h0, h2]
    rfl
  · rw [h.start_eq h0, h3]
    rfl

theorem startRises_of_triggers (ht : Triggers (channel inputs s t) (registers s t)) : StartRises s t := by
  refine (startRises_iff h h0).mpr ⟨?_, ht⟩
  have hp := h.process_eq h0 t
  rw [show (s t).usrControl.process = false from ht.2.2] at hp
  simpa using hp.symm

theorem inactive_of_finishReg (hf : (registers s t).finishReg = true) :
    phase s t = .ready ∨ phase s t = .done := by
  by_cases hp : phase s t = .ready
  · exact .inl hp
  · have hd := h.finishReg_eq h0 hp
    rw [show (s t).usrControl.finishReg = true from hf] at hd
    exact .inr (of_decide_eq_true hd.symm)

theorem inactive_until {v : ℕ} (hp : phase s t = .ready ∨ phase s t = .done) (htv : t ≤ v)
    (hn : ∀ x, t ≤ x → x ≤ v → (s x).usrControl.start = false) :
    phase s v = .ready ∨ phase s v = .done := by
  induction v, htv using Nat.le_induction with
  | base => exact hp
  | succ v hv ih =>
    have hstart := hn (v + 1) (by omega) le_rfl
    rw [h.start_eq h0, decide_eq_false_iff_not, not_or] at hstart
    have hs := h.phase_succ h0 v
    rcases ih fun x hx hx' => hn x hx (by omega) with hv | hv
    · rw [hv, Phase.next] at hs
      split_ifs at hs
      · exact absurd hs hstart.1
      · exact .inl hs
    · rw [hv, Phase.next] at hs
      split_ifs at hs
      · exact .inl hs
      · exact .inr hs

theorem finishReg_of_finishRises (ht : FinishRises s t) : (registers s (t + 2)).finishReg = true := by
  have hp := ((finishRises_iff h h0).mp ht).2
  have hd : phase s (t + 2) = .done := by
    rw [h.phase_succ h0, Phase.next_eq_done, hp]
    exact .inl rfl
  have hf := h.finishReg_eq h0 (t := t + 2) (by rw [hd]; decide)
  rw [hd] at hf
  exact hf

theorem finishReg_until {v : ℕ} (hf : (registers s t).finishReg = true) (htv : t ≤ v)
    (hn : ∀ x, t ≤ x → x < v → ¬ StartRises s x) : (registers s v).finishReg = true := by
  induction v, htv using Nat.le_induction with
  | base => exact hf
  | succ v hv ih =>
    have hfv := ih fun x hx hx' => hn x hx (by omega)
    have hnt : ¬ Triggers (channel inputs s v) (registers s v) := fun ht =>
      hn v hv (Nat.lt_succ_self v) (startRises_of_triggers h h0 ht)
    rw [h.usrControl.isRun v, UsrControl.step_eq (h.usrControl.noReset v), if_neg hnt, hfv]
    rfl

end Run

open UsrControl (OneAtATime IsRead)

/-- What a host that reads one register at a time can rely on. -/
structure RunsExclusive (inputs : ℕ → Input) (s : ℕ → State shipped) : Prop where
  pulse : ∀ t, StartRises s t →
    (s (t + 1)).mm.computeControl.state = .idle ∧ (s (t + 2)).mm.computeControl.state ≠ .idle ∧
      (s (t + 2)).usrControl.start = true ∧ (s (t + 3)).usrControl.start = false
  accepted : ∀ t, Triggers (channel inputs s t) (registers s t) → StartRises s t
  guard : ∀ t, (s t).usrControl.process = false →
    (s t).mm.computeControl.state = .idle ∧ (s t).usrControl.start = false
  finish_once : ∀ t₁ t₂, t₁ < t₂ → StartRises s t₁ → StartRises s t₂ →
    (∀ t, t₁ < t → t < t₂ → ¬ StartRises s t) → ∃! t, t₁ < t ∧ t < t₂ ∧ FinishRises s t
  finish_kept : ∀ t, FinishRises s t → (s (t + 2)).usrControl.finishReg = true
  /-- A read of `STATUS` that returns 2 comes after the end of the last computation. -/
  reported : ∀ u r, IsRead (channel inputs s) (registers s) 2#2 2 u r →
    (∀ t < u, StartRises s t → ∃ f, t < f ∧ f < u ∧ FinishRises s f) ∧
      ∀ v ≥ u, (∀ x, u ≤ x → x ≤ v → (s x).usrControl.start = false) →
        GatherC.bramWeC (s v).mm.gatherC.control = false
  reports : ∀ f, FinishRises s f → ∀ u ≥ f + 2, (∀ x, f < x → x < u → ¬ StartRises s x) →
    ∀ value r, IsRead (channel inputs s) (registers s) 2#2 value u r → value = 2

def trace (inputs : ℕ → Input) : ℕ → State shipped := Clocked.run step (powerOn shipped) inputs

theorem run_trace {inputs : ℕ → Input} (hreset : ∀ t, (inputs t).userResetn = true) :
    Run inputs (trace inputs) := ⟨Clocked.isRun_run _ _ _, hreset⟩

theorem finishReg_of_isRead {inputs : ℕ → Input} {s : ℕ → State P} (h : Run inputs s)
    (h0 : s 0 = powerOn P) (hone : OneAtATime (channel inputs s) (registers s)) {value : BitVec 32} {u r : ℕ}
    (hr : IsRead (channel inputs s) (registers s) 2#2 value u r) :
    value = if (s u).usrControl.finishReg then 2 else 0 := by
  have hv := (hr.value_eq h.usrControl (congrArg State.usrControl h0) hone).2
  rwa [UsrControl.readValue, if_pos hr.register] at hv

theorem runs_exclusive (inputs : ℕ → Input) (hreset : ∀ t, (inputs t).userResetn = true)
    (hone : OneAtATime (channel inputs (trace inputs)) (registers (trace inputs))) :
    RunsExclusive inputs (trace inputs) := by
  have h := run_trace hreset
  have h0 : trace inputs 0 = powerOn shipped := rfl
  refine ⟨fun t => start_pulse h h0, fun t => startRises_of_triggers h h0, fun t hp => ?_,
    fun t₁ t₂ => (alternates h h0).existsUnique_closing, fun t => finishReg_of_finishRises h h0,
    fun u r hr => ?_, fun f hf u hu hn value r hr => ?_⟩
  · rw [h.process_eq h0, decide_eq_false_iff_not, not_not] at hp
    rw [h.idle_iff h0, h.start_eq h0, hp]
    decide
  · have hv := finishReg_of_isRead h h0 hone hr
    have hf : (registers (trace inputs) u).finishReg = true := by
      by_contra hf
      rw [if_neg hf] at hv
      exact absurd hv (by decide)
    have hinactive := inactive_of_finishReg h h0 hf
    refine ⟨fun t htu ht => ?_, fun v huv hn => ?_⟩
    · obtain ⟨f, h1, h2, h3, -⟩ := (alternates h h0).exists_closing htu ht (by
        rcases hinactive with hp | hp <;> rw [hp] <;> decide)
      exact ⟨f, h1, h2, h3⟩
    · refine h.mm.bramWeC_of_idle shipped_fits shipped_square rfl ((h.idle_iff h0 v).mpr ?_)
      rcases inactive_until h h0 hinactive huv hn with hp | hp <;> rw [hp] <;> decide
  · have hfr := finishReg_until h h0 (finishReg_of_finishRises h h0 hf) hu
      (fun x hx hx' => hn x (by omega) hx')
    rw [finishReg_of_isRead h h0 hone hr, show (trace inputs u).usrControl.finishReg = true from hfr]
    rfl

section First

variable {inputs : ℕ → Input} {s : ℕ → State shipped} (h : Run inputs s) (h0 : s 0 = powerOn shipped)
  (hp : phase s 1 = .triggered)
include h h0 hp

theorem finish_first : (s (2 + runTime shipped)).mm.computeControl.finish = true := by
  have hc := h.mm.control
  have h1 : (s 1).mm.control = idleAt shipped (aligned ⟨0, 0⟩) false := by
    have hs := hc 0
    simp only [h0] at hs
    exact hs
  have h2 : (s 2).mm.control = passAt shipped (aligned ⟨0, 0⟩) false 0 := by
    have hs := hc 1
    have hstart : (s 1).usrControl.start = true := by
      rw [h.start_eq h0, hp]
      rfl
    simp only [mmInput, hstart, h1] at hs
    exact hs
  have hf := MatrixMultiply.timeline_finish shipped_fits shipped_square hc h2
  exact congrArg (fun c => c.computeControl.finish) hf

theorem phase_done_first {t : ℕ} (ht : 1658 ≤ t)
    (hquiet : ∀ x, 1658 ≤ x → x < t → ¬ Reports (channel inputs s x) (registers s x)) : phase s t = .done := by
  induction t, ht using Nat.le_induction with
  | base =>
    have hf := finish_first h h0 hp
    rw [MatrixMultiply.runTime_shipped, h.finish_eq h0, decide_eq_true_eq] at hf
    rw [h.phase_succ h0, Phase.next_eq_done]
    exact .inl hf
  | succ t ht ih =>
    rw [h.phase_succ h0, Phase.next_eq_done]
    exact .inr ⟨ih fun x hx hx' => hquiet x hx (by omega), hquiet t ht (Nat.lt_succ_self t)⟩

end First

/-- A host that is always ready reads `START`, `STATUS` while the product is computed and when it is
there, and `START` again. -/
def twoStarts (t : ℕ) : Input :=
  ⟨true, if 4 ≤ t ∧ t < 1705 then 0x2000 else 0x1000,
    t = 0 ∨ t = 1 ∨ t = 4 ∨ t = 5 ∨ t = 1700 ∨ t = 1701 ∨ t = 1710 ∨ t = 1711, true, 0, 0⟩

section TwoStarts

theorem run_twoStarts : Run twoStarts (trace twoStarts) := run_trace fun _ => rfl

theorem arvalid_twoStarts {t : ℕ} :
    (channel twoStarts (trace twoStarts) t).arvalid = true ↔
      t = 0 ∨ t = 1 ∨ t = 4 ∨ t = 5 ∨ t = 1700 ∨ t = 1701 ∨ t = 1710 ∨ t = 1711 := by
  simp only [channel, usrInput, twoStarts, decide_eq_true_eq]

theorem arready_twoStarts {t : ℕ} :
    (registers (trace twoStarts) t).arready = true ↔ t = 1 ∨ t = 5 ∨ t = 1701 ∨ t = 1711 := by
  induction t with
  | zero => exact iff_of_false Bool.false_ne_true (by omega)
  | succ t ih =>
    rw [UsrControl.arready_succ run_twoStarts.usrControl, Bool.and_eq_true, Bool.not_eq_true',
      ← Bool.not_eq_true, ih, arvalid_twoStarts]
    omega

theorem accepts_twoStarts {t : ℕ} :
    Accepts (channel twoStarts (trace twoStarts) t) (registers (trace twoStarts) t) ↔
      t = 0 ∨ t = 4 ∨ t = 1700 ∨ t = 1710 := by
  rw [Accepts, ← Bool.not_eq_true, arready_twoStarts, arvalid_twoStarts]
  omega

theorem oneAtATime_twoStarts : OneAtATime (channel twoStarts (trace twoStarts)) (registers (trace twoStarts)) where
  holds t hv hr := by
    have ha : t = 0 ∨ t = 4 ∨ t = 1700 ∨ t = 1710 := accepts_twoStarts.mp ⟨hv, hr⟩
    refine ⟨arvalid_twoStarts.mpr (by omega), ?_⟩
    obtain rfl | rfl | rfl | rfl := ha <;> simp only [channel, usrInput, twoStarts] <;> rfl
  noOverlap t _ hr := absurd hr (by simp [channel, usrInput, twoStarts])

theorem register_twoStarts {t : ℕ} (ht : 4 ≤ t) (ht' : t < 1705) :
    (channel twoStarts (trace twoStarts) t).register = 2#2 := by
  simp only [channel, usrInput, twoStarts, UsrControl.Input.register, if_pos (And.intro ht ht')]
  rfl

theorem phase_twoStarts : phase (trace twoStarts) 1 = .triggered := by
  rw [run_twoStarts.phase_succ rfl, Phase.next_eq_triggered]
  exact ⟨rfl, accepts_twoStarts.mpr (.inl rfl), rfl, rfl⟩

theorem phase_done_twoStarts : phase (trace twoStarts) 1700 = .done :=
  phase_done_first run_twoStarts rfl phase_twoStarts (by omega) fun x hx hx' hrep => by
    have ha := accepts_twoStarts.mp hrep.1
    omega

theorem finishReg_twoStarts : (registers (trace twoStarts) 1700).finishReg = true := by
  rw [run_twoStarts.finishReg_eq rfl (by rw [phase_done_twoStarts]; decide), phase_done_twoStarts]
  rfl

theorem phase_ready_twoStarts {t : ℕ} (ht : 1701 ≤ t) (ht' : t ≤ 1710) : phase (trace twoStarts) t = .ready := by
  induction t, ht using Nat.le_induction with
  | base =>
    rw [run_twoStarts.phase_succ rfl, Phase.next_eq_ready]
    exact .inr ⟨phase_done_twoStarts, accepts_twoStarts.mpr (by omega), register_twoStarts (by omega) (by omega),
      finishReg_twoStarts⟩
  | succ t ht ih =>
    rw [run_twoStarts.phase_succ rfl, Phase.next_eq_ready]
    refine .inl ⟨ih (by omega), fun htrig => ?_⟩
    have ha := accepts_twoStarts.mp htrig.1
    omega

theorem runs_exclusive_twoStarts :
    RunsExclusive twoStarts (trace twoStarts) ∧
      StartRises (trace twoStarts) 0 ∧ StartRises (trace twoStarts) 1710 ∧
      IsRead (channel twoStarts (trace twoStarts)) (registers (trace twoStarts)) 2#2 0 4 6 ∧
      IsRead (channel twoStarts (trace twoStarts)) (registers (trace twoStarts)) 2#2 2 1700 1702 := by
  have hread {t : ℕ} (ha : t = 4 ∨ t = 1700) : IsRead (channel twoStarts (trace twoStarts))
      (registers (trace twoStarts)) 2#2 (if (registers (trace twoStarts) t).finishReg then 2 else 0) t (t + 2) := by
    have hr := UsrControl.isRead_of_accepts run_twoStarts.usrControl rfl oneAtATime_twoStarts
      (t := t) (accepts_twoStarts.mpr (by omega)) rfl
    rw [UsrControl.readValue, register_twoStarts (t := t) (by omega) (by omega), if_pos rfl] at hr
    exact hr
  refine ⟨runs_exclusive twoStarts (fun _ => rfl) oneAtATime_twoStarts, ?_, ?_, ?_, ?_⟩
  · exact (startRises_iff run_twoStarts rfl).mpr ⟨rfl, accepts_twoStarts.mpr (.inl rfl), rfl, rfl⟩
  · have hready := phase_ready_twoStarts (t := 1710) (by omega) le_rfl
    refine (startRises_iff run_twoStarts rfl).mpr ⟨hready, accepts_twoStarts.mpr (by omega), rfl, ?_⟩
    have hprocess := run_twoStarts.process_eq rfl 1710
    rw [hready] at hprocess
    exact hprocess
  · exact hread (.inl rfl)
  · have hr := hread (t := 1700) (.inr rfl)
    rwa [if_pos finishReg_twoStarts] at hr

end TwoStarts

end EmbeddedAccelerator.UsrLogic
