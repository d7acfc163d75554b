import EmbeddedAccelerator.Clocked.Pulses
import EmbeddedAccelerator.Datapath.Blocks

namespace EmbeddedAccelerator

namespace ComputeControl

variable {P : Params} (start bLoadDone : Bool) {cGatherDone : Bool} {s : State}

theorem step_computing (h : s.startCal = true → s.state = .computing ∧ cGatherDone = false) :
    (step P false start bLoadDone cGatherDone s).state = .computing ∧
        (step P false start bLoadDone cGatherDone s).startCal = false ↔
      s.startCal = true ∨ (s.state = .computing ∧ s.startCal = false) ∧ ¬ cGatherDone = true := by
  obtain ⟨state, startCal, bLoad, finish, rowCnt, colCnt⟩ := s
  cases state <;> cases startCal <;> simp only [step] at h ⊢ <;> split_ifs <;> simp_all

theorem finish_raised (hlow : s.finish = false)
    (hhigh : (step P false start bLoadDone cGatherDone s).finish = true) :
    cGatherDone = true ∧ s.rowCnt = rowCount P - 1 ∧ s.colCnt = colCount P - 1 := by
  obtain ⟨state, startCal, bLoad, finish, rowCnt, colCnt⟩ := s
  subst hlow
  cases state <;> simp only [step] at hhigh <;> split_ifs at hhigh <;> simp_all

end ComputeControl

namespace MatrixMultiply

open GatherC (Cursor)

variable {P : Params}

/-- Every pulse between two controllers meets a state that reacts to it. -/
structure PulsesMeet (c : Control) : Prop where
  bLoad : c.computeControl.bLoad = true → c.scatterB.state = .idle ∨ c.scatterB.state = .waiting
  loadDone : c.scatterB.loadDone = true → c.computeControl.state = .preparing
  startCal : c.computeControl.startCal = true →
    (c.scatterA.state = .idle ∨ c.scatterA.state = .waiting) ∧
      (c.gatherC.gather.state = .idle ∨ c.gatherC.gather.state = .waiting) ∧
      c.gatherC.bram.bramState = .idle ∧ c.scatterB.stationaryCtrl = false
  gatherDone : GatherC.gatherDone c.gatherC = true → c.computeControl.state = .computing

/-- The block that `compute_control` counts. -/
def Control.block (c : Control) : Cursor := ⟨c.computeControl.rowCnt, c.computeControl.colCnt⟩

/-- All controllers work on the block that `compute_control` counts. -/
structure BlocksAgree (inputs : ℕ → Input) (s : ℕ → State P) (t : ℕ) : Prop where
  gather_row : (s t).control.gatherC.gather.rowCnt = (s t).control.block.row
  gather_col : (s t).control.gatherC.gather.colCnt = (s t).control.block.col
  scatter_a : (s t).control.scatterA.colCnt = (s t).control.block.row
  loaded : Loaded P inputs s (s t).control.block t

section Wires

variable (P) (x : Pass) (fin : Bool)

theorem PulsesMeet.of_quiet {c : Control} (h1 : c.computeControl.bLoad = false)
    (h2 : c.scatterB.loadDone = false) (h3 : c.computeControl.startCal = false)
    (h4 : GatherC.gatherDone c.gatherC = false) : PulsesMeet c := by
  constructor <;> simp [h1, h2, h3, h4]

theorem pulsesMeet_powerOn : PulsesMeet (powerOn P).control := .of_quiet rfl rfl rfl rfl

theorem pulsesMeet_idleAt : PulsesMeet (idleAt P x fin) := by
  refine .of_quiet rfl ?_ rfl rfl
  rcases x with ⟨_ | _, _, _, _, _⟩ <;> rfl

theorem ready_cases (u : ScatterB.Load) :
    (u.ready P).state = .idle ∨ (u.ready P).state = .waiting := by
  cases u with
  | cold final => exact .inl rfl
  | warm b => exact .inr rfl

theorem stationaryCtrl_startTime : (x.load.state P x.startTime).stationaryCtrl = false := by
  rw [Pass.startTime, ScatterB.Load.state_lead P _ (by omega), ScatterB.stationaryCtrl_loadAt]
  rfl

theorem pulsesMeet_passAt (t : ℕ) : PulsesMeet (passAt P x fin t) := by
  have hs := x.startTime_pos
  have he := startTime_lt_endTime P x
  constructor
  · rw [passAt_bLoad, decide_eq_true_eq]
    rintro rfl
    rw [passAt, ScatterB.Load.state_zero]
    exact ready_cases P x.load
  · rw [passAt_loadDone, decide_eq_true_eq]
    intro h
    simp only [passAt, ComputeControl.passAt]
    split_ifs <;> first | rfl | omega
  · rw [passAt_startCal, decide_eq_true_eq]
    rintro rfl
    refine ⟨?_, ?_, ?_, stationaryCtrl_startTime P x⟩ <;>
      simp only [passAt, Nat.sub_self, ScatterA.streamAt_zero, GatherC.gatherAt_zero]
    · by_cases h : x.column = 0 <;> simp [ScatterA.ready, h]
    · by_cases h : x.group.row = 0 ∧ x.group.col = 0 <;> simp [GatherC.ready, h]
    · rfl
  · rw [passAt_gatherDone, decide_eq_true_eq]
    rintro rfl
    simp (disch := omega) only [passAt, ComputeControl.passAt, if_neg]

end Wires

section Run

variable {inputs : ℕ → Input} {s : ℕ → State P} (hP : P.Fits) (hsq : P.Square) (h : Run P inputs s)
  (h0 : (s 0).control = (powerOn P).control)
include hP hsq h h0

theorem Run.located (t : ℕ) :
    Located P (fun t => (s t).control) (fun T b => b ≠ ⟨0, 0⟩ → Fetched P inputs s b T) t :=
  MatrixMultiply.located hP hsq h.control h0 (fun _ _ _ hne => absurd rfl hne)
    (fun _ _ _ hb _ hT hl _ => fetched_next hP h hb hT hsq hl) t

theorem Run.bramWeC_of_idle {t : ℕ} (hidle : (s t).control.computeControl.state = .idle) :
    GatherC.bramWeC (s t).control.gatherC = false := by
  cases h.located hP hsq h0 t with
  | power hc => exact hc ▸ rfl
  | idle fin hc => exact hc ▸ rfl
  | pass T u b fin ht hu hb hQ hT =>
    rw [ht, pass_control hP h hb hT hu] at hidle
    simp only [passAt, ComputeControl.passAt] at hidle
    split_ifs at hidle

theorem Run.pulsesMeet (t : ℕ) : PulsesMeet (s t).control := by
  cases h.located hP hsq h0 t with
  | power hc => exact hc ▸ pulsesMeet_powerOn P
  | idle fin hc => exact hc ▸ pulsesMeet_idleAt P _ fin
  | pass T u b fin ht hu hb hQ hT =>
    rw [ht, pass_control hP h hb hT hu]
    exact pulsesMeet_passAt P _ fin u

theorem Run.blocksAgree {t : ℕ} (hcal : (s t).control.computeControl.startCal = true) :
    BlocksAgree inputs s t := by
  cases h.located hP hsq h0 t with
  | power hc =>
    rw [hc] at hcal
    cases hcal
  | idle fin hc =>
    rw [hc] at hcal
    cases hcal
  | pass T u b fin ht hu hb hQ hT =>
    have hc := pass_control hP h hb hT hu
    rw [ht, hc, passAt_startCal, decide_eq_true_eq] at hcal
    subst hcal
    have hblock : (s t).control.block = b := by
      rw [ht, hc]
      simp only [Control.block, passAt, ComputeControl.passAt]
      split_ifs <;> rfl
    have hl := loaded_startTime hP h hb hT hQ hsq
    constructor <;> rw [hblock]
    · rw [ht, hc, passAt, Nat.sub_self]
      rfl
    · rw [ht, hc, passAt, Nat.sub_self]
      rfl
    · rw [ht, hc, passAt, Nat.sub_self]
      rfl
    · rwa [ht]

theorem Run.startCal_computing {t : ℕ} (hcal : (s t).control.computeControl.startCal = true) :
    (s t).control.computeControl.state = .computing ∧
      GatherC.gatherDone (s t).control.gatherC = false := by
  cases h.located hP hsq h0 t with
  | power hc =>
    rw [hc] at hcal
    cases hcal
  | idle fin hc =>
    rw [hc] at hcal
    cases hcal
  | pass T u b fin ht hu hb hQ hT =>
    have hc := pass_control hP h hb hT hu
    have he := startTime_lt_endTime P (aligned b)
    rw [ht, hc, passAt_startCal, decide_eq_true_eq] at hcal
    rw [ht, hc, passAt_gatherDone, decide_eq_false (by omega), hcal]
    have hs := (aligned b).startTime_pos
    simp (disch := omega) only [passAt, ComputeControl.passAt, if_neg, ↓reduceIte, and_self]

theorem Run.alternates : Clocked.Alternates
    (fun t => (s t).control.computeControl.startCal = true)
    (fun t => GatherC.gatherDone (s t).control.gatherC = true)
    (fun t => (s t).control.computeControl.state = .computing ∧
      (s t).control.computeControl.startCal = false) where
  meets_closed t hcal := by simp [hcal]
  meets_open t hdone := by
    refine ⟨(h.pulsesMeet hP hsq h0 t).gatherDone hdone, ?_⟩
    by_contra hcal
    rw [Bool.not_eq_false] at hcal
    simp [(h.startCal_computing hP hsq h0 hcal).2] at hdone
  next t := by
    have hcal := h.startCal_computing hP hsq h0 (t := t)
    have hstep : (s (t + 1)).control.computeControl = _ := congrArg Control.computeControl (h.control t)
    rw [hstep]
    exact ComputeControl.step_computing _ _ hcal

end Run

/-- The inputs of a machine that is never reset. -/
def inputsOf (start : ℕ → Bool) (rdA rdB : ℕ → BitVec 128) (t : ℕ) : Input :=
  ⟨false, start t, rdA t, rdB t⟩

theorem run_powerOn (start : ℕ → Bool) (rdA rdB : ℕ → BitVec 128) :
    Run P (inputsOf start rdA rdB) (Clocked.run step (powerOn P) (inputsOf start rdA rdB)) :=
  ⟨Clocked.isRun_run _ _ _, fun _ => rfl⟩

/-- No pulse is lost and no two controllers disagree on the block, whatever `start` does and
whatever the memories return. -/
theorem handshakes_kept (start : ℕ → Bool) (rdA rdB : ℕ → BitVec 128) :
    let inputs := inputsOf start rdA rdB
    let s := Clocked.run step (powerOn shipped) inputs
    let startCal := fun t => (s t).control.computeControl.startCal = true
    let gatherDone := fun t => GatherC.gatherDone (s t).control.gatherC = true
    (∀ t, PulsesMeet (s t).control) ∧ (∀ t, startCal t → BlocksAgree inputs s t) ∧
      (∀ t₁ t₂, t₁ < t₂ → startCal t₁ → startCal t₂ → (∀ t, t₁ < t → t < t₂ → ¬ startCal t) →
        ∃! t, t₁ < t ∧ t < t₂ ∧ gatherDone t) ∧
      ∀ t, (s t).control.computeControl.finish = false →
        (s (t + 1)).control.computeControl.finish = true →
        gatherDone t ∧ (s t).control.block = ⟨3, 3⟩ := by
  intro inputs s startCal gatherDone
  have h : Run shipped inputs s := run_powerOn start rdA rdB
  refine ⟨h.pulsesMeet shipped_fits shipped_square rfl,
    fun t => h.blocksAgree shipped_fits shipped_square rfl, ?_, ?_⟩
  · intro t₁ t₂ h12 h1 h2 hn
    exact (h.alternates shipped_fits shipped_square rfl).existsUnique_closing h12 h1 h2 hn
  · intro t hlow hhigh
    have hstep : (s (t + 1)).control.computeControl = _ :=
      congrArg Control.computeControl (h.control t)
    rw [hstep] at hhigh
    obtain ⟨hdone, hr, hc⟩ := ComputeControl.finish_raised _ _ hlow hhigh
    exact ⟨hdone, congrArg₂ Cursor.mk hr hc⟩

end MatrixMultiply

end EmbeddedAccelerator
