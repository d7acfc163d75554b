import EmbeddedAccelerator.Handshakes
import EmbeddedAccelerator.ReadChannel

/-!
`Usr_control` and `Matrix_Multiply`: the flags of the one tell at any time where the other stands.
-/

namespace EmbeddedAccelerator

namespace ComputeControl

variable (P : Params) (start bLoadDone cGatherDone : Bool) {s : State}

theorem step_of_idle (h : s.state = .idle) :
    (step P false start bLoadDone cGatherDone s).state = (if start then .preparing else .idle) ∧
      (step P false start bLoadDone cGatherDone s).finish = if start then s.finish else false := by
  simp only [step, h]
  cases start <;> exact ⟨rfl, rfl⟩

theorem step_of_preparing (h : s.state = .preparing) :
    ((step P false start bLoadDone cGatherDone s).state = .preparing ∨
        (step P false start bLoadDone cGatherDone s).state = .computing) ∧
      (step P false start bLoadDone cGatherDone s).finish = s.finish := by
  simp only [step, h]
  cases bLoadDone
  · exact ⟨.inl rfl, rfl⟩
  · exact ⟨.inr rfl, rfl⟩

theorem step_of_computing (h : s.state = .computing) :
    if (step P false start bLoadDone cGatherDone s).finish = true then
      (step P false start bLoadDone cGatherDone s).state = .idle
    else (step P false start bLoadDone cGatherDone s).state = .preparing ∨
      (step P false start bLoadDone cGatherDone s).state = .computing := by
  simp only [step, h]
  cases cGatherDone
  · simp
  · split_ifs <;> simp_all

end ComputeControl

namespace UsrLogic

structure State (P : Params) where
  usrControl : UsrControl.State
  mm : MatrixMultiply.State P

structure Input where
  userResetn : Bool
  araddr : BitVec 32
  arvalid : Bool
  rready : Bool
  bramRddataA : BitVec 128
  bramRddataB : BitVec 128

variable {P : Params}

def usrInput (i : Input) (s : State P) : UsrControl.Input :=
  ⟨i.userResetn, s.mm.computeControl.finish, i.araddr, i.arvalid, i.rready⟩

def mmInput (i : Input) (s : State P) : MatrixMultiply.Input :=
  ⟨!i.userResetn, s.usrControl.start, i.bramRddataA, i.bramRddataB⟩

def step (i : Input) (s : State P) : State P :=
  ⟨UsrControl.step (usrInput i s) s.usrControl, MatrixMultiply.step (mmInput i s) s.mm⟩

def powerOn (P : Params) : State P := ⟨UsrControl.powerOn, MatrixMultiply.powerOn P⟩

/-- Where the host and the machine are. -/
inductive Phase where
  | ready | triggered | acknowledged | running | finishing | done
  deriving DecidableEq, Repr

namespace Phase

open UsrControl (Triggers Reports)

/-- What the registers of `Usr_control` and `compute_control` are in a phase. -/
def Holds (u : UsrControl.State) (c : ComputeControl.State) : Phase → Prop
  | ready => u.process = false ∧ u.start = false ∧ u.start2 = false ∧ u.finish2 = false ∧
      c.state = .idle ∧ c.finish = false
  | triggered => u.process = true ∧ u.start = true ∧ u.start2 = false ∧ u.finish2 = false ∧
      u.finishReg = false ∧ c.state = .idle ∧ c.finish = false
  | acknowledged => u.process = true ∧ u.start = true ∧ u.start2 = true ∧ u.finish2 = false ∧
      u.finishReg = false ∧ c.state = .preparing ∧ c.finish = false
  | running => u.process = true ∧ u.start = false ∧ u.start2 = false ∧ u.finish2 = false ∧
      u.finishReg = false ∧ (c.state = .preparing ∨ c.state = .computing) ∧ c.finish = false
  | finishing => u.process = true ∧ u.start = false ∧ u.start2 = false ∧ u.finish2 = false ∧
      u.finishReg = false ∧ c.state = .idle ∧ c.finish = true
  | done => u.process = true ∧ u.start = false ∧ u.start2 = false ∧
      u.finishReg = true ∧ c.state = .idle ∧ c.finish = false

/-- The phase after an edge: `triggers` and `reports` say which read is taken with it, `finish` is
`Finish` after it. -/
def next (triggers reports : Prop) [Decidable triggers] [Decidable reports] (finish : Bool) :
    Phase → Phase
  | ready => if triggers then triggered else ready
  | triggered => acknowledged
  | acknowledged => running
  | running => if finish then finishing else running
  | finishing => done
  | done => if reports then ready else done

section Next

variable {triggers reports : Prop} [Decidable triggers] [Decidable reports] {finish : Bool} {p : Phase}

theorem next_eq_ready :
    next triggers reports finish p = ready ↔ p = ready ∧ ¬ triggers ∨ p = done ∧ reports := by
  cases p <;> simp [next]
  split_ifs <;> simp_all

theorem next_eq_triggered : next triggers reports finish p = triggered ↔ p = ready ∧ triggers := by
  cases p <;> simp [next] <;> split_ifs <;> simp_all

theorem next_eq_acknowledged : next triggers reports finish p = acknowledged ↔ p = triggered := by
  cases p <;> simp [next] <;> split_ifs <;> simp_all

theorem next_eq_running :
    next triggers reports finish p = running ↔ p = acknowledged ∨ p = running ∧ finish = false := by
  cases p <;> simp [next] <;> split_ifs <;> simp_all

theorem next_eq_finishing : next triggers reports finish p = finishing ↔ p = running ∧ finish = true := by
  cases p <;> simp [next] <;> split_ifs <;> simp_all

theorem next_eq_done :
    next triggers reports finish p = done ↔ p = finishing ∨ p = done ∧ ¬ reports := by
  cases p <;> simp [next] <;> split_ifs <;> simp_all

end Next

/-- The phase that the registers show. -/
def of (u : UsrControl.State) (c : ComputeControl.State) : Phase :=
  if u.process = false then ready
  else if u.start = true then if u.start2 = true then acknowledged else triggered
  else if c.state ≠ .idle then running
  else if c.finish = true then finishing
  else done

theorem of_eq {u : UsrControl.State} {c : ComputeControl.State} {p : Phase} (h : p.Holds u c) :
    of u c = p := by
  cases p <;> simp only [Holds] at h <;> obtain ⟨h1, h2, h3, h4, h5, h6⟩ := h
  · simp [of, h1]
  · simp [of, h1, h2, h3]
  · simp [of, h1, h2, h3]
  · rcases h6.1 with hc | hc <;> simp [of, h1, h2, hc]
  · simp [of, h1, h2, h6.1, h6.2]
  · simp [of, h1, h2, h5, h6]

section Step

variable {i : UsrControl.Input} {u : UsrControl.State} {c : ComputeControl.State} (hr : i.aresetn = true)
  (hf : i.finish = c.finish) (bLoadDone cGatherDone : Bool)
include hr hf

theorem holds_step {p : Phase} (h : p.Holds u c) :
    (p.next (Triggers i u) (Reports i u)
        (ComputeControl.step P false u.start bLoadDone cGatherDone c).finish).Holds
      (UsrControl.step i u) (ComputeControl.step P false u.start bLoadDone cGatherDone c) := by
  have not_triggers (hp : u.process = true) : ¬ Triggers i u := fun ht =>
    Bool.false_ne_true (ht.2.2.symm.trans hp)
  have not_reports (hp : u.finishReg = false) : ¬ Reports i u := fun ht =>
    Bool.false_ne_true (hp.symm.trans ht.2.2)
  rw [UsrControl.step_eq hr, hf]
  cases p with
  | ready =>
    obtain ⟨hp, hs, hs2, hf2, hc, hcf⟩ := h
    obtain ⟨hc', hcf'⟩ := ComputeControl.step_of_idle P u.start bLoadDone cGatherDone hc
    rw [hs] at hc' hcf' ⊢
    by_cases ht : Triggers i u <;> simp [next, Holds, ht, hp, hc', hcf', hs2, hcf]
  | triggered =>
    obtain ⟨hp, hs, hs2, hf2, hfr, hc, hcf⟩ := h
    obtain ⟨hc', hcf'⟩ := ComputeControl.step_of_idle P u.start bLoadDone cGatherDone hc
    rw [hs] at hc' hcf' ⊢
    simp [next, Holds, not_triggers hp, not_reports hfr, hp, hc', hcf', hs2, hfr, hcf]
  | acknowledged =>
    obtain ⟨hp, hs, hs2, hf2, hfr, hc, hcf⟩ := h
    obtain ⟨hc', hcf'⟩ := ComputeControl.step_of_preparing P u.start bLoadDone cGatherDone hc
    rw [hs] at hc' hcf' ⊢
    simp [next, Holds, not_triggers hp, not_reports hfr, hp, hc', hcf', hs2, hfr, hcf]
  | running =>
    obtain ⟨hp, hs, hs2, hf2, hfr, hc, hcf⟩ := h
    rw [hs]
    rcases hc with hc | hc
    · obtain ⟨hc', hcf'⟩ := ComputeControl.step_of_preparing P false bLoadDone cGatherDone hc
      simp [next, Holds, not_triggers hp, not_reports hfr, hp, hc', hcf', hs2, hfr, hcf]
    · have hc' := ComputeControl.step_of_computing P false bLoadDone cGatherDone hc
      cases hcf' : (ComputeControl.step P false false bLoadDone cGatherDone c).finish
      · rw [hcf', if_neg Bool.false_ne_true] at hc'
        simp [next, Holds, not_triggers hp, not_reports hfr, hp, hc', hcf', hs2, hfr, hcf]
      · rw [hcf', if_pos rfl] at hc'
        simp [next, Holds, not_triggers hp, not_reports hfr, hp, hc', hcf', hs2, hfr, hcf]
  | finishing =>
    obtain ⟨hp, hs, hs2, hf2, hfr, hc, hcf⟩ := h
    obtain ⟨hc', hcf'⟩ := ComputeControl.step_of_idle P u.start bLoadDone cGatherDone hc
    rw [hs] at hc' hcf' ⊢
    simp [next, Holds, not_triggers hp, not_reports hfr, hp, hc', hcf', hs2, hf2, hfr, hcf]
  | done =>
    obtain ⟨hp, hs, hs2, hfr, hc, hcf⟩ := h
    obtain ⟨hc', hcf'⟩ := ComputeControl.step_of_idle P u.start bLoadDone cGatherDone hc
    rw [hs] at hc' hcf' ⊢
    by_cases hrep : Reports i u <;>
      simp [next, Holds, not_triggers hp, hrep, hp, hc', hcf', hs2, hfr, hcf]

end Step

theorem holds_powerOn : ready.Holds UsrControl.powerOn (MatrixMultiply.powerOn P).computeControl :=
  ⟨rfl, rfl, rfl, rfl, rfl, rfl⟩

section Signals

variable {u : UsrControl.State} {c : ComputeControl.State} {p : Phase} (h : p.Holds u c)
include h

theorem start_eq : u.start = decide (p = triggered ∨ p = acknowledged) := by
  cases p <;> exact h.2.1

theorem process_eq : u.process = decide (p ≠ ready) := by
  cases p <;> exact h.1

theorem finish_eq : c.finish = decide (p = finishing) := by
  cases p <;> simp_all [Holds]

theorem finishReg_eq (hp : p ≠ ready) : u.finishReg = decide (p = done) := by
  cases p <;> simp_all [Holds]

theorem idle_iff : c.state = .idle ↔ p ≠ acknowledged ∧ p ≠ running := by
  cases p <;> simp only [Holds] at h
  case running => rcases h.2.2.2.2.2.1 with hc | hc <;> simp [hc]
  all_goals simp [h]

end Signals

end Phase

/-- The composed system in every cycle after a reset. -/
structure Run (inputs : ℕ → Input) (s : ℕ → State P) : Prop where
  isRun : Clocked.IsRun step inputs s
  noReset : ∀ t, (inputs t).userResetn = true

/-- The read channel and the registers behind it in every cycle. -/
abbrev channel (inputs : ℕ → Input) (s : ℕ → State P) (t : ℕ) : UsrControl.Input := usrInput (inputs t) (s t)

abbrev registers (s : ℕ → State P) (t : ℕ) : UsrControl.State := (s t).usrControl

/-- The phase in cycle `t`. -/
def phase (s : ℕ → State P) (t : ℕ) : Phase := Phase.of (s t).usrControl (s t).mm.computeControl

section Run

variable {inputs : ℕ → Input} {s : ℕ → State P} (h : Run inputs s)
include h

theorem Run.usrControl :
    UsrControl.Run (channel inputs s) (registers s) where
  isRun t := by
    show (s (t + 1)).usrControl = _
    rw [h.isRun t, step]
  noReset := h.noReset

theorem Run.mm :
    MatrixMultiply.Run P (fun t => mmInput (inputs t) (s t)) (fun t => (s t).mm) where
  isRun t := by
    show (s (t + 1)).mm = _
    rw [h.isRun t, step]
  noReset t := by
    show (!(inputs t).userResetn) = false
    rw [h.noReset t]
    rfl

theorem Run.computeControl (t : ℕ) :
    (s (t + 1)).mm.computeControl = ComputeControl.step P false (s t).usrControl.start
      (s t).mm.scatterB.main.loadDone (GatherC.gatherDone (s t).mm.gatherC.control)
      (s t).mm.computeControl :=
  congrArg MatrixMultiply.Control.computeControl (h.mm.control t)

variable (h0 : s 0 = powerOn P)
include h0

theorem Run.holds (t : ℕ) : (phase s t).Holds (s t).usrControl (s t).mm.computeControl := by
  induction t with
  | zero =>
    rw [phase, h0]
    exact Phase.holds_powerOn (P := P)
  | succ t ih =>
    have hs := Phase.holds_step (P := P) (i := usrInput (inputs t) (s t)) (h.noReset t) rfl
      (s t).mm.scatterB.main.loadDone (GatherC.gatherDone (s t).mm.gatherC.control) ih
    rw [← h.computeControl, ← show (s (t + 1)).usrControl = _ from h.usrControl.isRun t] at hs
    rwa [phase, Phase.of_eq hs]

theorem Run.start_eq (t : ℕ) :
    (s t).usrControl.start = decide (phase s t = .triggered ∨ phase s t = .acknowledged) :=
  Phase.start_eq (h.holds h0 t)

theorem Run.process_eq (t : ℕ) : (s t).usrControl.process = decide (phase s t ≠ .ready) :=
  Phase.process_eq (h.holds h0 t)

theorem Run.finish_eq (t : ℕ) : (s t).mm.computeControl.finish = decide (phase s t = .finishing) :=
  Phase.finish_eq (h.holds h0 t)

theorem Run.finishReg_eq {t : ℕ} (hp : phase s t ≠ .ready) :
    (s t).usrControl.finishReg = decide (phase s t = .done) :=
  Phase.finishReg_eq (h.holds h0 t) hp

theorem Run.idle_iff (t : ℕ) :
    (s t).mm.computeControl.state = .idle ↔ phase s t ≠ .acknowledged ∧ phase s t ≠ .running :=
  Phase.idle_iff (h.holds h0 t)

theorem Run.phase_succ (t : ℕ) :
    phase s (t + 1) = (phase s t).next
      (UsrControl.Triggers (channel inputs s t) (registers s t))
      (UsrControl.Reports (channel inputs s t) (registers s t))
      (s (t + 1)).mm.computeControl.finish := by
  have hs := Phase.holds_step (P := P) (i := usrInput (inputs t) (s t)) (h.noReset t) rfl
    (s t).mm.scatterB.main.loadDone (GatherC.gatherDone (s t).mm.gatherC.control) (h.holds h0 t)
  rw [← h.computeControl, ← show (s (t + 1)).usrControl = _ from h.usrControl.isRun t] at hs
  exact Phase.of_eq hs

end Run

end UsrLogic

end EmbeddedAccelerator
