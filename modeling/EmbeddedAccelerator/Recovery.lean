import EmbeddedAccelerator.Reset
import EmbeddedAccelerator.Schedule.Timeline

namespace EmbeddedAccelerator.Machine

open Clocked (Mem)
open MatrixMultiply (Control Pass rest released passAt idleAt aligned blockAt passTime passCount)

variable {P : Params}

/-- What the memories and the host see of the machine in one cycle. -/
structure SameOutputs (m m' : Machine P) : Prop where
  bramAddrA : m.bramAddrA = m'.bramAddrA
  bramAddrB : m.bramAddrB = m'.bramAddrB
  bramWeC : m.bramWeC = m'.bramWeC
  bramAddrC : m.bramWeC = true → m.bramAddrC = m'.bramAddrC
  bramWrdataC : m.bramWeC = true → m.bramWrdataC = m'.bramWrdataC
  finish : m.finish = m'.finish

theorem SameOutputs.of_mm {m m' : Machine P} (h : m.mm = m'.mm) : SameOutputs m m' := by
  constructor <;> simp only [Machine.bramAddrA, Machine.bramAddrB, Machine.bramWeC, Machine.bramAddrC,
    Machine.bramWrdataC, Machine.finish, h, implies_true]

/-- A reset of any length, an idle time of any length and a start pulse make of `m` what they make
of the machine that has just been powered on: nothing is written before the start pulse, and from
then on the outputs are the same. -/
def Recovers (m : Machine P) : Prop :=
  ∀ (A B : Mem) (r i : ℕ),
    let s := Clocked.run step m (resetInputs A B r i)
    let s' := Clocked.run step (powerOn P m.bramC) (resetInputs A B r i)
    (∀ t, r < t → t ≤ r + i + 2 → (s t).bramWeC = false) ∧
      ∀ t, r + i + 2 ≤ t → SameOutputs (s t) (s' t)

/-- Two machines that are idle together stay together: what the memories return in the idle state is
not used. -/
theorem mm_together {inputs : ℕ → Input} {m m' : ℕ → Machine P} (hle : P.dataASizeY ≤ P.dataASizeX)
    (h : Clocked.IsRun step inputs m) (h' : Clocked.IsRun step inputs m') {T : ℕ}
    (hr : (m T).mm = rest P) (hr' : (m' T).mm = rest P) (hn : ∀ t, T ≤ t → (inputs t).rst = false)
    (d : ℕ) : (m (T + d)).mm = (m' (T + d)).mm ∧
      (0 < d → (m (T + d)).bramRddataA = (m' (T + d)).bramRddataA ∧
        (m (T + d)).bramRddataB = (m' (T + d)).bramRddataB) := by
  induction d with
  | zero => exact ⟨hr.trans hr'.symm, fun h0 => absurd h0 (Nat.lt_irrefl 0)⟩
  | succ d ih =>
    obtain ⟨hmm, hrd⟩ := ih
    rw [← Nat.add_assoc, h, h']
    refine ⟨?_, fun _ => ⟨?_, ?_⟩⟩
    · obtain rfl | hd : d = 0 ∨ 0 < d := by omega
      · simp only [step, Nat.add_zero, hr, hr']
        rw [MatrixMultiply.step_rest hle (hn _ le_rfl), MatrixMultiply.step_rest hle (hn _ le_rfl)]
        rfl
      · simp only [step, ports, hmm, hrd hd]
    · simp only [step, bramAddrA, hmm]
    · simp only [step, bramAddrB, hmm]

theorem recovers_of_released (hle : P.dataASizeY ≤ P.dataASizeX) {m : Machine P}
    (hr : released m.mm = rest P) : Recovers m := by
  intro A B r i s s'
  have h : Clocked.IsRun step (resetInputs A B r i) s := Clocked.isRun_run _ _ _
  have h' : Clocked.IsRun step (resetInputs A B r i) s' := Clocked.isRun_run _ _ _
  refine ⟨fun t ht ht' => ?_, fun t ht => ?_⟩
  · obtain rfl | ⟨u, hu, rfl⟩ : t = r + 1 ∨ ∃ u ≤ i, t = r + 2 + u := by
      by_cases hr : t = r + 1
      · exact .inl hr
      · exact .inr ⟨t - (r + 2), by omega, by omega⟩
    · rw [bramWeC, mm_reset hle h le_rfl]
      rfl
    · rw [bramWeC, mm_rest hle h hr hu]
      rfl
  · have ht2 := mm_rest hle h hr (le_refl i)
    have ht2' := mm_rest hle h' (MatrixMultiply.released_powerOn P) (le_refl i)
    obtain ⟨d, rfl⟩ : ∃ d, t = r + 2 + i + d := ⟨t - (r + 2 + i), by omega⟩
    exact .of_mm (mm_together hle h h' ht2 ht2' (fun t ht => decide_eq_false (by omega)) d).1

theorem writeBack_of_recovers {m : Machine P} (hle : P.dataASizeY ≤ P.dataASizeX) (hm : Recovers m) :
    m.mm.gatherC.control.gather.writeBack = false := by
  have h := (hm 0 0 0 0).1 2 (by decide) (by decide)
  rw [bramWeC, mm_released (r := 0) hle (Clocked.isRun_run _ _ _)] at h
  by_contra hw
  rw [Bool.not_eq_false] at hw
  simp only [released, Clocked.run, hw] at h
  exact absurd h (by decide)

/-- The pass that a start pulse begins when only `Final` is left over, or nothing. -/
def firstPass (final : Bool) : Pass := { Pass.start with load := .cold final }

theorem scatterB_after_reset (hP : P.Fits) (hsq : P.Square) {A B : Mem} {m : ℕ → Machine P}
    (h : Clocked.IsRun step (resetInputs A B 0 0) m)
    (hw : (m 0).mm.gatherC.control.gather.writeBack = false) {u : ℕ}
    (hu : u ≤ (firstPass (m 0).mm.scatterB.main.final).endTime P) :
    (m (3 + u)).mm.scatterB.main =
      (ScatterB.Load.cold (m 0).mm.scatterB.main.final).state P u := by
  have h2 : (m 2).mm.control = idleAt P (firstPass (m 0).mm.scatterB.main.final) false := by
    rw [mm_released (r := 0) hsq.1.le h]
    simp only [released, hw]
    rfl
  have h3 : (m 3).mm.control = passAt P (firstPass (m 0).mm.scatterB.main.final) false 0 := by
    rw [h, step, MatrixMultiply.control_step, h2]
    exact MatrixMultiply.idleAt_step true _ ⟨rfl, rfl⟩ false
  have hc : MatrixMultiply.ControlRun P (fun t => (resetInputs A B 0 0 (3 + t)).start)
      (fun t => (m (3 + t)).mm.control) := by
    intro t
    show (m (3 + t + 1)).mm.control = _
    rw [h, step, MatrixMultiply.control_step]
    have hrst : (resetInputs A B 0 0 (3 + t)).rst = false := decide_eq_false (by omega)
    rw [ports, hrst]
  have hx : (firstPass (m 0).mm.scatterB.main.final).Valid P := Pass.start_valid hP
  have hp := MatrixMultiply.pass_schedule hP hc hx (T := 0) h3 u hu
  rw [Nat.zero_add] at hp
  exact congrArg Control.scatterB hp

theorem final_of_recovers {m : Machine shipped} (hm : Recovers m) : m.mm.scatterB.main.final = false := by
  have hw := writeBack_of_recovers shipped_square.1.le hm
  have h := ((hm 0 0 0 0).2 40 (by decide)).bramAddrB
  have hend (final : Bool) : 37 ≤ (firstPass final).endTime shipped := by cases final <;> decide
  rw [bramAddrB, bramAddrB, show 40 = 3 + 37 from rfl,
    scatterB_after_reset shipped_fits shipped_square (Clocked.isRun_run _ _ _) hw (hend _),
    scatterB_after_reset shipped_fits shipped_square (Clocked.isRun_run _ _ _) rfl (hend _)] at h
  by_contra hf
  rw [Bool.not_eq_false] at hf
  have hp : (powerOn shipped m.bramC).mm.scatterB.main.final = false := rfl
  simp only [Clocked.run, hf, hp] at h
  exact absurd h (by decide)

/-- Of the states that the machine reaches, a reset recovers exactly from those in which neither
`Final` nor `write_back` is set, whatever came before. -/
theorem reset_recovers_iff (bramC : Mem) (inputs : ℕ → Input) (t : ℕ) :
    let m := Clocked.run step (powerOn shipped bramC) inputs t
    Recovers m ↔
      m.mm.scatterB.main.final = false ∧ m.mm.gatherC.control.gather.writeBack = false :=
  ⟨fun hm => ⟨final_of_recovers hm, writeBack_of_recovers shipped_square.1.le hm⟩,
    fun ⟨hf, hw⟩ => recovers_of_released shipped_square.1.le (MatrixMultiply.released_eq_rest hf hw)⟩

theorem final_before_last_load {inputs : ℕ → Input} {m : ℕ → Machine shipped} {T : ℕ}
    (hc : MatrixMultiply.ControlRun shipped (fun t => (inputs t).start) (fun t => (m t).mm.control))
    (hT : (m T).mm.control = passAt shipped (aligned ⟨0, 0⟩) false 0) :
    (m (T + passTime shipped 15)).mm.scatterB.main.final = true := by
  have h := MatrixMultiply.timeline_pass shipped_fits shipped_square hc hT (p := 15) (by decide)
  rw [MatrixMultiply.blockAt_eq shipped_fits (by decide)] at h
  exact congrArg (fun c : Control => c.scatterB.final) h

theorem reset_in_last_pass :
    ¬ ∀ (inputs : ℕ → Input) (t : ℕ), (∀ u, (inputs u).rst = false) →
      Recovers (Clocked.run step (powerOn shipped fun _ => 0) inputs t) := by
  intro hall
  let inputs : ℕ → Input := fun t => ⟨false, t = 0, fun _ => 0, fun _ => 0⟩
  have h := hall inputs (1 + passTime shipped 15) fun _ => rfl
  have hc : MatrixMultiply.ControlRun shipped (fun t => (inputs t).start)
      (fun t => (Clocked.run step (powerOn shipped fun _ => 0) inputs t).mm.control) := fun _ => rfl
  have hf := final_before_last_load (T := 1) hc rfl
  rw [final_of_recovers h] at hf
  cases hf

end EmbeddedAccelerator.Machine
