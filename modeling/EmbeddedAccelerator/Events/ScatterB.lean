import EmbeddedAccelerator.Clocked.Run
import EmbeddedAccelerator.Events.Streams
import EmbeddedAccelerator.MatrixMultiply

/-!
The clocked processes of `scatter_b`. Its main process counts with a blocking assignment, and the
processes that fill `buffer_B` use the counter as their index.
-/

namespace EmbeddedAccelerator

open Clocked (Parts)
open Clocked.Process (Schedule edge)

namespace ScatterB

inductive ProcessId where
  | main | genBuffer (j : Fin N) | genLoad (i : Fin N)
  deriving DecidableEq, Repr

def Part (W : ℕ) : ProcessId → Type
  | .main => Main
  | .genBuffer _ => Fin N → BitVec W
  | .genLoad _ => BitVec W

variable {W n : ℕ}

def parts : Parts (State W) (Part W) where
  get
    | .main => fun s => s.main
    | .genBuffer j => fun s m => s.bufferB m j
    | .genLoad i => fun s => s.bIns i
  put
    | .main => fun a s => { s with main := a }
    | .genBuffer j => fun x s => { s with bufferB := fun m k => if k = j then x m else s.bufferB m k }
    | .genLoad i => fun x s => { s with bIns := fun k => if k = i then x else s.bIns k }
  ext {s t} h := by
    obtain ⟨sm, sbuf, sb⟩ := s
    obtain ⟨tm, tbuf, tb⟩ := t
    obtain rfl : sm = tm := h .main
    obtain rfl : sbuf = tbuf := funext fun m => funext fun j => congrFun (h (.genBuffer j)) m
    obtain rfl : sb = tb := funext fun i => h (.genLoad i)
    rfl
  get_put i a s := by
    cases i with
    | main => rfl
    | genBuffer j => exact funext fun m => if_pos rfl
    | genLoad i => exact if_pos rfl
  get_put_of_ne {p q} hne a s := by
    cases p with
    | main => cases q <;> first | rfl | exact absurd rfl hne
    | genBuffer j =>
      cases q with
      | genBuffer k => exact funext fun m => if_neg fun h : k = j => hne (h ▸ rfl)
      | _ => rfl
    | genLoad i =>
      cases q with
      | genLoad k => exact if_neg fun h : k = i => hne (h ▸ rfl)
      | _ => rfl

def mainEvents (P : Params) (rst load : Bool) (s : Main) : Main × (Main → Main) :=
  if rst then (s, fun t => { t with colCnt := 0, state := .idle, loadCnt := 0 })
  else match s.state with
  | .idle =>
    if load then (s, fun t => { t with state := .preparing })
    else
      (s, fun t =>
        { t with
          first := true, stationaryCtrl := false, loadDone := false, state := .idle
          inBlockCnt := 0, colCnt := 0, rowCnt := 0, loadCnt := 0 })
  | .preparing =>
    if s.inBlockCnt = N + 1 then
      (s, fun t =>
        let t := { t with loadDone := false, stationaryCtrl := false, inBlockCnt := 0, state := .waiting }
        if s.rowCnt = rowCount P - 1 then
          if s.colCnt = colCount P - 1 then { t with rowCnt := 0, colCnt := 0, final := true }
          else { t with rowCnt := 0, colCnt := (s.colCnt + 1) % 2 ^ (P.dataBSizeX / N) }
        else { t with rowCnt := (s.rowCnt + 1) % 2 ^ (P.dataBSizeX / N), colCnt := s.colCnt })
    else
      ({ s with inBlockCnt := (s.inBlockCnt + 1) % 2 ^ N },
        fun t => { t with loadDone := false, stationaryCtrl := false })
  | .waiting =>
    if load || s.first then
      (s, fun t => { t with loadDone := false, state := .loading, stationaryCtrl := true, first := false })
    else (s, fun t => { t with loadDone := false, state := .waiting })
  | .loading =>
    if s.loadCnt = N - 1 then
      (s, fun t =>
        let t := { t with loadDone := true, stationaryCtrl := true, loadCnt := 0 }
        if s.final then { t with state := .idle, final := false } else { t with state := .preparing })
    else (s, fun t => { t with loadCnt := (s.loadCnt + 1) % 2 ^ N })
  | .done => (s, id)

def bufferEvents (rst : Bool) (bramRddataB : BitVec n) (s : State W) (j : Fin N) :
    (Fin N → BitVec W) × ((Fin N → BitVec W) → Fin N → BitVec W) :=
  (fun m => s.bufferB m j,
    if rst then fun _ _ => 0
    else if s.main.state = .preparing then
      fun t m => if m.val = pred32 s.main.inBlockCnt then Clocked.lane W bramRddataB j else t m
    else fun t m => if m.val = pred32 s.main.inBlockCnt then s.bufferB m j else t m)

def process (P : Params) (rst load : Bool) (bramRddataB : BitVec n) :
    ∀ i, State W → Part W i × (Part W i → Part W i)
  | .main => fun s => mainEvents P rst load s.main
  | .genBuffer j => fun s => bufferEvents rst bramRddataB s j
  | .genLoad i => fun s => (s.bIns i, fun _ => genLoad rst s i)

theorem mainEvents_eq (P : Params) (rst load : Bool) (s : Main) :
    (mainEvents P rst load s).2 (mainEvents P rst load s).1 = mainProcess P rst load s := by
  obtain ⟨state, rowCnt, colCnt, inBlockCnt, loadCnt, final, first, stationaryCtrl, loadDone⟩ := s
  cases rst
  · cases state <;> simp only [mainEvents, mainProcess] <;> split_ifs <;> rfl
  · rfl

/-- The blocking assignment. -/
def Counts (rst : Bool) (s : Main) : Prop :=
  rst = false ∧ s.state = .preparing ∧ s.inBlockCnt ≠ N + 1

instance (rst : Bool) (s : Main) : Decidable (Counts rst s) :=
  inferInstanceAs (Decidable (_ ∧ _ ∧ _))

theorem mainEvents_fst (P : Params) (rst load : Bool) (s : Main) :
    (mainEvents P rst load s).1 =
      if Counts rst s then { s with inBlockCnt := (s.inBlockCnt + 1) % 2 ^ N } else s := by
  obtain ⟨state, rowCnt, colCnt, inBlockCnt, loadCnt, final, first, stationaryCtrl, loadDone⟩ := s
  cases rst
  · cases state <;> simp only [mainEvents, Counts] <;> split_ifs <;> simp_all
  · rfl

theorem bufferEvents_eq (rst : Bool) (bramRddataB : BitVec n) (s : State W) (j : Fin N) :
    (bufferEvents rst bramRddataB s j).2 (bufferEvents rst bramRddataB s j).1 =
      genBuffer rst bramRddataB s j := by
  simp only [bufferEvents, genBuffer]
  split_ifs
  · rfl
  · rfl
  · funext m
    exact ite_self _

section Process

variable (P : Params) (rst load : Bool) (bramRddataB : BitVec n)

theorem process_fst {j : ProcessId} (hj : j ≠ .main) (s : State W) :
    (parts.process (process P rst load bramRddataB) j s).1 = s := by
  refine parts.ext fun i => ?_
  by_cases hi : j = i
  · subst hi
    cases j with
    | main => exact absurd rfl hj
    | _ => exact parts.get_put _ _ s
  · exact parts.get_put_of_ne hi _ s

/-- The registers that the processes executed after the main one see. -/
def State.counted (rst : Bool) (s : State W) : State W :=
  if Counts rst s.main then { s with main := { s.main with inBlockCnt := (s.main.inBlockCnt + 1) % 2 ^ N } }
  else s

theorem process_main_fst (s : State W) :
    (parts.process (process P rst load bramRddataB) .main s).1 = s.counted rst := by
  show { s with main := (mainEvents P rst load s.main).1 } = _
  rw [mainEvents_fst, State.counted]
  split_ifs <;> rfl

/-- The row written by `gen_buffer` and the row it writes when it is executed after the main
process hold what they are written with. -/
def RaceFree (rst : Bool) (bramRddataB : BitVec n) (s : State W) : Prop :=
  Counts rst s.main → ∀ j m : Fin N,
    m.val = pred32 s.main.inBlockCnt ∨ m.val = pred32 ((s.main.inBlockCnt + 1) % 2 ^ N) →
      s.bufferB m j = Clocked.lane W bramRddataB j

theorem pred32_counted_ne (k : ℕ) {m : ℕ} (hm : m = pred32 k) : m ≠ pred32 ((k + 1) % 2 ^ N) := by
  simp only [pred32, N] at *
  omega

theorem genLoad_counted (s : State W) (i : Fin N) : genLoad rst (s.counted rst) i = genLoad rst s i := by
  rw [State.counted]
  split_ifs <;> rfl

section Counts

variable {rst} {s : State W} (hc : Counts rst s.main) (j : Fin N)
include hc

theorem genBuffer_of_counts :
    genBuffer rst bramRddataB s j = fun m =>
      if m.val = pred32 s.main.inBlockCnt then Clocked.lane W bramRddataB j else s.bufferB m j := by
  rw [genBuffer, hc.1, if_neg Bool.false_ne_true, if_pos hc.2.1]

theorem genBuffer_counted :
    genBuffer rst bramRddataB (s.counted rst) j = fun m =>
      if m.val = pred32 ((s.main.inBlockCnt + 1) % 2 ^ N) then Clocked.lane W bramRddataB j
      else s.bufferB m j := by
  rw [State.counted, if_pos hc, genBuffer, hc.1, if_neg Bool.false_ne_true, if_pos hc.2.1]

end Counts

theorem genBuffer_counted_iff (s : State W) :
    (∀ j, genBuffer rst bramRddataB (s.counted rst) j = genBuffer rst bramRddataB s j) ↔
      RaceFree rst bramRddataB s := by
  by_cases hc : Counts rst s.main
  · simp only [genBuffer_of_counts _ hc, genBuffer_counted _ hc]
    constructor
    · intro h _ j m hm
      have hj := congrFun (h j) m
      rcases hm with hm | hm
      · rw [if_neg (pred32_counted_ne _ hm), if_pos hm] at hj
        exact hj
      · rw [if_pos hm, if_neg fun hm' => pred32_counted_ne _ hm' hm] at hj
        exact hj.symm
    · intro h j
      have hrow := h hc j
      funext m
      split_ifs with h1 h2 h2
      · rfl
      · exact (hrow m (.inr h1)).symm
      · exact hrow m (.inl h2)
      · rfl
  · simp [State.counted, RaceFree, hc]

/-- All processes of the module, in the order in which they are written. -/
def sourceOrder : List ProcessId :=
  .main :: ((List.finRange N).map .genBuffer ++ (List.finRange N).map .genLoad)

theorem schedule_sourceOrder : Schedule sourceOrder where
  nodup := by decide
  mem i := by
    cases i <;> simp [sourceOrder]

theorem settled_process (i : ProcessId) (s : State W) :
    Parts.settled (process P rst load bramRddataB) i s = parts.get i (step P rst load bramRddataB s) := by
  cases i with
  | main => exact mainEvents_eq P rst load s.main
  | genBuffer j => exact bufferEvents_eq rst bramRddataB s j
  | genLoad i => rfl

theorem edge_eq_step_iff (s : State W) :
    (∀ order, Schedule order →
      edge (parts.process (process P rst load bramRddataB)) order s = step P rst load bramRddataB s) ↔
      RaceFree rst bramRddataB s := by
  have hP : ∀ j ≠ ProcessId.main, ∀ t : State W,
      (parts.process (process P rst load bramRddataB) j t).1 = t :=
    fun j hj => process_fst P rst load bramRddataB hj
  rw [← genBuffer_counted_iff]
  constructor
  · intro hall j
    have h := congrArg (parts.get (.genBuffer j)) (hall sourceOrder schedule_sourceOrder)
    rw [Parts.get_edge schedule_sourceOrder.nodup (schedule_sourceOrder.mem _), sourceOrder,
      Clocked.Process.seen_cons_self hP (by decide) (by simp), process_main_fst] at h
    exact (bufferEvents_eq rst bramRddataB (s.counted rst) j).symm.trans h
  · intro hrace order ho
    refine parts.ext fun i => ?_
    rw [Parts.get_edge ho.nodup (ho.mem i)]
    rcases Clocked.Process.seen_cases hP ho.nodup i s with hs | ⟨hi, hs⟩
    · rw [hs, settled_process]
    · rw [hs, process_main_fst, settled_process]
      cases i with
      | main => exact absurd rfl hi
      | genBuffer j => exact hrace j
      | genLoad i => exact genLoad_counted rst s i

end Process

end ScatterB

namespace ScatterB

structure Input (n : ℕ) where
  rst : Bool
  load : Bool
  bramRddataB : BitVec n

def processes (P : Params) {W n : ℕ} (i : Input n) : ProcessId → Clocked.Process (State W) :=
  parts.process (process P i.rst i.load i.bramRddataB)

def stepInput (P : Params) {W n : ℕ} (i : Input n) : State W → State W :=
  step P i.rst i.load i.bramRddataB

end ScatterB

/-- `scatter_a` and `gather_c` mean the same in every order of their processes, `scatter_b` does so
exactly when no row is at stake, and where that is so at every edge it runs as if all processes
read the registers before the edge. -/
theorem order_independent_iff (P : Params) :
    (∀ (rst startCal : Bool) (s : ScatterA.State) (order : List Unit), Schedule order →
      edge (ScatterA.parts.process fun _ => ScatterA.process P rst startCal) order s =
        ScatterA.step P rst startCal s) ∧
    (∀ (W : ℕ) (rst startCal : Bool) (cOuts : Fin N → BitVec (2 * W)) (s : GatherC.State P W)
      (order : List GatherC.ProcessId), Schedule order →
      edge (GatherC.parts.process (GatherC.process rst startCal cOuts)) order s =
        GatherC.step rst startCal cOuts s) ∧
    (∀ (W n : ℕ) (i : ScatterB.Input n) (s : ScatterB.State W),
      (∀ order, Schedule order → edge (ScatterB.processes P i) order s = ScatterB.stepInput P i s) ↔
        ScatterB.RaceFree i.rst i.bramRddataB s) ∧
    ∀ (W n : ℕ) (inputs : ℕ → ScatterB.Input n) (orders : ℕ → List ScatterB.ProcessId)
      (s : ℕ → ScatterB.State W), (∀ t, Schedule (orders t)) →
      (∀ t, s (t + 1) = edge (ScatterB.processes P (inputs t)) (orders t) (s t)) →
      (∀ t, ScatterB.RaceFree (inputs t).rst (inputs t).bramRddataB (s t)) →
      Clocked.IsRun (ScatterB.stepInput P) inputs s := by
  refine ⟨fun rst startCal s order ho => ScatterA.edge_eq_step P rst startCal ho s,
    fun W rst startCal cOuts s order ho => GatherC.edge_eq_step rst startCal cOuts ho s,
    fun W n i s => ScatterB.edge_eq_step_iff P i.rst i.load i.bramRddataB s, ?_⟩
  intro W n inputs orders s horders hs hrace t
  rw [hs t]
  exact (ScatterB.edge_eq_step_iff P _ _ _ (s t)).mpr (hrace t) (orders t) (horders t)

/-- In the cycle after the first load pulse the written order puts the word into row 0, while
synthesis drops it. -/
theorem scatterB_order_matters :
    ¬ ∀ (inputs : ℕ → ScatterB.Input 128) (t : ℕ) (order : List ScatterB.ProcessId), Schedule order →
      let s := Clocked.run (ScatterB.stepInput shipped) (MatrixMultiply.powerOn shipped).scatterB inputs t
      edge (ScatterB.processes shipped (inputs t)) order s = ScatterB.stepInput shipped (inputs t) s := by
  intro hall
  have hrace := (ScatterB.edge_eq_step_iff shipped false true (1 : BitVec 128) _).mp
    (hall (fun _ => ⟨false, true, 1⟩) 1)
  have hrow := hrace (by decide) 0 0 (.inr rfl)
  revert hrow
  decide

end EmbeddedAccelerator
