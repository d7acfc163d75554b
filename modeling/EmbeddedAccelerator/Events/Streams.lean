import EmbeddedAccelerator.Clocked.Events
import EmbeddedAccelerator.GatherC
import EmbeddedAccelerator.ScatterA

/-!
The clocked processes of `scatter_a` and `gather_c` with their two kinds of assignments: `+=` is
blocking, `<=` is not. A process gives its registers after its `+=` and what its `<=` do.
-/

namespace EmbeddedAccelerator

open Clocked (Parts)
open Clocked.Process (Schedule edge)

namespace ScatterA

def process (P : Params) (rst startCal : Bool) (s : State) : State × (State → State) :=
  if rst then (s, fun t => { t with colCnt := 0, state := .idle })
  else match s.state with
  | .idle =>
    if startCal then (s, fun t => { t with state := .calculate, inBlockCnt := 0 })
    else
      (s, fun t => { t with outputEnable := false, colCalDone := false, state := .idle, inBlockCnt := 0 })
  | .calculate =>
    if s.inBlockCnt = P.dataASizeY - 1 then
      if s.colCnt = colCount P - 1 then
        (s, fun t => { t with colCnt := 0, colCalDone := true, state := .idle })
      else
        ({ s with colCnt := (s.colCnt + 1) % 2 ^ (P.dataASizeX / N) },
          fun t => { t with inBlockCnt := 0, state := .waiting })
    else
      ({ s with inBlockCnt := (s.inBlockCnt + 1) % 2 ^ N }, fun t => { t with outputEnable := true })
  | .waiting =>
    if startCal then (s, fun t => { t with state := .calculate })
    else (s, fun t => { t with outputEnable := false, state := .waiting })
  | .done => (s, id)

def parts : Parts State (fun _ : Unit => State) where
  get _ s := s
  put _ a _ := a
  ext h := h ()
  get_put _ _ _ := rfl
  get_put_of_ne h := absurd rfl h

theorem settled_process (P : Params) (rst startCal : Bool) (s : State) :
    Parts.settled (fun _ => process P rst startCal) () s = step P rst startCal s := by
  obtain ⟨state, colCnt, inBlockCnt, outputEnable, colCalDone⟩ := s
  cases rst
  · cases state <;> simp only [Parts.settled, process, step] <;> split_ifs <;> rfl
  · rfl

theorem edge_eq_step (P : Params) (rst startCal : Bool) {order : List Unit} (ho : Schedule order) (s : State) :
    edge (parts.process fun _ => process P rst startCal) order s = step P rst startCal s :=
  Parts.edge_eq_of_unseen ho s (fun _ _ hne => absurd rfl hne) fun _ => settled_process P rst startCal s

end ScatterA

namespace GatherC

inductive ProcessId where
  | writeBack | gathering | genBlock1 (ji : Fin N)
  deriving DecidableEq, Repr

def Part (P : Params) (W : ℕ) : ProcessId → Type
  | .writeBack => Bram
  | .gathering => Gather
  | .genBlock1 _ => Fin P.dataASizeY → BitVec (2 * W)

variable {P : Params} {W : ℕ}

def parts : Parts (State P W) (Part P W) where
  get
    | .writeBack => fun s => s.control.bram
    | .gathering => fun s => s.control.gather
    | .genBlock1 ji => fun s m => s.buffer m ji
  put
    | .writeBack => fun b s => { s with control := { s.control with bram := b } }
    | .gathering => fun g s => { s with control := { s.control with gather := g } }
    | .genBlock1 ji => fun x s => { s with buffer := fun m j => if j = ji then x m else s.buffer m j }
  ext {s t} h := by
    obtain ⟨⟨sb, sg⟩, sbuf⟩ := s
    obtain ⟨⟨tb, tg⟩, tbuf⟩ := t
    obtain rfl : sb = tb := h .writeBack
    obtain rfl : sg = tg := h .gathering
    obtain rfl : sbuf = tbuf := funext fun m => funext fun j => congrFun (h (.genBlock1 j)) m
    rfl
  get_put i a s := by
    cases i with
    | genBlock1 ji => exact funext fun m => if_pos rfl
    | _ => rfl
  get_put_of_ne {i j} hne a s := by
    cases i with
    | genBlock1 ji =>
      cases j with
      | genBlock1 jj => exact funext fun m => if_neg fun h : jj = ji => hne (h ▸ rfl)
      | _ => rfl
    | _ => cases j <;> first | rfl | exact absurd rfl hne

def bramEvents (P : Params) (rst writeBack : Bool) (s : Bram) : Bram × (Bram → Bram) :=
  if rst then (s, fun t => { t with writeBackCnt := 0, bramState := .idle, writeBackDone := true })
  else match s.bramState with
  | .idle =>
    if writeBack then (s, fun t => { t with bramState := .writing, writeBackDone := false })
    else (s, fun t => { t with writeBackCnt := 0, writeBackDone := true })
  | .writing =>
    if s.writeBackCnt = P.dataASizeY - 1 then
      (s, fun t => { t with bramState := .cleaning, writeBackDone := true, writeBackCnt := 0 })
    else
      ({ s with writeBackCnt := (s.writeBackCnt + 1) % 2 ^ N }, fun t => { t with writeBackDone := false })
  | .cleaning => (s, fun t => { t with bramState := .idle })
  | _ => (s, id)

def gatherEvents (P : Params) (rst startCal gatherDone : Bool) (s : Gather) : Gather × (Gather → Gather) :=
  if rst then
    (s, fun t =>
      { t with state := .idle, recieveDone := false, inBlockCnt := 0, rowCnt := 0, colCnt := 0 })
  else match s.state with
  | .idle =>
    (s, fun t =>
      let t := { t with recieveDone := false, writeBack := false }
      if startCal then { t with state := .gathering } else t)
  | .gathering =>
    if s.inBlockCnt = P.dataASizeY + 1 then
      (s, fun t =>
        let t := { t with state := .waiting, inBlockCnt := 0, recieveDone := true }
        if s.rowCnt = rowCount P - 1 then { t with writeBack := true } else t)
    else (s, fun t => { t with inBlockCnt := (s.inBlockCnt + 1) % 2 ^ N, recieveDone := false })
  | .waiting =>
    (s, fun t =>
      let t := { t with writeBack := false, recieveDone := false }
      let t := if startCal then { t with state := .gathering } else t
      if gatherDone then
        if s.rowCnt = rowCount P - 1 then
          if s.colCnt = colCount P - 1 then { t with rowCnt := 0, colCnt := 0, state := .idle }
          else
            { t with
              rowCnt := 0, colCnt := (s.colCnt + 1) % 2 ^ (P.dataBSizeX / N), state := .waiting }
        else { t with state := .waiting, rowCnt := (s.rowCnt + 1) % 2 ^ (P.dataBSizeY / N) }
      else t)
  | _ => (s, id)

/-- Both sides of an assignment are evaluated when it is executed, so the row is that of `s`. -/
def laneEvents (rst : Bool) (cOuts : Fin N → BitVec (2 * W)) (s : State P W) (ji : Fin N) :
    (Fin P.dataASizeY → BitVec (2 * W)) × ((Fin P.dataASizeY → BitVec (2 * W)) → Fin P.dataASizeY → BitVec (2 * W)) :=
  (fun m => s.buffer m ji,
    if rst || s.control.gather.state = .idle || s.control.bram.bramState = .cleaning then
      fun t m => if m.val < P.dataASizeX then 0 else t m
    else if s.control.gather.state = .gathering then
      fun t m => if m.val = pred32 s.control.gather.inBlockCnt then s.buffer m ji + cOuts ji else t m
    else fun t m => if m.val = pred32 s.control.gather.inBlockCnt then s.buffer m ji else t m)

def process (rst startCal : Bool) (cOuts : Fin N → BitVec (2 * W)) :
    ∀ i, State P W → Part P W i × (Part P W i → Part P W i)
  | .writeBack => fun s => bramEvents P rst s.control.gather.writeBack s.control.bram
  | .gathering => fun s => gatherEvents P rst startCal (gatherDone s.control) s.control.gather
  | .genBlock1 ji => fun s => laneEvents rst cOuts s ji

theorem bramEvents_eq (rst writeBack : Bool) (s : Bram) :
    (bramEvents P rst writeBack s).2 (bramEvents P rst writeBack s).1 = bramProcess P rst writeBack s := by
  obtain ⟨writeBackCnt, bramState, writeBackDone⟩ := s
  cases rst
  · cases bramState <;> simp only [bramEvents, bramProcess] <;> split_ifs <;> rfl
  · rfl

theorem gatherEvents_eq (rst startCal gatherDone : Bool) (s : Gather) :
    (gatherEvents P rst startCal gatherDone s).2 (gatherEvents P rst startCal gatherDone s).1 =
      gatherProcess P rst startCal gatherDone s := by
  obtain ⟨state, recieveDone, inBlockCnt, rowCnt, colCnt, writeBack⟩ := s
  cases rst
  · cases state <;> simp only [gatherEvents, gatherProcess] <;> split_ifs <;> rfl
  · rfl

theorem laneEvents_eq (rst : Bool) (cOuts : Fin N → BitVec (2 * W)) (s : State P W) (ji : Fin N) :
    (laneEvents rst cOuts s ji).2 (laneEvents rst cOuts s ji).1 = genBlock1 rst cOuts s ji := by
  simp only [laneEvents, genBlock1]
  split_ifs
  · rfl
  · rfl
  · funext m
    exact ite_self _

theorem bramEvents_fst (rst writeBack : Bool) (s : Bram) :
    ∃ k, (bramEvents P rst writeBack s).1 = { s with writeBackCnt := k } := by
  obtain ⟨writeBackCnt, bramState, writeBackDone⟩ := s
  cases rst
  · cases bramState <;> simp only [bramEvents] <;> split_ifs <;> exact ⟨_, rfl⟩
  · exact ⟨_, rfl⟩

theorem gatherEvents_fst (rst startCal gatherDone : Bool) (s : Gather) :
    (gatherEvents P rst startCal gatherDone s).1 = s := by
  obtain ⟨state, recieveDone, inBlockCnt, rowCnt, colCnt, writeBack⟩ := s
  cases rst
  · cases state <;> simp only [gatherEvents] <;> split_ifs <;> rfl
  · rfl

section Process

variable (rst startCal : Bool) (cOuts : Fin N → BitVec (2 * W))

theorem process_fst {j : ProcessId} (hj : j ≠ .writeBack) (s : State P W) :
    (parts.process (process rst startCal cOuts) j s).1 = s := by
  cases j with
  | writeBack => exact absurd rfl hj
  | gathering =>
    show { s with control := { s.control with gather := (gatherEvents P rst startCal _ _).1 } } = s
    rw [gatherEvents_fst]
  | genBlock1 ji =>
    refine parts.ext fun i => ?_
    by_cases hi : ProcessId.genBlock1 ji = i
    · subst hi
      exact parts.get_put _ _ s
    · exact parts.get_put_of_ne hi _ s

theorem settled_unseen (i j : ProcessId) (h : i ≠ j) (s : State P W) :
    Parts.settled (process rst startCal cOuts) i (parts.process (process rst startCal cOuts) j s).1 =
      Parts.settled (process rst startCal cOuts) i s := by
  by_cases hj : j = .writeBack
  · subst hj
    obtain ⟨k, hk⟩ := bramEvents_fst (P := P) rst s.control.gather.writeBack s.control.bram
    have hview : (parts.process (process rst startCal cOuts) .writeBack s).1 =
        { s with control := { s.control with bram := { s.control.bram with writeBackCnt := k } } } := by
      rw [← hk]
      rfl
    rw [hview]
    cases i with
    | writeBack => exact absurd rfl h
    | gathering => rfl
    | genBlock1 ji => rfl
  · rw [process_fst rst startCal cOuts hj]

theorem edge_eq_step {order : List ProcessId} (ho : Schedule order) (s : State P W) :
    edge (parts.process (process rst startCal cOuts)) order s = step rst startCal cOuts s := by
  refine Parts.edge_eq_of_unseen ho s (settled_unseen rst startCal cOuts) fun i => ?_
  cases i with
  | writeBack => exact bramEvents_eq rst _ _
  | gathering => exact gatherEvents_eq rst startCal _ _
  | genBlock1 ji => exact laneEvents_eq rst cOuts s ji

end Process

end GatherC

end EmbeddedAccelerator
