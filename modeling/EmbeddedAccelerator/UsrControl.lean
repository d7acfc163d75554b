import Mathlib.Tactic.Common

/-!
The register block of the host: a read of `START` starts a computation, a read of `STATUS` asks
whether it is finished. The write channel is not modelled: its outputs are never driven high.
-/

namespace EmbeddedAccelerator.UsrControl

structure State where
  arready : Bool
  rvalid : Bool
  rdata : BitVec 32
  rresp : BitVec 2
  finishReg : Bool
  finish2 : Bool
  start : Bool
  start2 : Bool
  process : Bool
  deriving DecidableEq, Repr

structure Input where
  aresetn : Bool
  finish : Bool
  araddr : BitVec 32
  arvalid : Bool
  rready : Bool

/-- `araddr[13:12]`. -/
def Input.register (i : Input) : BitVec 2 := i.araddr.extractLsb' 12 2

/-- The branches of the process, in its order. They read the registers `s` before the edge and
assign to the registers `t`, so that of two assignments to one register the later one counts. -/
def finishBranch (i : Input) (s : State) : State :=
  let t := { s with finish2 := i.finish }
  if i.finish && !s.finish2 then { t with finishReg := true } else t

def pulseBranch (s t : State) : State :=
  let t := if s.start then { t with start2 := true } else t
  if s.start && s.start2 then { t with start := false, start2 := false } else t

def addressBranch (i : Input) (s t : State) : State :=
  if i.arvalid && !s.arready then
    let t := { t with arready := true }
    if i.register = 2#2 then
      if s.finishReg then { t with rdata := 2, process := false } else { t with rdata := 0 }
    else if i.register = 1#2 then
      let t := { t with rdata := 1 }
      if !s.process then { t with start := true, finishReg := false, process := true } else t
    else { t with rdata := 0 }
  else { t with arready := false }

def responseBranch (i : Input) (s t : State) : State :=
  if s.arready && !s.rvalid then { t with rvalid := true, rresp := 0 }
  else if s.rvalid && i.rready then { t with rvalid := false }
  else t

def step (i : Input) (s : State) : State :=
  if !i.aresetn then
    { s with
      arready := false, rvalid := false, finishReg := false, finish2 := false, start := false
      start2 := false, process := false }
  else responseBranch i s (addressBranch i s (pulseBranch s (finishBranch i s)))

/-- All registers 0. -/
def powerOn : State := ⟨false, false, 0, 0, false, false, false, false, false⟩

/-- The address on the channel is taken with the edge that ends the cycle. -/
def Accepts (i : Input) (s : State) : Prop := i.arvalid = true ∧ s.arready = false

instance (i : Input) (s : State) : Decidable (Accepts i s) :=
  inferInstanceAs (Decidable (_ ∧ _))

/-- What a read of the addressed register returns. -/
def readValue (i : Input) (s : State) : BitVec 32 :=
  if i.register = 2#2 then if s.finishReg then 2 else 0 else if i.register = 1#2 then 1 else 0

/-- A read of `START` that triggers a start pulse. -/
def Triggers (i : Input) (s : State) : Prop := Accepts i s ∧ i.register = 1#2 ∧ s.process = false

/-- A read of `STATUS` that reports the end of a computation. -/
def Reports (i : Input) (s : State) : Prop := Accepts i s ∧ i.register = 2#2 ∧ s.finishReg = true

instance (i : Input) (s : State) : Decidable (Triggers i s) :=
  inferInstanceAs (Decidable (_ ∧ _ ∧ _))

instance (i : Input) (s : State) : Decidable (Reports i s) :=
  inferInstanceAs (Decidable (_ ∧ _ ∧ _))

section Branches

variable (i : Input) (s t : State)

theorem responseBranch_eq :
    responseBranch i s t =
      { t with
        rvalid := if s.rvalid then (if i.rready then false else t.rvalid) else s.arready || t.rvalid
        rresp := if s.arready && !s.rvalid then 0 else t.rresp } := by
  rw [responseBranch]
  cases s.rvalid <;> cases s.arready <;> cases i.rready <;> rfl

theorem addressBranch_eq :
    addressBranch i s t =
      { t with
        arready := i.arvalid && !s.arready
        rdata := if Accepts i s then readValue i s else t.rdata
        start := if Triggers i s then true else t.start
        finishReg := if Triggers i s then false else t.finishReg
        process := if Triggers i s then true else if Reports i s then false else t.process } := by
  by_cases ha : Accepts i s
  · obtain ⟨h1, h2⟩ := ha
    by_cases hstatus : i.register = 2#2
    · cases hf : s.finishReg <;>
        simp [addressBranch, readValue, Accepts, Triggers, Reports, h1, h2, hstatus, hf]
    · by_cases hstart : i.register = 1#2
      · cases hp : s.process <;>
          simp [addressBranch, readValue, Accepts, Triggers, Reports, h1, h2, hstart, hp]
      · simp [addressBranch, readValue, Accepts, Triggers, Reports, h1, h2, hstatus, hstart]
  · have hf : (i.arvalid && !s.arready) = false := by
      rw [Accepts] at ha
      cases h1 : i.arvalid <;> cases h2 : s.arready <;> simp [h1, h2] at ha ⊢
    rw [addressBranch, hf]
    simp [Triggers, Reports, ha]

theorem finishBranch_eq :
    finishBranch i s =
      { s with finish2 := i.finish, finishReg := s.finishReg || (i.finish && !s.finish2) } := by
  rw [finishBranch]
  cases h : i.finish && !s.finish2 <;> simp

theorem pulseBranch_eq :
    pulseBranch s t =
      { t with
        start := if s.start && s.start2 then false else t.start
        start2 := if s.start then !s.start2 else t.start2 } := by
  rw [pulseBranch]
  cases s.start <;> cases s.start2 <;> rfl

end Branches

theorem step_eq {i : Input} (h : i.aresetn = true) (s : State) :
    step i s =
      { arready := i.arvalid && !s.arready
        rvalid := if s.rvalid then !i.rready else s.arready
        rdata := if Accepts i s then readValue i s else s.rdata
        rresp := if s.arready && !s.rvalid then 0 else s.rresp
        finishReg := if Triggers i s then false else s.finishReg || (i.finish && !s.finish2)
        finish2 := i.finish
        start := if Triggers i s then true else s.start && !s.start2
        start2 := if s.start then !s.start2 else s.start2
        process := if Triggers i s then true else if Reports i s then false else s.process } := by
  have hrvalid : (if s.rvalid = true then if i.rready = true then false else s.rvalid
      else s.arready || s.rvalid) = if s.rvalid then !i.rready else s.arready := by
    cases s.rvalid <;> cases i.rready <;> simp
  have hstart : (if (s.start && s.start2) = true then false else s.start) = (s.start && !s.start2) := by
    cases s.start <;> cases s.start2 <;> rfl
  rw [step, h, responseBranch_eq, addressBranch_eq, pulseBranch_eq, finishBranch_eq]
  simp only [hrvalid, hstart]
  rfl

end EmbeddedAccelerator.UsrControl
