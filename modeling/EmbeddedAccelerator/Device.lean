import EmbeddedAccelerator.HostWrites
import EmbeddedAccelerator.Reuse
import EmbeddedAccelerator.UsrLogic

/-!
`xdma_app` with all it contains: the register block and the multiplier on one side of the three
memories, the host on the other.
-/

namespace EmbeddedAccelerator.Device

open Clocked (Mem)
open XdmaApp (Region Signals)

/-- What is left open about the generated memories: the output of the host port after a write, and
the contents that the wide port of `Bram_A` and `Bram_B` sees in the cycle of a write, from the
contents before and after it. -/
structure Memories where
  mode : XdmaApp.WriteMode
  seen : Mem → Mem → Mem
  seen_self : ∀ mem, seen mem mem = mem

structure State (P : Params) where
  usrLogic : UsrLogic.State P
  bramRddataA2 : BitVec 128
  bramRddataB2 : BitVec 128
  brams : XdmaApp.State

structure Input where
  userResetn : Bool
  araddr : BitVec 32
  arvalid : Bool
  rready : Bool
  axi : Signals

variable {P : Params}

def usrInput (i : Input) (s : State P) : UsrLogic.Input :=
  ⟨i.userResetn, i.araddr, i.arvalid, i.rready, s.bramRddataA2, s.bramRddataB2⟩

/-- `Matrix_Multiply` on its ports of the memories. -/
def machine (s : State P) : Machine P :=
  ⟨s.usrLogic.mm, s.bramRddataA2, s.bramRddataB2, s.brams.bramC.mem⟩

/-- The clock of both ports is `user_clk`. A write of `Matrix_Multiply` to `Bram_C` comes after one of
the host in the same cycle; no session of the host below has both. -/
def step (mems : Memories) (i : Input) (s : State P) : State P :=
  let brams := XdmaApp.step mems.mode i.axi s.brams
  let m := machine s
  { usrLogic := UsrLogic.step (usrInput i s) s.usrLogic
    bramRddataA2 := (mems.seen s.brams.bramA.mem brams.bramA.mem).word m.bramAddrA N
    bramRddataB2 := (mems.seen s.brams.bramB.mem brams.bramB.mem).word m.bramAddrB N
    brams :=
      { brams with
        bramC :=
          { brams.bramC with
            mem :=
              if m.bramWeC then brams.bramC.mem.write m.bramAddrC (2 * N) m.bramWrdataC
              else brams.bramC.mem } } }

def powerOn (P : Params) (brams : XdmaApp.State) : State P := ⟨UsrLogic.powerOn P, 0, 0, brams⟩

def machineInput (mems : Memories) (i : Input) (s : State P) : Machine.Input :=
  let brams := XdmaApp.step mems.mode i.axi s.brams
  ⟨!i.userResetn, s.usrLogic.usrControl.start, mems.seen s.brams.bramA.mem brams.bramA.mem,
    mems.seen s.brams.bramB.mem brams.bramB.mem⟩

/-- The host writes to no memory. -/
def Unwritten (mems : Memories) (i : Input) (s : State P) : Prop :=
  ∀ r : Region, (r.bram (XdmaApp.step mems.mode i.axi s.brams)).mem = (r.bram s.brams).mem

variable {mems : Memories} {i : Input} {s : State P}

theorem machine_step (h : Unwritten mems i s) :
    machine (step mems i s) = Machine.step (machineInput mems i s) (machine s) := by
  have hc : (XdmaApp.step mems.mode i.axi s.brams).bramC.mem = s.brams.bramC.mem := h .c
  simp only [machine, step, hc]
  rfl

theorem machineInput_of_unwritten (h : Unwritten mems i s) :
    machineInput mems i s =
      ⟨!i.userResetn, s.usrLogic.usrControl.start, s.brams.bramA.mem, s.brams.bramB.mem⟩ := by
  have ha : (XdmaApp.step mems.mode i.axi s.brams).bramA.mem = s.brams.bramA.mem := h .a
  have hb : (XdmaApp.step mems.mode i.axi s.brams).bramB.mem = s.brams.bramB.mem := h .b
  rw [machineInput, ha, hb, mems.seen_self, mems.seen_self]

theorem brams_step (h : (machine s).bramWeC = false) :
    (step mems i s).brams = XdmaApp.step mems.mode i.axi s.brams := by
  simp only [step, h]
  rfl

theorem douta_step (r : Region) :
    (r.bram (step mems i s).brams).douta = (r.bram (XdmaApp.step mems.mode i.axi s.brams)).douta := by
  cases r <;> rfl

theorem mem_step (r : Region) (h : r = .c → (machine s).bramWeC = false) :
    (r.bram (step mems i s).brams).mem = (r.bram (XdmaApp.step mems.mode i.axi s.brams)).mem := by
  cases r with
  | a => rfl
  | b => rfl
  | c => rw [brams_step (h rfl)]

theorem unwritten_of_idle (h : i.axi.bramEn = false) : Unwritten mems i s := fun r => by
  rw [XdmaApp.mem_step_idle mems.mode h]

theorem unwritten_of_readCycle {r : Region} (h : XdmaApp.ReadCycle r i.axi) : Unwritten mems i s :=
  fun q => XdmaApp.mem_step_read mems.mode h s.brams q

/-- The device in every cycle after a reset. -/
structure Run (mems : Memories) (inputs : ℕ → Input) (s : ℕ → State P) : Prop where
  isRun : Clocked.IsRun (step mems) inputs s
  noReset : ∀ t, (inputs t).userResetn = true
  begins : (s 0).usrLogic = UsrLogic.powerOn P

section Run

variable {inputs : ℕ → Input} {s : ℕ → State P}

abbrev logic (s : ℕ → State P) (t : ℕ) : UsrLogic.State P := (s t).usrLogic

abbrev usrInputs (inputs : ℕ → Input) (s : ℕ → State P) (t : ℕ) : UsrLogic.Input := usrInput (inputs t) (s t)

variable (h : Run mems inputs s)
include h

theorem Run.usrLogic : UsrLogic.Run (usrInputs inputs s) (logic s) where
  isRun t := by
    change (s (t + 1)).usrLogic = _
    rw [h.isRun t]
    rfl
  noReset := h.noReset

theorem Run.brams {t n : ℕ} (hw : ∀ u, t ≤ u → u < t + n → (machine (s u)).bramWeC = false) :
    (s (t + n)).brams =
      XdmaApp.transfer mems.mode ((List.range' t n).map fun u => (inputs u).axi) (s t).brams := by
  induction n with
  | zero => rfl
  | succ n ih =>
    rw [← Nat.add_assoc, h.isRun, brams_step (hw _ (by omega) (by omega)), ih fun u hu hu' => hw u hu (by omega),
      List.range'_concat, List.map_append, XdmaApp.transfer, XdmaApp.transfer, List.foldl_append, Nat.one_mul]
    rfl

end Run

end EmbeddedAccelerator.Device
