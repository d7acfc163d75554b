import EmbeddedAccelerator.Computing

/-!
A host that does one thing at a time and leaves the memories alone while they are in use sees the
coprocessor in the device, whatever the timing.
-/

namespace EmbeddedAccelerator.Device

open Clocked (Mem)
open Coprocessor (Op)
open Machine (Rests Job cycles)
open MatrixMultiply (rest)
open UsrControl (Accepts Triggers Reports OneAtATime IsRead)
open UsrLogic (Phase phase)
open XdmaApp (Region Signals InRange WriteCycle ReadCycle addressed words)

section Operations

variable (inputs : ℕ → Input) (s : ℕ → State shipped)

abbrev channel (t : ℕ) : UsrControl.Input := UsrLogic.channel (usrInputs inputs s) (logic s) t

abbrev registers (t : ℕ) : UsrControl.State := UsrLogic.registers (logic s) t

/-- No address of `START` or `STATUS` is taken. -/
def Silent (t : ℕ) : Prop :=
  Accepts (channel inputs s t) (registers s t) →
    (channel inputs s t).register ≠ 1#2 ∧ (channel inputs s t).register ≠ 2#2

def Quiet (t : ℕ) : Prop := (inputs t).axi.bramEn = false ∧ Silent inputs s t

/-- What the host drives on the port of the memories from cycle `t` on. -/
def beats (t n : ℕ) : List Signals := (List.range' t n).map fun u => (inputs u).axi

/-- The words on `bram_rddata` in the cycles after the beats of a read. -/
def received (t n : ℕ) : List (BitVec 64) :=
  ((List.range' t n).filter fun u => (inputs u).axi.bramEn).map fun u =>
    XdmaApp.bramRddata (inputs (u + 1)).axi (s (u + 1)).brams

/-- One read of a register in the cycles from `t` up to `m`, its address taken in cycle `a`. -/
structure Access (register : BitVec 2) (value : BitVec 32) (t m a r : ℕ) : Prop where
  begins : t ≤ a
  ends : r < m
  isRead : IsRead (channel inputs s) (registers s) register value a r
  silent : ∀ u, t ≤ u → u < m → u ≠ a → Silent inputs s u
  noBeat : ∀ u, t ≤ u → u < m → (inputs u).axi.bramEn = false

/-- The last cycle of a read of memory only delivers. -/
def Occurs : Op → ℕ → ℕ → Prop
  | .write r addr len data, t, m => t ≤ m ∧ addressed (beats inputs t (m - t)) = words addr len ∧
      ∀ u, t ≤ u → u < m → WriteCycle r addr len data (inputs u).axi ∧ Silent inputs s u
  | .read r addr len data, t, m => t < m ∧ addressed (beats inputs t (m - 1 - t)) = words addr len ∧
      (∀ u, t ≤ u → u < m → ReadCycle r (inputs u).axi ∧ Silent inputs s u) ∧
      ∀ n < len, data (addr + n) = XdmaApp.readBuffer (received inputs s t (m - 1 - t)) addr n
  | .start, t, m => ∃ value a r, Access inputs s 1#2 value t m a r
  | .status value, t, m => ∃ a r, Access inputs s 2#2 value t m a r

end Operations

section Registers

variable {mems : Memories} {inputs : ℕ → Input} {s : ℕ → State shipped} {t : ℕ}

/-- The registers of the multiplier in the idle state, or after power-on. -/
def Clean (x : MatrixMultiply.State shipped) : Prop :=
  x.live = (rest shipped).live ∨ x = MatrixMultiply.powerOn shipped

theorem live_step_clean {x : MatrixMultiply.State shipped} (hx : Clean x) {i : MatrixMultiply.Input}
    (hi : i.rst = false) (hs : i.start = false) :
    (MatrixMultiply.step i x).live = (rest shipped).live := by
  obtain hx | rfl := hx
  · exact MatrixMultiply.live_step shipped_square.1.le hi
      (congrArg MatrixMultiply.Live.control hx) hs
  · have hbuf := MatrixMultiply.gatherC_cleared (P := shipped) shipped_square.1.le false
      (MatrixMultiply.cOuts i (MatrixMultiply.powerOn shipped))
      (s := (MatrixMultiply.powerOn shipped).gatherC) rfl
    have hcontrol : (MatrixMultiply.step i (MatrixMultiply.powerOn shipped)).control = (rest shipped).control := by
      rw [MatrixMultiply.control_step, hi, hs]
      rfl
    have hgather : (MatrixMultiply.step i (MatrixMultiply.powerOn shipped)).gatherC.buffer = fun _ _ => 0 := by
      rw [MatrixMultiply.step, hi]
      exact hbuf
    have hbIns : (MatrixMultiply.step i (MatrixMultiply.powerOn shipped)).scatterB.bIns = fun _ => 0 := by
      funext j
      simp [MatrixMultiply.step, ScatterB.step, ScatterB.genLoad, hi, MatrixMultiply.powerOn]
    simp only [MatrixMultiply.State.live, hcontrol, hbIns, hgather]
    rfl

theorem bramWeC_clean (hx : Clean (s t).usrLogic.mm) : (machine (s t)).bramWeC = false := by
  obtain hx | hx := hx
  · have hg : (s t).usrLogic.mm.gatherC.control = _ :=
      congrArg (fun l => l.control.gatherC) hx
    rw [Machine.bramWeC, machine, hg]
    rfl
  · rw [Machine.bramWeC, machine, hx]
    rfl

variable (h : Run mems inputs s)
include h

theorem rests_succ (hx : Clean (s t).usrLogic.mm) (hs : (registers s t).start = false) :
    Rests (machine (s (t + 1))) := by
  have hrst : (!(inputs t).userResetn) = false := by rw [h.noReset]; rfl
  change (s (t + 1)).usrLogic.mm.live = _
  rw [h.isRun]
  exact live_step_clean hx hrst hs

theorem start_of_ready (hp : phase (logic s) t = .ready) : (registers s t).start = false := by
  have hs := h.usrLogic.start_eq h.begins t
  rw [hp] at hs
  exact hs

theorem not_triggers_of_busy (hp : phase (logic s) t ≠ .ready) :
    ¬ Triggers (channel inputs s t) (registers s t) := fun ht => by
  have hprocess := h.usrLogic.process_eq h.begins t
  rw [decide_eq_true hp] at hprocess
  exact Bool.false_ne_true (ht.2.2.symm.trans hprocess)

theorem finishReg_step :
    (registers s (t + 1)).finishReg =
      if Triggers (channel inputs s t) (registers s t) then false
      else (registers s t).finishReg || ((channel inputs s t).finish && !(registers s t).finish2) := by
  have hstep := h.usrLogic.usrControl.isRun t
  rw [UsrControl.step_eq (h.usrLogic.usrControl.noReset t)] at hstep
  exact congrArg UsrControl.State.finishReg hstep

theorem ready_succ (hp : phase (logic s) t = .ready)
    (hnt : ¬ Triggers (channel inputs s t) (registers s t)) : phase (logic s) (t + 1) = .ready := by
  rw [h.usrLogic.phase_succ h.begins, hp]
  exact if_neg hnt

theorem finishReg_ready_succ (hp : phase (logic s) t = .ready)
    (hnt : ¬ Triggers (channel inputs s t) (registers s t)) :
    (registers s (t + 1)).finishReg = (registers s t).finishReg := by
  have hfinish := h.usrLogic.finish_eq h.begins t
  rw [hp] at hfinish
  have hfinish : (channel inputs s t).finish = false := hfinish
  rw [finishReg_step h, if_neg hnt, hfinish]
  exact Bool.or_false _

end Registers

/-- The device has nothing to do, and the last product is in `Bram_C`. -/
structure Ready (inputs : ℕ → Input) (s : ℕ → State shipped) (t : ℕ) (x : Coprocessor.State) : Prop where
  phase : phase (logic s) t = .ready
  clean : Clean (s t).usrLogic.mm
  finished : (registers s t).finishReg = x.finished
  result : ∀ a < 8192, (s t).brams.bramC.mem a = x.mem .c a

/-- The device stands for the coprocessor `x` in cycle `t`. While a product is computed, `x` has it
already. -/
structure Simulates (mems : Memories) (inputs : ℕ → Input) (s : ℕ → State shipped) (t : ℕ)
    (x : Coprocessor.State) : Prop where
  operands : ∀ r : Region, r ≠ .c → (r.bram (s t).brams).mem = x.mem r
  ready : x.computing = false → Ready inputs s t x
  pending : x.computing = true →
    (∃ t₀, Computing mems inputs s t₀ t) ∧ x.mem .c = Coprocessor.product (x.mem .a) (x.mem .b)

section Step

variable {mems : Memories} {inputs : ℕ → Input} {s : ℕ → State shipped} {t : ℕ} {x : Coprocessor.State}

theorem not_triggers_of_silent (hs : Silent inputs s t) : ¬ Triggers (channel inputs s t) (registers s t) :=
  fun ht => (hs ht.1).1 ht.2.1

theorem not_reports_of_silent (hs : Silent inputs s t) : ¬ Reports (channel inputs s t) (registers s t) :=
  fun ht => (hs ht.1).2 ht.2.1

theorem Computing.busy {t₀ : ℕ} (hc : Computing mems inputs s t₀ t) : phase (logic s) t ≠ .ready := by
  obtain hlt | rfl := Nat.lt_or_eq_of_le hc.le
  · exact hc.unread t hlt le_rfl
  · rw [hc.triggered]
    decide

variable (h : Run mems inputs s)
include h

theorem busy_succ (hp : phase (logic s) t ≠ .ready)
    (hnr : ¬ Reports (channel inputs s t) (registers s t)) : phase (logic s) (t + 1) ≠ .ready := by
  rw [h.usrLogic.phase_succ h.begins]
  cases hq : phase (logic s) t with
  | ready => exact absurd hq hp
  | done => rw [Phase.next, if_neg hnr]; decide
  | running => rw [Phase.next]; split_ifs <;> decide
  | triggered | acknowledged | finishing => simp [Phase.next]

theorem Ready.succ (hx : Ready inputs s t x) (hu : Unwritten mems (inputs t) (s t))
    (hnt : ¬ Triggers (channel inputs s t) (registers s t)) : Ready inputs s (t + 1) x where
  phase := ready_succ h hx.phase hnt
  clean := .inl (rests_succ h hx.clean (start_of_ready h hx.phase))
  finished := (finishReg_ready_succ h hx.phase hnt).trans hx.finished
  result a ha := by
    have hc : (Region.bram (step mems (inputs t) (s t)).brams .c).mem = _ := mem_step .c fun _ => bramWeC_clean hx.clean
    rw [hu .c] at hc
    rw [h.isRun]
    exact (congrFun hc a).trans (hx.result a ha)

theorem operand_succ (hu : Unwritten mems (inputs t) (s t)) {r : Region} (hr : r ≠ .c) :
    (r.bram (s (t + 1)).brams).mem = (r.bram (s t).brams).mem := by
  rw [h.isRun, mem_step r fun hc => absurd hc hr, hu r]

theorem Simulates.succ (hx : Simulates mems inputs s t x) (hu : Unwritten mems (inputs t) (s t))
    (hs : Silent inputs s t) : Simulates mems inputs s (t + 1) x where
  operands r hr := (operand_succ h hu hr).trans (hx.operands r hr)
  ready hc := (hx.ready hc).succ h hu (not_triggers_of_silent hs)
  pending hc := by
    obtain ⟨⟨t₀, hcomp⟩, hprod⟩ := hx.pending hc
    exact ⟨⟨t₀, hcomp.extend hu (busy_succ h hcomp.busy (not_reports_of_silent hs))⟩, hprod⟩

theorem Simulates.until (hx : Simulates mems inputs s t x) {m : ℕ} (hm : t ≤ m)
    (hq : ∀ u, t ≤ u → u < m → Unwritten mems (inputs u) (s u) ∧ Silent inputs s u) :
    Simulates mems inputs s m x := by
  induction m, hm using Nat.le_induction with
  | base => exact hx
  | succ m hm ih =>
    obtain ⟨hu, hs⟩ := hq m hm (Nat.lt_succ_self m)
    exact (ih fun u h1 h2 => hq u h1 (by omega)).succ h hu hs

theorem Simulates.start (hx : Simulates mems inputs s t x) (hu : Unwritten mems (inputs t) (s t))
    (ha : Accepts (channel inputs s t) (registers s t)) (hreg : (channel inputs s t).register = 1#2) :
    Simulates mems inputs s (t + 1) (Coprocessor.next x .start) := by
  cases hc : x.computing
  · have hr := hx.ready hc
    have hprocess : (registers s t).process = false := by
      have hp := h.usrLogic.process_eq h.begins t
      rw [hr.phase] at hp
      exact hp
    have htrig : Triggers (channel inputs s t) (registers s t) := ⟨ha, hreg, hprocess⟩
    have hphase : phase (logic s) (t + 1) = .triggered := by
      rw [h.usrLogic.phase_succ h.begins, Phase.next_eq_triggered]
      exact ⟨hr.phase, htrig⟩
    rw [Coprocessor.next, hc, if_neg Bool.false_ne_true]
    refine ⟨fun r hr => ?_, nofun, fun _ => ⟨⟨t + 1, ?_⟩, ?_⟩⟩
    · rw [operand_succ h hu hr, hx.operands r hr]
      exact (if_neg hr).symm
    · exact ⟨le_rfl, hphase, rests_succ h hr.clean (start_of_ready h hr.phase), fun u h1 h2 => by omega,
        fun u h1 h2 => by omega⟩
    · simp
  · obtain ⟨⟨t₀, hcomp⟩, hprod⟩ := hx.pending hc
    have hnr : ¬ Reports (channel inputs s t) (registers s t) := fun hrep =>
      absurd (hreg.symm.trans hrep.2.1) (by decide)
    rw [Coprocessor.next, hc, if_pos rfl]
    refine ⟨fun r hr => (operand_succ h hu hr).trans (hx.operands r hr), fun hf => ?_,
      fun _ => ⟨⟨t₀, hcomp.extend hu (busy_succ h hcomp.busy hnr)⟩, hprod⟩⟩
    exact absurd (hc.symm.trans hf) Bool.true_eq_false.mp

theorem Simulates.report {t₀ : ℕ} (hx : Simulates mems inputs s t x) (hc : x.computing = true)
    (hcomp : Computing mems inputs s t₀ t) (hu : Unwritten mems (inputs t) (s t))
    (hrep : Reports (channel inputs s t) (registers s t)) :
    Ready inputs s (t + 1) { x with computing := false, finished := true } := by
  have hfr : (registers s t).finishReg = true := hrep.2.2
  have hdone : phase (logic s) t = .done := by
    have hf := h.usrLogic.finishReg_eq h.begins hcomp.busy
    exact of_decide_eq_true (hf.symm.trans hfr)
  have hclean : Clean (s t).usrLogic.mm := .inl (hcomp.rests_of_done h hdone)
  have hstart : (registers s t).start = false := by
    have hs := h.usrLogic.start_eq h.begins t
    rw [hdone] at hs
    exact hs
  refine ⟨?_, .inl (rests_succ h hclean hstart), ?_, fun a ha => ?_⟩
  · rw [h.usrLogic.phase_succ h.begins, hdone]
    exact if_pos hrep
  · rw [finishReg_step h, if_neg (not_triggers_of_busy h hcomp.busy), hfr]
    rfl
  · have hmem : (Region.bram (step mems (inputs t) (s t)).brams .c).mem = _ := mem_step .c fun _ => bramWeC_clean hclean
    rw [hu .c] at hmem
    obtain ⟨u, rfl⟩ : ∃ u, t = t₀ + u := ⟨t - t₀, by have hle := hcomp.le; omega⟩
    have hA : (s t₀).brams.bramA.mem = x.mem .a :=
      (hcomp.operand h (r := .a) (by decide) le_rfl).symm.trans (hx.operands .a (by decide))
    have hB : (s t₀).brams.bramB.mem = x.mem .b :=
      (hcomp.operand h (r := .b) (by decide) le_rfl).symm.trans (hx.operands .b (by decide))
    rw [h.isRun]
    change _ = x.mem .c a
    rw [(hx.pending hc).2, ← hA, ← hB, ← hcomp.product_of_done h hdone ha]
    exact congrFun hmem a

theorem Simulates.status (hx : Simulates mems inputs s t x) (hu : Unwritten mems (inputs t) (s t))
    (ha : Accepts (channel inputs s t) (registers s t)) (hreg : (channel inputs s t).register = 2#2)
    {value : BitVec 32} (hv : value = UsrControl.readValue (channel inputs s t) (registers s t)) :
    Coprocessor.Correct x (.status value) ∧ Simulates mems inputs s (t + 1) (Coprocessor.next x (.status value)) := by
  rw [UsrControl.readValue, if_pos hreg] at hv
  have hnt : ¬ Triggers (channel inputs s t) (registers s t) := fun ht =>
    absurd (hreg.symm.trans ht.2.1) (by decide)
  have hops (r : Region) (hr : r ≠ .c) : (r.bram (s (t + 1)).brams).mem = x.mem r :=
    (operand_succ h hu hr).trans (hx.operands r hr)
  cases hc : x.computing
  · have hr := hx.ready hc
    rw [hr.finished] at hv
    have hnext : Coprocessor.next x (.status value) = x := by
      cases hf : x.finished
      · rw [hv, hf]
        rfl
      · rw [hv, hf]
        obtain ⟨mem, computing, finished⟩ := x
        cases hc
        cases hf
        rfl
    rw [hnext]
    refine ⟨?_, hops, fun _ => hr.succ h hu hnt, fun hf => ?_⟩
    · rw [Coprocessor.Correct, hc]
      exact hv
    · exact absurd (hc.symm.trans hf) Bool.false_ne_true
  · obtain ⟨⟨t₀, hcomp⟩, hprod⟩ := hx.pending hc
    cases hf : (registers s t).finishReg
    · rw [hf] at hv
      have hnr : ¬ Reports (channel inputs s t) (registers s t) := fun hrep =>
        Bool.false_ne_true (hf.symm.trans hrep.2.2)
      have hnext : Coprocessor.next x (.status value) = x := by
        rw [hv]
        rfl
      rw [hnext]
      refine ⟨?_, hops, fun hf => ?_, fun _ => ⟨⟨t₀, hcomp.extend hu (busy_succ h hcomp.busy hnr)⟩, hprod⟩⟩
      · rw [Coprocessor.Correct, hc]
        exact .inl hv
      · exact absurd (hc.symm.trans hf) Bool.true_eq_false.mp
    · rw [hf] at hv
      have hnext : Coprocessor.next x (.status value) = { x with computing := false, finished := true } := by
        rw [hv]
        rfl
      rw [hnext]
      refine ⟨?_, hops, fun _ => hx.report h hc hcomp hu ⟨ha, hreg, hf⟩, fun hf => absurd hf Bool.false_ne_true⟩
      rw [Coprocessor.Correct, hc]
      exact .inr hv

end Step

section Operation

variable {mems : Memories} {inputs : ℕ → Input} {s : ℕ → State shipped} {t m : ℕ} {x : Coprocessor.State}
  (h : Run mems inputs s) (hx : Simulates mems inputs s t x)
include h hx

theorem Simulates.write {r : Region} {addr len : ℕ} {data : Mem} (hallowed : Coprocessor.Allowed x (.write r addr len data))
    (ho : Occurs inputs s (.write r addr len data) t m) :
    Simulates mems inputs s m (Coprocessor.next x (.write r addr len data)) := by
  obtain ⟨hc, haddr, hlen, hfit⟩ := hallowed
  obtain ⟨hm, hwords, hcycle⟩ := ho
  have hready := hx.ready hc
  obtain ⟨n, rfl⟩ : ∃ n, m = t + n := ⟨m - t, by omega⟩
  rw [Nat.add_sub_cancel_left] at hwords
  -- No start pulse comes, so the registers stay as they are and the other port writes nothing.
  have hquiet (k : ℕ) (hk : k ≤ n) : phase (logic s) (t + k) = .ready ∧ Clean (s (t + k)).usrLogic.mm ∧
      (registers s (t + k)).finishReg = x.finished := by
    induction k with
    | zero => exact ⟨hready.phase, hready.clean, hready.finished⟩
    | succ k ih =>
      obtain ⟨hp, hclean, hf⟩ := ih (by omega)
      have hnt := not_triggers_of_silent (hcycle (t + k) (by omega) (by omega)).2
      rw [← Nat.add_assoc]
      exact ⟨ready_succ h hp hnt, .inl (rests_succ h hclean (start_of_ready h hp)),
        (finishReg_ready_succ h hp hnt).trans hf⟩
  have hbrams : (s (t + n)).brams = XdmaApp.transfer mems.mode (beats inputs t n) (s t).brams := by
    apply h.brams
    intro u hu hu'
    obtain ⟨k, rfl⟩ : ∃ k, u = t + k := ⟨u - t, by omega⟩
    exact bramWeC_clean (hquiet k (by omega)).2.1
  have hmem (q : Region) (a : ℕ) : (q.bram (s (t + n)).brams).mem a =
      if q = r ∧ InRange addr len a then data a else (q.bram (s t).brams).mem a := by
    have hbeats : ∀ i ∈ beats inputs t n, WriteCycle r addr len data i := by
      intro i hi
      obtain ⟨u, hu, rfl⟩ := List.mem_map.mp hi
      rw [List.mem_range'_1] at hu
      exact (hcycle u hu.1 hu.2).1
    rw [hbrams, XdmaApp.mem_transfer_write mems.mode hbeats, hwords]
    apply if_congr _ rfl rfl
    rw [XdmaApp.mem_words]
    constructor
    · exact fun ⟨hq, _, hr⟩ => ⟨hq, by omega, by omega⟩
    · exact fun ⟨hq, hr⟩ => ⟨hq, ⟨by omega, by omega, by omega⟩, by omega, by omega⟩
  obtain ⟨hp, hclean, hf⟩ := hquiet n le_rfl
  refine ⟨fun q hq => ?_, fun _ => ⟨hp, hclean, hf, fun a ha => ?_⟩, fun hf => ?_⟩
  · funext a
    rw [hmem, hx.operands q hq]
    rfl
  · change (Region.bram (s (t + n)).brams .c).mem a = _
    rw [hmem, show (Region.bram (s t).brams .c).mem a = _ from hready.result a ha]
    rfl
  · exact absurd (hc.symm.trans hf) Bool.false_ne_true

omit h in
theorem Simulates.mem {r : Region} (hr : r = .c → x.computing = false) {a : ℕ} (ha : a < 8192) :
    (r.bram (s t).brams).mem a = x.mem r a := by
  by_cases hrc : r = .c
  · subst hrc
    exact (hx.ready (hr rfl)).result a ha
  · rw [hx.operands r hrc]

theorem Simulates.read {r : Region} {addr len : ℕ} {data : Mem} (hallowed : Coprocessor.Allowed x (.read r addr len data))
    (ho : Occurs inputs s (.read r addr len data) t m) :
    Coprocessor.Correct x (.read r addr len data) ∧ Simulates mems inputs s m x := by
  obtain ⟨hr, hfit⟩ := hallowed
  obtain ⟨hm, hwords, hcycle, hdata⟩ := ho
  have hsim (u : ℕ) (hu : t ≤ u) (hu' : u ≤ m) : Simulates mems inputs s u x := by
    apply hx.until h hu
    intro v hv hv'
    obtain ⟨hread, hs⟩ := hcycle v hv (by omega)
    exact ⟨unwritten_of_readCycle hread, hs⟩
  have hword (u : ℕ) (hu : u ∈ (List.range' t (m - 1 - t)).filter fun u => (inputs u).axi.bramEn) :
      XdmaApp.bramRddata (inputs (u + 1)).axi (s (u + 1)).brams =
        (x.mem r).word (XdmaApp.bramAddr1 (inputs u).axi) 8 := by
    obtain ⟨hu, hen⟩ := List.mem_filter.mp hu
    rw [List.mem_range'_1] at hu
    have hread := (hcycle u (by omega) (by omega)).1
    have hread' := (hcycle (u + 1) (by omega) (by omega)).1
    have haddressed : XdmaApp.bramAddr1 (inputs u).axi ∈ words addr len := by
      rw [← hwords, addressed, beats]
      apply List.mem_map_of_mem
      rw [List.mem_filter]
      exact ⟨List.mem_map_of_mem (List.mem_range'_1.mpr hu), hen⟩
    rw [XdmaApp.mem_words] at haddressed
    rw [XdmaApp.bramRddata_eq, XdmaApp.selected_of_raddrVal hread'.region, h.isRun, douta_step,
      XdmaApp.douta_step mems.mode hen (hread.noWrite hen), if_pos (.inl hread.region)]
    apply Mem.word_congr
    intro j hj
    exact (hsim u hu.1 (by omega)).mem hr (by omega)
  have hreceived : received inputs s t (m - 1 - t) = (words addr len).map fun k => (x.mem r).word k 8 := by
    rw [received, List.map_congr_left hword, ← hwords, addressed, beats, List.filter_map, List.map_map, List.map_map]
    rfl
  refine ⟨fun a ha => ?_, hsim m (by omega) le_rfl⟩
  obtain ⟨n, rfl⟩ : ∃ n, a = addr + n := ⟨a - addr, by omega⟩
  rw [hdata n (by omega), hreceived, XdmaApp.readBuffer_words _ (by omega)]

omit hx in
theorem Run.registers : registers s 0 = UsrControl.powerOn := by
  rw [Device.registers, UsrLogic.registers, logic, h.begins]
  rfl

omit hx in
theorem accepted_lt {register : BitVec 2} {value : BitVec 32} {a r : ℕ}
    (hone : OneAtATime (channel inputs s) (registers s)) (ho : Access inputs s register value t m a r) : a < m :=
  (ho.isRead.value_eq h.usrLogic.usrControl h.registers hone).1.trans ho.ends

theorem Simulates.access {register : BitVec 2} {value : BitVec 32} {a r : ℕ} {x' : Coprocessor.State} {p : Prop}
    (hone : OneAtATime (channel inputs s) (registers s)) (ho : Access inputs s register value t m a r)
    (hstep : Unwritten mems (inputs a) (s a) → Simulates mems inputs s a x → p ∧ Simulates mems inputs s (a + 1) x') :
    p ∧ Simulates mems inputs s m x' := by
  have ham := accepted_lt h hone ho
  have hta := ho.begins
  have hquiet (u : ℕ) (hu : t ≤ u) (hu' : u < m) (hne : u ≠ a) :
      Unwritten mems (inputs u) (s u) ∧ Silent inputs s u :=
    ⟨unwritten_of_idle (ho.noBeat u hu hu'), ho.silent u hu hu' hne⟩
  have hbefore := hx.until h hta fun u hu hu' => hquiet u hu (by omega) (by omega)
  obtain ⟨hp, hafter⟩ := hstep (unwritten_of_idle (ho.noBeat a hta ham)) hbefore
  exact ⟨hp, hafter.until h (by omega) fun u hu hu' => hquiet u (by omega) hu' (by omega)⟩

theorem Simulates.operation {o : Op} (hone : OneAtATime (channel inputs s) (registers s))
    (hallowed : Coprocessor.Allowed x o) (ho : Occurs inputs s o t m) :
    Coprocessor.Correct x o ∧ Simulates mems inputs s m (Coprocessor.next x o) := by
  cases o with
  | write r addr len data => exact ⟨trivial, hx.write h hallowed ho⟩
  | read r addr len data => exact hx.read h hallowed ho
  | start =>
    obtain ⟨value, a, r, ho⟩ := ho
    apply hx.access h hone ho
    intro hu hxa
    exact ⟨trivial, hxa.start h hu ho.isRead.accepted ho.isRead.register⟩
  | status value =>
    obtain ⟨a, r, ho⟩ := ho
    have hvalue := (ho.isRead.value_eq h.usrLogic.usrControl h.registers hone).2
    apply hx.access h hone ho
    intro hu hxa
    exact hxa.status h hu ho.isRead.accepted ho.isRead.register hvalue

end Operation

section Session

variable (mems : Memories) (brams : XdmaApp.State) (inputs : ℕ → Input)

abbrev run : ℕ → State shipped := Clocked.run (step mems) (powerOn shipped brams) inputs

/-- A coprocessor that has not computed anything yet. -/
def initial : Coprocessor.State := ⟨fun r => (r.bram brams).mem, false, false⟩

variable {mems brams inputs}

theorem run_run (hreset : ∀ t, (inputs t).userResetn = true) : Run mems inputs (run mems brams inputs) :=
  ⟨Clocked.isRun_run _ _ _, hreset, rfl⟩

theorem simulates_initial : Simulates mems inputs (run mems brams inputs) 0 (initial brams) :=
  ⟨fun _ _ => rfl, fun _ => ⟨rfl, .inr rfl, rfl, fun _ _ => rfl⟩, nofun⟩

theorem simulates_session (hreset : ∀ t, (inputs t).userResetn = true)
    (hone : OneAtATime (channel inputs (run mems brams inputs)) (registers (run mems brams inputs)))
    {t u : ℕ} {ops : List Op} (hops : Clocked.Session (Quiet inputs (run mems brams inputs))
      (Occurs inputs (run mems brams inputs)) t ops u) {x : Coprocessor.State}
    (hx : Simulates mems inputs (run mems brams inputs) t x) (hd : Coprocessor.spec.Disciplined x ops) :
    Coprocessor.spec.Correct x ops ∧
      Simulates mems inputs (run mems brams inputs) u (Coprocessor.spec.run x ops) := by
  have h : Run mems inputs (run mems brams inputs) := run_run hreset
  apply hops.simulates Coprocessor.spec _ _ _ hx hd
  · exact fun t x hx hq => hx.succ h (unwritten_of_idle hq.1) hq.2
  · exact fun o t m x hx hallowed ho => hx.operation h hone hallowed ho

/-- Every session of a disciplined host has the results of the coprocessor, in whatever cycles its
operations take place. -/
theorem session_correct (mems : Memories) (brams : XdmaApp.State) (inputs : ℕ → Input)
    (hreset : ∀ t, (inputs t).userResetn = true)
    (hone : OneAtATime (channel inputs (run mems brams inputs)) (registers (run mems brams inputs)))
    (ops : List Op) {u : ℕ} (hops : Clocked.Session (Quiet inputs (run mems brams inputs))
      (Occurs inputs (run mems brams inputs)) 0 ops u)
    (hd : Coprocessor.spec.Disciplined (initial brams) ops) : Coprocessor.spec.Correct (initial brams) ops :=
  (simulates_session hreset hone hops simulates_initial hd).1

theorem writeCycle_writeBeat (r : Region) {addr len : ℕ} (wdata : ℕ → BitVec 8) {k : ℕ} (hk : k < 1024) :
    WriteCycle r addr len wdata (XdmaApp.writeBeat r addr len wdata k) := by
  have hk' : XdmaApp.bramAddr1 (XdmaApp.writeBeat r addr len wdata k) = k := XdmaApp.bramAddr1_driven r _ _ _ hk
  refine ⟨XdmaApp.addrVal_base r, fun _ j hj => ?_, fun _ j hj => ?_⟩
  · rw [hk']
    exact XdmaApp.getLsbD_strobeOf addr len k hj
  · rw [hk']
    exact Clocked.lane_pack _ _ _ hj

theorem readCycle_driven (r : Region) (en : Bool) (k : ℕ) : ReadCycle r (XdmaApp.driven r en 0 0 k) :=
  ⟨XdmaApp.addrVal_base r, fun _ => rfl⟩

end Session

end EmbeddedAccelerator.Device
