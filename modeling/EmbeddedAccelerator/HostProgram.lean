import EmbeddedAccelerator.Offload

/-!
`main` of `matrix_top2.c`: it writes both operands, starts the computation, polls the flag and reads the result.
-/

namespace EmbeddedAccelerator.Host

open Clocked (Mem)
open Coprocessor (Op)
open Device (Computing Quiet Occurs Access Silent Unwritten Simulates channel registers run initial)
open Machine (cycles)
open UsrControl (OneAtATime)
open XdmaApp (Region addrVal)

def addrMatrix1 : BitVec 64 := 0x00000000
def addrMatrix2 : BitVec 64 := 0x00002000
def addrResult : BitVec 64 := 0x00006000

/-- The memory that an address shows, and the place in it. -/
def regionOf (addr : BitVec 64) : Region :=
  if addrVal addr = 0#2 then .a else if addrVal addr = 1#2 then .b else .c

def offsetOf (addr : BitVec 64) : ℕ := addr.toNat % 8192

def writeToFpga (address : BitVec 64) (matrix : Mem) : Op :=
  .write (regionOf address) (offsetOf address) (matrixSize * matrixSize) matrix

def readFromFpga (address : BitVec 64) (buffer : Mem) : Op :=
  .read (regionOf address) (offsetOf address) (2 * matrixSize * matrixSize) buffer

/-- The byte of `FLAG_ADDR` that `dev_read_mapped` copies. -/
def flag (value : BitVec 32) : BitVec 8 := value.setWidth 8

/-- What `main` does, given what the reads return: `polls` are the values for which it goes round in
its loop. -/
structure Main where
  flattenedA : Mem
  flattenedB : Mem
  polls : List (BitVec 32)
  last : BitVec 32
  result : Mem
  loops : ∀ value ∈ polls, flag value = 0
  leaves : flag last ≠ 0

namespace Main

variable (x : Main)

def offload : List Op := [writeToFpga addrMatrix1 x.flattenedA, writeToFpga addrMatrix2 x.flattenedB, .start]

def waiting : List Op := x.polls.map .status

def ops : List Op := x.offload ++ (x.waiting ++ [.status x.last, readFromFpga addrResult x.result])

def finalResult (i : ℕ) : BitVec 16 := convertToInt16Array x.result i

end Main

section Polling

variable {mems : Device.Memories} {inputs : ℕ → Device.Input} {s : ℕ → Device.State shipped}
  (h : Device.Run mems inputs s) (hone : OneAtATime (channel inputs s) (registers s))
include h hone

theorem computing_poll {t m t₀ : ℕ} {value : BitVec 32} (hflag : flag value = 0) (ho : Occurs inputs s (.status value) t m)
    (hc : Computing mems inputs s t₀ t) : Computing mems inputs s t₀ m ∧ t < m ∧ t < t₀ + cycles shipped := by
  obtain ⟨a, r, ho⟩ := ho
  have ham := Device.accepted_lt h hone ho
  have hta := ho.begins
  have hvalue := (ho.isRead.value_eq h.usrLogic.usrControl h.registers hone).2
  rw [UsrControl.readValue, if_pos ho.isRead.register] at hvalue
  have hfinish : (registers s a).finishReg = false := by
    by_contra hf
    rw [Bool.not_eq_false] at hf
    rw [hf, if_pos rfl] at hvalue
    rw [hvalue] at hflag
    exact absurd hflag (by decide)
  have hquiet (v : ℕ) (hv : t ≤ v) (hv' : v < m) : ¬ UsrControl.Reports (channel inputs s v) (registers s v) := by
    by_cases hva : v = a
    · subst hva
      exact fun hrep => Bool.false_ne_true (hfinish.symm.trans hrep.2.2)
    · exact Device.not_reports_of_silent (ho.silent v hv hv' hva)
  have hbusy (v : ℕ) (hv : t ≤ v) (hv' : v ≤ m) : UsrLogic.phase (Device.logic s) v ≠ .ready := by
    induction v, hv using Nat.le_induction with
    | base => exact hc.busy
    | succ v hv ihv => exact Device.busy_succ h (ihv (by omega)) (hquiet v hv (by omega))
  have hlater (v : ℕ) (hv : t ≤ v) (hv' : v ≤ m) : Computing mems inputs s t₀ v :=
    hc.extendTo hv (fun w h1 h2 => Device.unwritten_of_idle (ho.noBeat w h1 (by omega)))
      fun w h1 h2 => hbusy w (by omega) (by omega)
  -- the product is not done in cycle `a`: `finish` would have been read
  have hca := hlater a hta (by omega)
  have hlt : a < t₀ + cycles shipped := by
    obtain ⟨w, rfl⟩ : ∃ w, a = t₀ + w := ⟨a - t₀, by have := hca.le; omega⟩
    have hdone := mt (hca.done_iff h le_rfl).mpr
    have hphase := h.usrLogic.finishReg_eq h.begins hca.busy
    have hfr : (registers s (t₀ + w)).finishReg = decide _ := hphase
    rw [hfinish] at hfr
    have := hdone (of_decide_eq_false hfr.symm)
    omega
  exact ⟨hlater m (by omega) le_rfl, by omega, by omega⟩

theorem polls_le {t u t₀ : ℕ} {polls : List (BitVec 32)} (hpolls : ∀ value ∈ polls, flag value = 0)
    (hs : Clocked.Session (Quiet inputs s) (Occurs inputs s) t (polls.map Op.status) u)
    (hc : Computing mems inputs s t₀ t) : polls.length ≤ t₀ + cycles shipped - t := by
  generalize hops : polls.map Op.status = ops at hs
  induction hs generalizing polls with
  | done =>
    rw [List.map_eq_nil_iff.mp hops]
    exact Nat.zero_le _
  | @idle t u ops hq _ ih =>
    have hbusy := Device.busy_succ h hc.busy (Device.not_reports_of_silent hq.2)
    have hlen := ih hpolls (hc.extend (Device.unwritten_of_idle hq.1) hbusy) hops
    omega
  | @op o t m u ops ho _ ih =>
    cases polls with
    | nil => cases hops
    | cons value polls =>
      obtain ⟨rfl, hrest⟩ := List.cons.inj hops
      obtain ⟨hlater, htm, hlt⟩ := computing_poll h hone (hpolls value List.mem_cons_self) ho hc
      have hlen := ih (fun v hv => hpolls v (List.mem_cons_of_mem _ hv)) hlater hrest
      rw [List.length_cons]
      omega

end Polling

section Effect

variable (x : Main) (c : Coprocessor.State)

open Coprocessor (spec matrixOf product resultBytes)

theorem run_waiting : spec.run c x.waiting = c ∧ spec.Disciplined c x.waiting := by
  have hpolls : ∀ value ∈ x.polls, value ≠ 2 := by
    rintro value hv rfl
    exact absurd (x.loops 2 hv) (by decide)
  rw [Main.waiting]
  generalize x.polls = polls at hpolls
  induction polls with
  | nil => exact ⟨rfl, trivial⟩
  | cons value polls ih =>
    obtain ⟨hrun, hd⟩ := ih fun v hv => hpolls v (List.mem_cons_of_mem _ hv)
    have hnext : spec.next c (.status value) = c := if_neg (hpolls value List.mem_cons_self)
    rw [List.map_cons, Clocked.Spec.run, List.foldl_cons, Clocked.Spec.Disciplined, hnext]
    exact ⟨hrun, trivial, hd⟩

/-- The coprocessor while `main` is in its loop. -/
def multiplying : Coprocessor.State := spec.run c x.offload

variable {c} (hc : c.computing = false)
include hc

theorem disciplined_offload : spec.Disciplined c x.offload :=
  ⟨⟨hc, by decide, by decide, by decide⟩, ⟨hc, by decide, by decide, by decide⟩, trivial, trivial⟩

theorem multiplying_eq : (multiplying x c).computing = true ∧
    (multiplying x c).mem .c = resultBytes
      (matrixMultiply (matrixOf x.flattenedA) (Machine.mirrorColumns (matrixOf x.flattenedB))) := by
  have hbytes (r : Region) (old : Region → Mem) (data : Mem) :
      matrixOf (fun a => if r = r ∧ XdmaApp.InRange 0 4096 a then data a else old r a) = matrixOf data := by
    funext i j
    have hi := i.isLt
    have hj := j.isLt
    simp only [matrixSize] at hi hj
    exact if_pos ⟨rfl, Nat.zero_le _, by simp only [matrixSize]; omega⟩
  have hstart (c : Coprocessor.State) (hc : c.computing = false) :
      (spec.next c .start).computing = true ∧ (spec.next c .start).mem .c = product (c.mem .a) (c.mem .b) := by
    simp [spec, Coprocessor.next, hc]
  obtain ⟨hcomputing, hmem⟩ := hstart (spec.run c (x.offload.take 2)) hc
  refine ⟨hcomputing, hmem.trans ?_⟩
  rw [product]
  congr 2
  · exact hbytes .a c.mem x.flattenedA
  · congr 1
    exact hbytes .b c.mem x.flattenedB

end Effect

section Runs

variable {mems : Device.Memories} {brams : XdmaApp.State} {inputs : ℕ → Device.Input}
  (hreset : ∀ t, (inputs t).userResetn = true)
  (hone : OneAtATime (channel inputs (run mems brams inputs)) (registers (run mems brams inputs)))
  {before : List Op} (hidle : (Coprocessor.spec.run (initial brams) before).computing = false) (x : Main)
include hreset hone hidle

theorem simulates_offload (hbefore : Coprocessor.spec.Disciplined (initial brams) before) {u : ℕ} {rest : List Op}
    (hops : Clocked.Session (Quiet inputs (run mems brams inputs)) (Occurs inputs (run mems brams inputs)) 0
      (before ++ (x.offload ++ rest)) u) :
    ∃ t, Simulates mems inputs (run mems brams inputs) t
        (multiplying x (Coprocessor.spec.run (initial brams) before)) ∧
      Clocked.Session (Quiet inputs (run mems brams inputs)) (Occurs inputs (run mems brams inputs)) t rest u := by
  obtain ⟨t0, hs0, hs⟩ := hops.split
  obtain ⟨t, hs1, hs2⟩ := hs.split
  have hsim := (Device.simulates_session hreset hone hs0 Device.simulates_initial hbefore).2
  exact ⟨t, (Device.simulates_session hreset hone hs1 hsim (disciplined_offload x hidle)).2, hs2⟩

variable {t u : ℕ} (hsim : Simulates mems inputs (run mems brams inputs) t
    (multiplying x (Coprocessor.spec.run (initial brams) before)))
include hsim

theorem length_polls_le (hs : Clocked.Session (Quiet inputs (run mems brams inputs))
    (Occurs inputs (run mems brams inputs)) t x.waiting u) : x.polls.length ≤ cycles shipped := by
  obtain ⟨⟨t₀, hc⟩, -⟩ := hsim.pending (multiplying_eq x hidle).1
  have hle := hc.le
  have hlen := polls_le (Device.run_run hreset) hone x.loops hs hc
  omega

theorem finalResult_eq (hs : Clocked.Session (Quiet inputs (run mems brams inputs))
    (Occurs inputs (run mems brams inputs)) t (x.waiting ++ [.status x.last, readFromFpga addrResult x.result]) u)
    (i j : Fin matrixSize) :
    x.finalResult (i * matrixSize + j) =
      matrixMultiply (Coprocessor.matrixOf x.flattenedA)
        (Machine.mirrorColumns (Coprocessor.matrixOf x.flattenedB)) i j := by
  obtain ⟨t2, hs2, hs3⟩ := hs.split
  obtain ⟨hcomputing, hproduct⟩ := multiplying_eq x hidle
  let c := multiplying x (Coprocessor.spec.run (initial brams) before)
  obtain ⟨hrun, hd⟩ := run_waiting x c
  have hsim2 : Simulates mems inputs (run mems brams inputs) t2 c :=
    hrun ▸ (Device.simulates_session hreset hone hs2 hsim hd).2
  have hlast : x.last = 2 := by
    obtain ⟨t3, hs3, -⟩ : ∃ m, Clocked.Session _ _ t2 [Op.status x.last] m ∧
        Clocked.Session _ _ m [readFromFpga addrResult x.result] u := hs3.split
    have hcorrect := (Device.simulates_session hreset hone hs3 hsim2 ⟨trivial, trivial⟩).1.1
    have hvalue : if c.computing then x.last = 0 ∨ x.last = 2 else _ := hcorrect
    rw [hcomputing] at hvalue
    obtain h0 | h2 := hvalue
    · exact absurd (h0 ▸ rfl) x.leaves
    · exact h2
  have hallowed : Coprocessor.spec.Disciplined c [.status x.last, readFromFpga addrResult x.result] := by
    refine ⟨trivial, ⟨fun _ => ?_, by decide⟩, trivial⟩
    rw [hlast]
    rfl
  have hread := (Device.simulates_session hreset hone hs3 hsim2 hallowed).1.2.1
  have hresult (a : ℕ) (ha : a < 8192) : x.result a = c.mem .c a := by
    have hmem : x.result a = _ := hread a ⟨Nat.zero_le _, ha⟩
    rw [hmem, hlast]
    rfl
  have hi := i.isLt
  have hj := j.isLt
  simp only [matrixSize] at hi hj
  rw [Main.finalResult, convertToInt16Array_eq_half, Mem.half, hresult _ (by simp only [matrixSize]; omega),
    hresult _ (by simp only [matrixSize]; omega), hproduct]
  exact Coprocessor.half_resultBytes _ i j

end Runs

theorem leaves_two : flag 2 ≠ 0 := by decide

/-- Whatever the device did before, as long as no computation is left over: `main` gets the product of
its operands, with the columns of the second one mirrored, and it goes round in its loop at most once
for each cycle of a computation, also as long as it has not left the loop. -/
theorem main_correct (mems : Device.Memories) (brams : XdmaApp.State) (inputs : ℕ → Device.Input)
    (hreset : ∀ t, (inputs t).userResetn = true)
    (hone : OneAtATime (channel inputs (run mems brams inputs)) (registers (run mems brams inputs)))
    (before : List Op) (hbefore : Coprocessor.spec.Disciplined (initial brams) before)
    (hidle : (Coprocessor.spec.run (initial brams) before).computing = false) :
    (∀ (x : Main) (u : ℕ),
      Clocked.Session (Quiet inputs (run mems brams inputs)) (Occurs inputs (run mems brams inputs)) 0
        (before ++ x.ops) u →
      (∀ i j : Fin matrixSize, x.finalResult (i * matrixSize + j) =
        matrixMultiply (Coprocessor.matrixOf x.flattenedA)
          (Machine.mirrorColumns (Coprocessor.matrixOf x.flattenedB)) i j) ∧
      x.polls.length ≤ cycles shipped) ∧
    ∀ (flattenedA flattenedB : Mem) (polls : List (BitVec 32)) (u : ℕ), (∀ value ∈ polls, flag value = 0) →
      Clocked.Session (Quiet inputs (run mems brams inputs)) (Occurs inputs (run mems brams inputs)) 0
        (before ++ ([writeToFpga addrMatrix1 flattenedA, writeToFpga addrMatrix2 flattenedB, .start] ++
          polls.map .status)) u →
      polls.length ≤ cycles shipped := by
  refine ⟨fun x u hops => ?_, fun flattenedA flattenedB polls u hloops hops => ?_⟩
  · obtain ⟨t, hsim, hs⟩ := simulates_offload hreset hone hidle x hbefore hops
    obtain ⟨m, hpolls, -⟩ := hs.split
    exact ⟨finalResult_eq hreset hone hidle x hsim hs, length_polls_le hreset hone hidle x hsim hpolls⟩
  · let x : Main := ⟨flattenedA, flattenedB, polls, 2, fun _ => 0, hloops, leaves_two⟩
    obtain ⟨t, hsim, hs⟩ := simulates_offload hreset hone hidle x hbefore hops
    exact length_polls_le hreset hone hidle x hsim hs

section Schedule

variable (A B : Mem) (ask : ℕ)

/-- One beat in every cycle, and one read of the flag, in cycle `ask`. -/
def schedule (t : ℕ) : Device.Input where
  userResetn := true
  araddr := if t < 1027 then 0x1000 else 0x2000
  arvalid := t = 1024 ∨ t = 1025 ∨ t = ask ∨ t = ask + 1
  rready := true
  axi :=
    if t < 512 then XdmaApp.writeBeat .a 0 4096 A t
    else if t < 1024 then XdmaApp.writeBeat .b 0 4096 B (t - 512)
    else XdmaApp.driven .c (ask + 3 ≤ t ∧ t < ask + 1027) 0 0 (t - (ask + 3))

theorem addressed_range {f : ℕ → XdmaApp.Signals} {t n : ℕ}
    (h : ∀ k < n, (f (t + k)).bramEn = true ∧ XdmaApp.bramAddr1 (f (t + k)) = k) :
    XdmaApp.addressed ((List.range' t n).map f) = List.range' 0 n := by
  have hmap : (List.range' t n).map f = (List.range' 0 n).map fun k => f (t + k) := by
    rw [List.range'_eq_map_range, List.range'_eq_map_range, List.map_map, List.map_map]
    simp
  rw [hmap]
  apply XdmaApp.addressed_map
  intro k hk
  rw [List.mem_range'_1] at hk
  exact h k (by omega)

variable (mems : Device.Memories) (brams : XdmaApp.State)

theorem loops_nil : ∀ value ∈ ([] : List (BitVec 32)), flag value = 0 := fun _ h => absurd h List.not_mem_nil

/-- `main` on the device of `schedule`. -/
def scheduled : Main where
  flattenedA := A
  flattenedB := B
  polls := []
  last := 2
  result := XdmaApp.readBuffer
    (Device.received (schedule A B ask) (run mems brams (schedule A B ask)) (ask + 3) 1024) 0
  loops := loops_nil
  leaves := leaves_two

theorem run_schedule : Device.Run mems (schedule A B ask) (run mems brams (schedule A B ask)) :=
  Device.run_run fun _ => rfl

variable {A B ask} {mems brams} (hask : 1027 ≤ ask) {t : ℕ}

include hask

theorem inPairs_schedule : UsrControl.InPairs (channel (schedule A B ask) (run mems brams (schedule A B ask)))
    fun t => t = 1024 ∨ t = ask where
  arvalid t := by
    change decide (t = 1024 ∨ t = 1025 ∨ t = ask ∨ t = ask + 1) = true ↔ _
    rw [decide_eq_true_eq]
    omega
  apart t h := by omega
  araddr t h := by
    change (if t + 1 < 1027 then 0x1000#32 else 0x2000#32) = if t < 1027 then 0x1000#32 else 0x2000#32
    exact if_congr (by omega) rfl rfl

theorem accepts_schedule : UsrControl.Accepts (channel (schedule A B ask) (run mems brams (schedule A B ask)) t)
    (registers (run mems brams (schedule A B ask)) t) ↔ t = 1024 ∨ t = ask :=
  (inPairs_schedule hask).accepts_iff (run_schedule A B ask mems brams).usrLogic.usrControl
    (run_schedule A B ask mems brams).registers

theorem not_accepts_schedule (h1 : t ≠ 1024) (h2 : t ≠ ask) :
    ¬ UsrControl.Accepts (channel (schedule A B ask) (run mems brams (schedule A B ask)) t)
      (registers (run mems brams (schedule A B ask)) t) := by
  rw [accepts_schedule hask]
  exact not_or.mpr ⟨h1, h2⟩

theorem oneAtATime_schedule : OneAtATime (channel (schedule A B ask) (run mems brams (schedule A B ask)))
    (registers (run mems brams (schedule A B ask))) :=
  (inPairs_schedule hask).oneAtATime (run_schedule A B ask mems brams).usrLogic.usrControl
    (run_schedule A B ask mems brams).registers fun _ => rfl

omit hask in
theorem axi_schedule (h : 1024 ≤ t) : (schedule A B ask t).axi =
    XdmaApp.driven .c (ask + 3 ≤ t ∧ t < ask + 1027) 0 0 (t - (ask + 3)) :=
  (if_neg (by omega)).trans (if_neg (by omega))

omit hask in
theorem register_schedule : (channel (schedule A B ask) (run mems brams (schedule A B ask)) t).register =
    if t < 1027 then 1#2 else 2#2 := by
  change BitVec.extractLsb' 12 2 (if t < 1027 then 0x1000#32 else 0x2000#32) = _
  split_ifs <;> rfl

theorem access_schedule (h : t = 1024 ∨ t = ask) :
    Access (schedule A B ask) (run mems brams (schedule A B ask))
      (channel (schedule A B ask) (run mems brams (schedule A B ask)) t).register
      (UsrControl.readValue (channel (schedule A B ask) (run mems brams (schedule A B ask)) t)
        (registers (run mems brams (schedule A B ask)) t)) t (t + 3) t (t + 2) where
  begins := le_rfl
  ends := Nat.lt_succ_self _
  isRead := UsrControl.isRead_of_accepts (run_schedule A B ask mems brams).usrLogic.usrControl
    (run_schedule A B ask mems brams).registers (oneAtATime_schedule hask) ((accepts_schedule hask).mpr h) rfl
  silent u hu hu' hne := fun ha => absurd ha (not_accepts_schedule hask (by omega) (by omega))
  noBeat u hu hu' := by
    rw [axi_schedule (by omega)]
    exact decide_eq_false (by omega)

theorem writes_schedule {p n : ℕ} {r : Region} {data : Mem} (hn : n ≤ 1024) (hlast : p + n ≤ 1024)
    (hbeat : ∀ k < n, (schedule A B ask (p + k)).axi = XdmaApp.writeBeat r 0 (8 * n) data k) :
    Occurs (schedule A B ask) (run mems brams (schedule A B ask)) (.write r 0 (8 * n) data) p (p + n) := by
  have hcycle (k : ℕ) (hk : k < n) : XdmaApp.bramAddr1 (XdmaApp.writeBeat r 0 (8 * n) data k) = k :=
    XdmaApp.bramAddr1_driven r _ _ _ (by omega)
  refine ⟨by omega, ?_, fun u hu hu' => ?_⟩
  · have hwords : XdmaApp.words 0 (8 * n) = List.range' 0 n := by
      obtain rfl | hpos := Nat.eq_zero_or_pos n
      · rfl
      · have hdiv : (0 + 8 * n + 7) / 8 - 0 / 8 = n := by omega
        rw [XdmaApp.words, if_neg (by omega), hdiv]
    rw [Nat.add_sub_cancel_left, hwords]
    apply addressed_range
    intro k hk
    rw [hbeat k hk]
    exact ⟨rfl, hcycle k hk⟩
  · obtain ⟨k, rfl⟩ : ∃ k, u = p + k := ⟨u - p, by omega⟩
    rw [hbeat k (by omega)]
    exact ⟨Device.writeCycle_writeBeat r data (by omega),
      fun ha => absurd ha (not_accepts_schedule hask (by omega) (by omega))⟩

theorem offload_schedule : Clocked.Session (Quiet (schedule A B ask) (run mems brams (schedule A B ask)))
    (Occurs (schedule A B ask) (run mems brams (schedule A B ask))) 0
    [writeToFpga addrMatrix1 A, writeToFpga addrMatrix2 B, .start] 1027 := by
  have ha : Occurs (schedule A B ask) (run mems brams (schedule A B ask)) (writeToFpga addrMatrix1 A) 0 512 :=
    writes_schedule (p := 0) (n := 512) hask (by decide) (by decide) fun k hk => by
      rw [Nat.zero_add]
      exact if_pos hk
  have hb : Occurs (schedule A B ask) (run mems brams (schedule A B ask)) (writeToFpga addrMatrix2 B) 512 1024 :=
    writes_schedule (p := 512) (n := 512) hask (by decide) (by decide) fun k hk =>
      (if_neg (by omega)).trans ((if_pos (by omega)).trans (by rw [Nat.add_sub_cancel_left]; rfl))
  have hstart : Occurs (schedule A B ask) (run mems brams (schedule A B ask)) .start 1024 1027 :=
    ⟨_, _, _, register_schedule (t := 1024) ▸ access_schedule hask (.inl rfl)⟩
  exact .op ha (.op hb (.op hstart .done))

theorem flag_schedule (hlate : 1027 + cycles shipped ≤ ask) :
    UsrControl.readValue (channel (schedule A B ask) (run mems brams (schedule A B ask)) ask)
      (registers (run mems brams (schedule A B ask)) ask) = 2 := by
  have h := run_schedule A B ask mems brams
  have hsim : Simulates mems (schedule A B ask) (run mems brams (schedule A B ask)) 1027
      (Coprocessor.spec.run (initial brams) [writeToFpga addrMatrix1 A, writeToFpga addrMatrix2 B, .start]) :=
    (Device.simulates_session h.noReset (oneAtATime_schedule hask) (offload_schedule hask) Device.simulates_initial
      ⟨⟨rfl, by decide, by decide, by decide⟩, ⟨rfl, by decide, by decide, by decide⟩, trivial, trivial⟩).2
  obtain ⟨⟨t₀, hc⟩, -⟩ := hsim.pending rfl
  have hle := hc.le
  have hquiet (u : ℕ) (hu : 1027 ≤ u) (hu' : u < ask) : Quiet (schedule A B ask) (run mems brams (schedule A B ask)) u := by
    refine ⟨?_, fun ha => absurd ha (not_accepts_schedule hask (by omega) (by omega))⟩
    rw [axi_schedule (by omega)]
    exact decide_eq_false (by omega)
  have hbusy (u : ℕ) (hu : 1027 ≤ u) (hu' : u ≤ ask) :
      UsrLogic.phase (Device.logic (run mems brams (schedule A B ask))) u ≠ .ready := by
    induction u, hu using Nat.le_induction with
    | base => exact hc.busy
    | succ u hu ih =>
      exact Device.busy_succ h (ih (by omega)) (Device.not_reports_of_silent (hquiet u hu (by omega)).2)
  have hask' := hc.extendTo (m := ask) (by omega) (fun u hu hu' => Device.unwritten_of_idle (hquiet u hu hu').1)
    fun u hu hu' => hbusy u (by omega) hu'
  have hdone : UsrLogic.phase (Device.logic (run mems brams (schedule A B ask))) ask = .done := by
    obtain ⟨w, rfl⟩ : ∃ w, ask = t₀ + w := ⟨ask - t₀, by omega⟩
    exact (hask'.done_iff h le_rfl).mpr (by omega)
  have hfinish : (registers (run mems brams (schedule A B ask)) ask).finishReg = decide _ :=
    h.usrLogic.finishReg_eq h.begins hask'.busy
  rw [UsrControl.readValue, if_pos (by rw [register_schedule, if_neg (by omega)]), hfinish, hdone]
  rfl

theorem session_schedule (hlate : 1027 + cycles shipped ≤ ask) :
    Clocked.Session (Quiet (schedule A B ask) (run mems brams (schedule A B ask)))
      (Occurs (schedule A B ask) (run mems brams (schedule A B ask))) 0
      (scheduled A B ask mems brams).ops (ask + 1028) := by
  have hstatus : Occurs (schedule A B ask) (run mems brams (schedule A B ask)) (.status 2) ask (ask + 3) := by
    have haccess := @access_schedule A B ask mems brams hask ask (.inr rfl)
    rw [flag_schedule hask hlate, register_schedule, if_neg (by omega)] at haccess
    exact ⟨_, _, haccess⟩
  have hread : Occurs (schedule A B ask) (run mems brams (schedule A B ask))
      (readFromFpga addrResult (scheduled A B ask mems brams).result) (ask + 3) (ask + 1028) := by
    have hlen : ask + 1028 - 1 - (ask + 3) = 1024 := by omega
    refine ⟨by omega, ?_, fun u hu hu' => ⟨?_, ?_⟩, fun n hn => ?_⟩
    · rw [hlen]
      apply addressed_range
      intro k hk
      rw [axi_schedule (by omega), Nat.add_sub_cancel_left]
      exact ⟨decide_eq_true (by omega), XdmaApp.bramAddr1_driven _ _ _ _ (by omega)⟩
    · rw [axi_schedule (by omega)]
      exact Device.readCycle_driven .c _ _
    · exact fun ha => absurd ha (not_accepts_schedule hask (by omega) (by omega))
    · rw [hlen]
      exact congrArg _ (Nat.zero_add n)
  apply (offload_schedule hask).append
  apply Clocked.Session.idles (m := ask) hask
  · intro u hu hu'
    refine ⟨?_, fun ha => absurd ha (not_accepts_schedule hask (by omega) (by omega))⟩
    rw [axi_schedule (by omega)]
    exact decide_eq_false (by omega)
  · exact .op hstatus (.op hread .done)

omit hask in
theorem disciplined_schedule : Coprocessor.spec.Disciplined (initial brams) (scheduled A B ask mems brams).ops :=
  ⟨⟨rfl, by decide, by decide, by decide⟩, ⟨rfl, by decide, by decide, by decide⟩, trivial, trivial,
    ⟨fun _ => rfl, by decide⟩, trivial⟩

/-- The numbers of the example of `main`. -/
def rows : Mem := fun i => BitVec.ofNat 8 (i / 64) - 32

/-- `main` on `rows` and `rows`, with memories that read before they write and hold 0. -/
def scheduledRows : Main :=
  scheduled rows rows (1027 + cycles shipped) ⟨fun douta _ _ => douta, fun _ mem => mem, fun _ => rfl⟩
    ⟨⟨fun _ => 0, 0⟩, ⟨fun _ => 0, 0⟩, ⟨fun _ => 0, 0⟩⟩

omit hask in
theorem session_correct_example :
    scheduledRows.last = 2 ∧ ∀ a < 8192, scheduledRows.result a = Coprocessor.product rows rows a := by
  have hask : 1027 ≤ 1027 + cycles shipped := Nat.le_add_right _ _
  have hcorrect := Device.session_correct _ _ _ (fun _ => rfl) (oneAtATime_schedule hask) scheduledRows.ops
    (session_schedule hask le_rfl) disciplined_schedule
  refine ⟨rfl, fun a ha => ?_⟩
  have hread : scheduledRows.result a = _ := hcorrect.2.2.2.2.1 a ⟨Nat.zero_le _, ha⟩
  rw [hread]
  exact congrFun (multiplying_eq scheduledRows (c := initial _) rfl).2 a

omit hask in
theorem main_example :
    (∀ i j : Fin matrixSize, scheduledRows.finalResult (i * matrixSize + j) =
      matrixMultiply (Coprocessor.matrixOf rows) (Machine.mirrorColumns (Coprocessor.matrixOf rows)) i j) ∧
    scheduledRows.polls.length ≤ cycles shipped := by
  have hask : 1027 ≤ 1027 + cycles shipped := Nat.le_add_right _ _
  obtain ⟨hends, -⟩ := main_correct _ _ _ (fun _ => rfl) (oneAtATime_schedule hask) [] trivial rfl
  exact hends scheduledRows _ (session_schedule hask le_rfl)

end Schedule

end EmbeddedAccelerator.Host
