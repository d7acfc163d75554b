import EmbeddedAccelerator.Xdma.Submissions

/-!
The queue of an engine (`libxdma.c`): `transfer_queue` appends transfers to it and starts an idle engine, and
`engine_service` takes those out with which the engine is done.
-/

namespace EmbeddedAccelerator.Xdma

open Copying (Move)

def statBusy : BitVec 32 := 1#32 <<< 0
def statAlignMismatch : BitVec 32 := 1#32 <<< 3
def statMagicStopped : BitVec 32 := 1#32 <<< 4
def statInvalidLen : BitVec 32 := 1#32 <<< 5
def statCommonErrMask : BitVec 32 := statAlignMismatch ||| statMagicStopped ||| statInvalidLen
def statDescErrMask : BitVec 32 := 0x1F#32 <<< 19
def statH2cRErrMask : BitVec 32 := 0x1F#32 <<< 9
def statH2cWErrMask : BitVec 32 := 0x3#32 <<< 14
def statC2hRErrMask : BitVec 32 := 0x3#32 <<< 9
def statH2cErrMask : BitVec 32 := statCommonErrMask ||| statDescErrMask ||| statH2cRErrMask ||| statH2cWErrMask
def statC2hErrMask : BitVec 32 := statCommonErrMask ||| statDescErrMask ||| statC2hRErrMask
def wbCountMask : BitVec 32 := 0x00ffffff
def wbErrMask : BitVec 32 := 1#32 <<< 31
def rxStatusEop : BitVec 32 := 1
def engineShutdownRequest : BitVec 32 := 1
def engineShutdownIdle : BitVec 32 := 2

/-- The error bits of the status register. -/
def Engine.errMask (e : Engine) : BitVec 32 :=
  match e.dir with
  | .toDevice => statH2cErrMask
  | .fromDevice => statC2hErrMask

inductive TransferState where
  | new | submitted | completed | failed | aborted
  deriving DecidableEq, Repr

/-- A transfer in the queue, with the copies that its descriptors ask for. -/
structure Xfer where
  chain : List (Move Addr Addr)
  descNum : BitVec 32
  state : TransferState
  descCmpl : BitVec 32
  cyclic : Bool
  eopRcved : Bool

/-- The engine itself: the transfer that it has been started with, the registers that the driver reads,
the results it writes back for a stream, and the memories. -/
structure Hw where
  first : ℕ
  chain : List (Move Addr Addr)
  busy : Bool
  flags : BitVec 32
  completedDescCount : ℕ
  results : ℕ → BitVec 32
  mem : Memory

namespace Hw

variable (hw : Hw)

def status : BitVec 32 := if hw.busy then hw.flags ||| statBusy else hw.flags &&& ~~~statBusy

def start (p : ℕ) (chain : List (Move Addr Addr)) : Hw :=
  { hw with first := p, chain := chain, busy := true, flags := 0, completedDescCount := 0 }

def stop : Hw := { hw with busy := false }

/-- What a read of `status_rc` leaves behind. -/
def clear : Hw := { hw with flags := 0 }

def advance (dir : Dir) : Hw :=
  { hw with
    mem := hw.mem.execAll dir ((hw.chain.drop hw.completedDescCount).take 1)
    completedDescCount := hw.completedDescCount + 1 }

/-- What has been done of the next descriptor. -/
def begun (bytes : ℕ) : List (Move Addr Addr) :=
  ((hw.chain.drop hw.completedDescCount).take 1).map fun x => { x with len := min bytes x.len }

def halt (dir : Dir) (bytes : ℕ) (flags : BitVec 32) : Hw :=
  { hw with busy := false, flags := flags, mem := hw.mem.execAll dir (hw.begun bytes) }

end Hw

/-- What the lock of `struct xdma_engine` protects; transfers are known by their addresses. -/
structure EngineQueue where
  running : Bool
  shutdown : BitVec 32
  status : BitVec 32
  descDequeued : BitVec 32
  transferList : List ℕ
  xfer : ℕ → Xfer
  hw : Hw

namespace EngineQueue

variable (e : Engine) (q : EngineQueue)

def setXfer (p : ℕ) (f : Xfer → Xfer) : EngineQueue := { q with xfer := Function.update q.xfer p (f (q.xfer p)) }

def setState (p : ℕ) (state : TransferState) : EngineQueue := q.setXfer p fun x => { x with state := state }

def engineStatusRead (clear : Bool) : EngineQueue :=
  { q with status := q.hw.status, hw := if clear then q.hw.clear else q.hw }

def engineStop : EngineQueue := { q with running := false, hw := q.hw.stop }

def engineStart : Option EngineQueue :=
  if q.running then none
  else
    match q.transferList with
    | [] => none
    | p :: _ =>
      let q := { q with shutdown := 0, descDequeued := 0, hw := q.hw.start p (q.xfer p).chain }
      some { q.engineStatusRead false with running := true }

def transferQueue (offline : Bool) (p : ℕ) : ℤ × EngineQueue :=
  if (q.xfer p).descNum = 0 then (-einval, q)
  else if offline then (-ebusy, q)
  else if q.shutdown &&& engineShutdownRequest ≠ 0 then (-ebusy, q)
  else
    let q := { q.setState p .submitted with transferList := q.transferList ++ [p] }
    if q.running then (0, q) else (0, q.engineStart.getD q)

/-- The transfers that the engine has passed, except for the last; `n` is `*pdesc_completed`. -/
def engineServiceTransferList : List ℕ → BitVec 32 → EngineQueue → BitVec 32 × EngineQueue
  | [], n, q => (n, q)
  | p :: ps, n, q =>
    if (q.xfer p).cyclic = false ∧ n > (q.xfer p).descNum then
      engineServiceTransferList ps (n - (q.xfer p).descNum)
        { q.setState p .completed with
          transferList := ps
          descDequeued := q.descDequeued + (q.xfer p).descNum }
    else (n, q)

def engineErrHandle (p : ℕ) : EngineQueue := (q.setState p .failed).engineStop

/-- The transfer with which the engine has stopped. -/
def engineServiceFinalTransfer (n : BitVec 32) : EngineQueue :=
  match q.transferList with
  | [] => q
  | p :: ps =>
    let x := q.xfer p
    if q.status &&& e.errMask ≠ 0 then { q.engineErrHandle p with transferList := ps }
    else if n < x.descNum then
      if e.eopFlush then
        let rcved := x.eopRcved || (List.range n.toNat).any fun i => q.hw.results i &&& rxStatusEop ≠ 0
        let q := q.setXfer p fun x => { x with eopRcved := rcved, descCmpl := x.descCmpl + n }
        if rcved then
          { (q.engineStop).setState p .completed with
            transferList := ps
            descDequeued := q.descDequeued + (x.descCmpl + n) }
        else q
      else
        { q.setXfer p fun x => { x with state := .failed, descCmpl := n } with
          transferList := ps
          descDequeued := q.descDequeued + x.descNum }
    else
      { q.setXfer p fun x => { x with state := .completed, descCmpl := x.descNum } with
        transferList := ps
        descDequeued := q.descDequeued + x.descNum }

def engineServiceResume : EngineQueue :=
  if q.running then if q.transferList = [] then q.engineStop else q
  else if q.transferList = [] then
    if q.shutdown &&& engineShutdownRequest ≠ 0 then { q with shutdown := q.shutdown ||| engineShutdownIdle } else q
  else q.engineStart.getD q

def engineService (descWriteback : BitVec 32) : ℤ × EngineQueue :=
  let descCount := descWriteback &&& wbCountMask
  let errFlag := descWriteback &&& wbErrMask
  if q.running then
    let q := if descCount = 0 ∨ errFlag ≠ 0 then q.engineStatusRead true else q
    let q := if (q.running ∧ q.status &&& statBusy = 0) ∨ (e.eopFlush = false ∧ descCount ≠ 0) then q.engineStop else q
    let descCount := if descCount = 0 then BitVec.ofNat 32 q.hw.completedDescCount else descCount
    let rv := if errFlag ≠ 0 then -1 else 0
    if descCount = 0 then (rv, q)
    else
      let r := engineServiceTransferList q.transferList (descCount - q.descDequeued) q
      let q := r.2.engineServiceFinalTransfer e r.1
      (rv, if e.eopFlush then q else q.engineServiceResume)
  else (0, q.engineStatusRead true)

def engineServiceWork : EngineQueue := (q.engineService e 0).2

def transferAbort (p : ℕ) : ℤ × EngineQueue :=
  if (q.xfer p).descNum = 0 then (-einval, q)
  else
    let q := if q.transferList.head? = some p then { q with transferList := q.transferList.tail } else q
    (0, if (q.xfer p).state = .submitted then q.setState p .aborted else q)

/-- What `xdma_xfer_submit` does about a transfer for which it does not wait any longer. -/
def giveUp (p : ℕ) : EngineQueue :=
  let r := (q.engineStatusRead false).transferAbort p
  if r.1 = 0 then r.2.engineStop else r.2

end EngineQueue

/-- As `transfer_init` makes it. -/
structure Xfer.Sound (x : Xfer) : Prop where
  pos : 0 < x.chain.length
  lt : x.chain.length < 2 ^ 32
  descNum : x.descNum = BitVec.ofNat 32 x.chain.length
  cyclic : x.cyclic = false

theorem descNum_ne_zero {x : Xfer} (h : x.Sound) : x.descNum ≠ 0 := by
  intro hzero
  have hnat := congrArg BitVec.toNat (h.descNum.symm.trans hzero)
  rw [BitVec.toNat_ofNat, Nat.mod_eq_of_lt h.lt] at hnat
  exact h.pos.ne' hnat

namespace EngineQueue

variable {e : Engine} {q : EngineQueue}

section Service

theorem status_of_not_busy {hw : Hw} (h : hw.busy = false) : hw.status &&& statBusy = 0 := by
  have hzero : ~~~statBusy &&& statBusy = 0 := by decide
  rw [Hw.status, h, if_neg Bool.false_ne_true, BitVec.and_assoc, hzero]
  exact BitVec.and_zero

theorem stop_of_not_busy {hw : Hw} (h : hw.busy = false) : hw.stop = hw := by
  rw [Hw.stop, ← h]

theorem engineServiceWork_of_not_running (h : q.running = false) : q.engineServiceWork e = q.engineStatusRead true := by
  simp [engineServiceWork, engineService, h]

theorem engineServiceWork_of_running (hr : q.running = true) (hb : q.hw.busy = false) :
    q.engineServiceWork e =
      let q := (q.engineStatusRead true).engineStop
      let n := BitVec.ofNat 32 q.hw.completedDescCount
      if n = 0 then q
      else
        let r := engineServiceTransferList q.transferList (n - q.descDequeued) q
        let q := r.2.engineServiceFinalTransfer e r.1
        if e.eopFlush then q else q.engineServiceResume := by
  have hstatus : q.hw.status &&& statBusy = 0 := status_of_not_busy hb
  have hcount : (0 : BitVec 32) &&& wbCountMask = 0 := BitVec.zero_and
  have herr : (0 : BitVec 32) &&& wbErrMask = 0 := BitVec.zero_and
  simp only [engineServiceWork, engineService, hr, hcount, herr, if_true, true_or, engineStatusRead, hstatus, and_true]
  split_ifs <;> rfl

/-- Transfer `p` leaves the queue, and has been completed if `ok`. -/
structure Retires (q q' : EngineQueue) (p : ℕ) (ps : List ℕ) (ok : Prop) : Prop where
  transferList : q'.transferList = ps
  running : q'.running = false
  shutdown : q'.shutdown = q.shutdown
  hw : q'.hw = q.hw
  xfer : ∃ y : Xfer, q'.xfer = Function.update q.xfer p y ∧ y.chain = (q.xfer p).chain ∧
    (y.state = .completed ∧ ok ∨ y.state = .failed ∧ ¬ ok)

variable {p : ℕ} {ps : List ℕ}

theorem retires_final (heop : e.eopFlush = false) (hr : q.running = false) (hb : q.hw.busy = false)
    (hlist : q.transferList = p :: ps) (n : BitVec 32) :
    Retires q (q.engineServiceFinalTransfer e n) p ps (q.status &&& e.errMask = 0 ∧ ¬ n < (q.xfer p).descNum) := by
  simp only [engineServiceFinalTransfer, hlist, heop, Bool.false_eq_true, if_false]
  split_ifs with herr hshort
  · exact ⟨rfl, rfl, rfl, stop_of_not_busy hb, _, rfl, rfl, .inr ⟨rfl, fun h => herr h.1⟩⟩
  · exact ⟨rfl, hr, rfl, rfl, _, rfl, rfl, .inr ⟨rfl, fun h => h.2 hshort⟩⟩
  · exact ⟨rfl, hr, rfl, rfl, _, rfl, rfl, .inl ⟨rfl, not_not.mp herr, hshort⟩⟩

theorem ofNat_lt_iff {m n : ℕ} (hm : m < 2 ^ 32) (hn : n < 2 ^ 32) :
    BitVec.ofNat 32 m < BitVec.ofNat 32 n ↔ m < n := by
  rw [BitVec.lt_def, BitVec.toNat_ofNat, BitVec.toNat_ofNat, Nat.mod_eq_of_lt hm, Nat.mod_eq_of_lt hn]

theorem ofNat_ne_zero {n : ℕ} (hpos : 0 < n) (hlt : n < 2 ^ 32) : BitVec.ofNat 32 n ≠ 0 := by
  intro h
  have hnat := congrArg BitVec.toNat h
  rw [BitVec.toNat_ofNat, Nat.mod_eq_of_lt hlt] at hnat
  exact hpos.ne' hnat

theorem engineServiceTransferList_of_le (hlist : q.transferList = p :: ps) (hx : (q.xfer p).Sound)
    (hdeq : q.descDequeued = 0) {n : ℕ} (hle : n ≤ (q.xfer p).chain.length) :
    engineServiceTransferList q.transferList (BitVec.ofNat 32 n - q.descDequeued) q = (BitVec.ofNat 32 n, q) := by
  have hlt := hx.lt
  have hsub : BitVec.ofNat 32 n - q.descDequeued = BitVec.ofNat 32 n := by
    rw [hdeq]
    exact BitVec.sub_zero _
  have hnot : ¬ BitVec.ofNat 32 n > (q.xfer p).descNum := by
    rw [hx.descNum, gt_iff_lt, ofNat_lt_iff hlt (by omega)]
    omega
  rw [hsub, hlist]
  exact if_neg fun hn => hnot hn.2

section Stopped

variable (heop : e.eopFlush = false) (hr : q.running = true) (hb : q.hw.busy = false)
  (hlist : q.transferList = p :: ps) (hx : (q.xfer p).Sound)
include hr hb

theorem service_zero (hzero : q.hw.completedDescCount = 0) :
    q.engineServiceWork e = (q.engineStatusRead true).engineStop := by
  rw [engineServiceWork_of_running hr hb]
  exact if_pos (congrArg (BitVec.ofNat 32) hzero)

include heop hlist hx

theorem service_retires (hdeq : q.descDequeued = 0) (hpos : 0 < q.hw.completedDescCount)
    (hle : q.hw.completedDescCount ≤ (q.xfer p).chain.length) :
    ∃ q', q.engineServiceWork e = q'.engineServiceResume ∧
      Retires { q with hw := q.hw.clear } q' p ps
        (q.hw.status &&& e.errMask = 0 ∧ q.hw.completedDescCount = (q.xfer p).chain.length) := by
  have hlt := hx.lt
  have hnum := hx.descNum
  let q₁ := (q.engineStatusRead true).engineStop
  have hhw : q₁.hw = q.hw.clear := stop_of_not_busy hb
  have hn : BitVec.ofNat 32 q.hw.completedDescCount ≠ 0 := ofNat_ne_zero hpos (by omega)
  have hpassed : engineServiceTransferList q₁.transferList (BitVec.ofNat 32 q.hw.completedDescCount - q₁.descDequeued) q₁ =
      (BitVec.ofNat 32 q.hw.completedDescCount, q₁) := engineServiceTransferList_of_le (q := q₁) hlist hx hdeq hle
  refine ⟨q₁.engineServiceFinalTransfer e (BitVec.ofNat 32 q.hw.completedDescCount), ?_, ?_⟩
  · rw [engineServiceWork_of_running hr hb]
    simp only [heop, Bool.false_eq_true, if_false]
    exact (if_neg hn).trans (congrArg (fun r => (r.2.engineServiceFinalTransfer e r.1).engineServiceResume) hpassed)
  · have h := retires_final heop (q := q₁) rfl (by rw [hhw]; exact hb) hlist (BitVec.ofNat 32 q.hw.completedDescCount)
    have hok : (q₁.status &&& e.errMask = 0 ∧ ¬ BitVec.ofNat 32 q.hw.completedDescCount < (q₁.xfer p).descNum) ↔
        q.hw.status &&& e.errMask = 0 ∧ q.hw.completedDescCount = (q.xfer p).chain.length := by
      change (q.hw.status &&& e.errMask = 0 ∧ ¬ BitVec.ofNat 32 q.hw.completedDescCount < (q.xfer p).descNum) ↔ _
      rw [hnum, ofNat_lt_iff (by omega) hlt]
      exact and_congr_right' ⟨fun h => by omega, fun h => by omega⟩
    rw [hok] at h
    exact ⟨h.transferList, h.running, h.shutdown, h.hw.trans hhw, h.xfer⟩

end Stopped

end Service

section Start

theorem engineStart_cons {p : ℕ} {ps : List ℕ} (hr : q.running = false) (hlist : q.transferList = p :: ps) :
    q.engineStart = some
      { q with
        running := true
        shutdown := 0
        status := (q.hw.start p (q.xfer p).chain).status
        descDequeued := 0
        hw := q.hw.start p (q.xfer p).chain } := by
  rw [engineStart, hr, if_neg Bool.false_ne_true, hlist]
  rfl

theorem engineServiceResume_nil (hr : q.running = false) (hs : q.shutdown = 0) (hlist : q.transferList = []) :
    q.engineServiceResume = q := by
  have hrequest : (0 : BitVec 32) &&& engineShutdownRequest = 0 := BitVec.zero_and
  rw [engineServiceResume, hr, if_neg Bool.false_ne_true, if_pos hlist, hs, hrequest, if_neg (not_not.mpr rfl)]

theorem engineServiceResume_cons {p : ℕ} {ps : List ℕ} (hr : q.running = false) (hlist : q.transferList = p :: ps) :
    q.engineServiceResume = q.engineStart.getD q := by
  rw [engineServiceResume, hr, if_neg Bool.false_ne_true, if_neg (by rw [hlist]; exact List.cons_ne_nil p ps)]

theorem engineStart_frame (q : EngineQueue) : (q.engineStart.getD q).transferList = q.transferList ∧
    (q.engineStart.getD q).xfer = q.xfer ∧ (q.engineStart.getD q).hw.mem = q.hw.mem := by
  cases hr : q.running with
  | true =>
    rw [engineStart, if_pos hr]
    exact ⟨rfl, rfl, rfl⟩
  | false =>
    cases hlist : q.transferList with
    | nil =>
      rw [engineStart, hr, if_neg Bool.false_ne_true, hlist]
      exact ⟨hlist, rfl, rfl⟩
    | cons p ps =>
      rw [engineStart_cons hr hlist]
      exact ⟨hlist, rfl, rfl⟩

end Start

theorem giveUp_eq {p : ℕ} (hx : (q.xfer p).Sound) (hstate : (q.xfer p).state = .submitted) :
    q.giveUp p =
      { q with
        running := false
        status := q.hw.status
        transferList := if q.transferList.head? = some p then q.transferList.tail else q.transferList
        xfer := Function.update q.xfer p { q.xfer p with state := .aborted }
        hw := q.hw.stop } := by
  let q' := q.engineStatusRead false
  have hnum : ¬ (q'.xfer p).descNum = 0 := descNum_ne_zero hx
  have habort : q'.transferAbort p =
      (0, { q' with
        transferList := if q.transferList.head? = some p then q.transferList.tail else q.transferList
        xfer := Function.update q.xfer p { q.xfer p with state := .aborted } }) := by
    rw [transferAbort, if_neg hnum]
    by_cases hhead : q'.transferList.head? = some p
    · rw [if_pos hhead, if_pos (show q.transferList.head? = some p from hhead)]
      exact congrArg (Prod.mk 0) (if_pos hstate)
    · rw [if_neg hhead, if_neg (show ¬ q.transferList.head? = some p from hhead)]
      exact congrArg (Prod.mk 0) (if_pos hstate)
  change (if (q'.transferAbort p).1 = 0 then (q'.transferAbort p).2.engineStop else (q'.transferAbort p).2) = _
  rw [habort]
  rfl

/-- The queue with transfer `p` at its end, as it is when the engine is looked at. -/
def listed (p : ℕ) (x : Xfer) : EngineQueue :=
  { q with
    xfer := Function.update q.xfer p { x with state := .submitted }
    transferList := q.transferList ++ [p] }

end EngineQueue

end EmbeddedAccelerator.Xdma
