import EmbeddedAccelerator.Xdma.Queues

/-!
An interrupt that is served only after the engine has been started again. `queue_correct` leaves it out: it takes
transfers from the queue with which the engine is not done.
-/

namespace EmbeddedAccelerator.Xdma

open Clocked (Path)

namespace EngineQueue

variable {e : Engine} {q : EngineQueue} {p r : ℕ} {rs : List ℕ}

theorem status_of_busy {hw : Hw} (h : hw.busy = true) : hw.status &&& statBusy ≠ 0 := by
  rw [Hw.status, if_pos h]
  intro hzero
  have hbit := congrArg (BitVec.getLsbD · 0) hzero
  simp [statBusy] at hbit

theorem engineServiceWork_of_busy (heop : e.eopFlush = false) (hr : q.running = true) (hb : q.hw.busy = true)
    (hn : BitVec.ofNat 32 q.hw.completedDescCount ≠ 0) :
    q.engineServiceWork e =
      let q := q.engineStatusRead true
      let n := BitVec.ofNat 32 q.hw.completedDescCount
      let r := engineServiceTransferList q.transferList (n - q.descDequeued) q
      (r.2.engineServiceFinalTransfer e r.1).engineServiceResume := by
  have hstatus : q.hw.status &&& statBusy ≠ 0 := status_of_busy hb
  have hcount : (0 : BitVec 32) &&& wbCountMask = 0 := BitVec.zero_and
  have herr : (0 : BitVec 32) &&& wbErrMask = 0 := BitVec.zero_and
  have hn' : BitVec.ofNat 32 q.hw.clear.completedDescCount ≠ 0 := hn
  simp only [engineServiceWork, engineService, hr, hcount, herr, if_true, true_or, engineStatusRead, hstatus, and_false,
    ne_eq, not_true_eq_false, or_self, if_false, heop, Bool.false_eq_true, hn']

/-- The queue after the driver has marked its first transfer failed and taken it out. -/
def givenUp (q : EngineQueue) (p : ℕ) (ps : List ℕ) : EngineQueue :=
  { q with
    status := q.hw.status
    descDequeued := (q.xfer p).descNum
    transferList := ps
    xfer := Function.update q.xfer p
      { q.xfer p with state := .failed, descCmpl := BitVec.ofNat 32 q.hw.completedDescCount }
    hw := q.hw.clear }

theorem givenUp_xfer (ps : List ℕ) {r : ℕ} (hr : r ≠ p) : (q.givenUp p ps).xfer r = q.xfer r :=
  Function.update_of_ne hr _ _

theorem givenUp_state (ps : List ℕ) : ((q.givenUp p ps).xfer p).state = .failed :=
  congrArg Xfer.state (Function.update_self p _ q.xfer)

/-- The engine is within its transfer, and goes on; the driver takes the transfer for one that has stopped half-way. -/
theorem service_half_way (heop : e.eopFlush = false) (hr : q.running = true) (hb : q.hw.busy = true)
    (hlist : q.transferList = p :: r :: rs) (hx : (q.xfer p).Sound) (hdeq : q.descDequeued = 0)
    (hstatus : q.hw.status &&& e.errMask = 0) (hpos : 0 < q.hw.completedDescCount)
    (hlt : q.hw.completedDescCount < (q.xfer p).chain.length) :
    q.engineServiceWork e = q.givenUp p (r :: rs) := by
  have hxlt := hx.lt
  let q₁ := q.engineStatusRead true
  have hshort : BitVec.ofNat 32 q.hw.completedDescCount < (q.xfer p).descNum := by
    rw [hx.descNum, ofNat_lt_iff (by omega) hxlt]
    exact hlt
  have hpassed : engineServiceTransferList q₁.transferList (BitVec.ofNat 32 q.hw.completedDescCount - q₁.descDequeued) q₁ =
      (BitVec.ofNat 32 q.hw.completedDescCount, q₁) := engineServiceTransferList_of_le (q := q₁) hlist hx hdeq hlt.le
  have hfinal : q₁.engineServiceFinalTransfer e (BitVec.ofNat 32 q.hw.completedDescCount) =
      { q₁.setXfer p fun x => { x with state := .failed, descCmpl := BitVec.ofNat 32 q.hw.completedDescCount } with
        transferList := r :: rs
        descDequeued := q.descDequeued + (q.xfer p).descNum } := by
    have hlist₁ : q₁.transferList = p :: r :: rs := hlist
    have herr : ¬ q₁.status &&& e.errMask ≠ 0 := not_not.mpr hstatus
    rw [EngineQueue.engineServiceFinalTransfer, hlist₁]
    exact (if_neg herr).trans ((if_pos hshort).trans (if_neg (by rw [heop]; exact Bool.false_ne_true)))
  have hcount : (0 : BitVec 32) + (q.xfer p).descNum = (q.xfer p).descNum := BitVec.zero_add _
  rw [engineServiceWork_of_busy heop hr hb (ofNat_ne_zero hpos (by omega))]
  refine (congrArg (fun r => (r.2.engineServiceFinalTransfer e r.1).engineServiceResume) hpassed).trans ?_
  change (q₁.engineServiceFinalTransfer e _).engineServiceResume = _
  rw [hfinal, hdeq, hcount, engineServiceResume]
  exact (if_pos hr).trans (if_neg (List.cons_ne_nil r rs))

theorem engineServiceTransferList_all {ps : List ℕ} {n : BitVec 32} (hlist : q.transferList = ps)
    (hx : ∀ p ∈ ps, (q.xfer p).Sound) (hn : (ps.map fun p => (q.xfer p).chain.length).sum < n.toNat) :
    let q' := (engineServiceTransferList ps n q).2
    q'.transferList = [] ∧ q'.running = q.running ∧ q'.hw = q.hw ∧
      ∀ r, q'.xfer r = if r ∈ ps then { q.xfer r with state := .completed } else q.xfer r := by
  induction ps generalizing q n with
  | nil => exact ⟨hlist, rfl, rfl, fun r => rfl⟩
  | cons p ps ih =>
    have hp := hx p List.mem_cons_self
    have hplt := hp.lt
    have hnum : (q.xfer p).descNum.toNat = (q.xfer p).chain.length := by
      rw [hp.descNum, BitVec.toNat_ofNat, Nat.mod_eq_of_lt hplt]
    rw [List.map_cons, List.sum_cons] at hn
    have hgt : n > (q.xfer p).descNum := by
      rw [gt_iff_lt, BitVec.lt_def, hnum]
      omega
    let q₁ : EngineQueue :=
      { q.setState p .completed with transferList := ps, descDequeued := q.descDequeued + (q.xfer p).descNum }
    have hstep : engineServiceTransferList (p :: ps) n q = engineServiceTransferList ps (n - (q.xfer p).descNum) q₁ :=
      if_pos ⟨hp.cyclic, hgt⟩
    have hxfer (r : ℕ) : q₁.xfer r = if r = p then { q.xfer r with state := .completed } else q.xfer r := by
      by_cases hr : r = p
      · rw [if_pos hr, hr]
        exact Function.update_self _ _ _
      · rw [if_neg hr]
        exact Function.update_of_ne hr _ _
    have hchain (r : ℕ) : (q₁.xfer r).chain = (q.xfer r).chain := by
      rw [hxfer]
      split_ifs <;> rfl
    have hsound (r : ℕ) (hr : (q.xfer r).Sound) : (q₁.xfer r).Sound := by
      rw [hxfer]
      split_ifs
      · exact ⟨hr.pos, hr.lt, hr.descNum, hr.cyclic⟩
      · exact hr
    have hsub : (n - (q.xfer p).descNum).toNat = n.toNat - (q.xfer p).chain.length := by
      rw [BitVec.toNat_sub_of_le (BitVec.le_of_lt hgt), hnum]
    obtain ⟨h1, h2, h3, h4⟩ := ih (q := q₁) (n := n - (q.xfer p).descNum) rfl
      (fun r hr => hsound r (hx r (List.mem_cons_of_mem p hr))) (by
        rw [hsub]
        simp only [hchain]
        omega)
    rw [hstep]
    refine ⟨h1, h2, h3, fun r => ?_⟩
    rw [h4, hxfer]
    by_cases hr : r = p <;> by_cases hrs : r ∈ ps <;> simp [hr, hrs]

/-- The count has gone below zero: the driver takes all transfers for completed. -/
theorem service_overtakes (heop : e.eopFlush = false) (hr : q.running = true) (hb : q.hw.busy = true)
    (hx : ∀ p ∈ q.transferList, (q.xfer p).Sound) (hn : BitVec.ofNat 32 q.hw.completedDescCount ≠ 0)
    (hsum : (q.transferList.map fun p => (q.xfer p).chain.length).sum <
      (BitVec.ofNat 32 q.hw.completedDescCount - q.descDequeued).toNat) :
    (q.engineServiceWork e).transferList = [] ∧ ∀ r, (q.engineServiceWork e).xfer r =
      if r ∈ q.transferList then { q.xfer r with state := .completed } else q.xfer r := by
  let q₁ := q.engineStatusRead true
  let n := BitVec.ofNat 32 q.hw.completedDescCount - q.descDequeued
  obtain ⟨hnil, hrun, -, hxfer⟩ := engineServiceTransferList_all (q := q₁) (n := n) rfl hx hsum
  have hfinal (q' : EngineQueue) (m : BitVec 32) (h : q'.transferList = []) : q'.engineServiceFinalTransfer e m = q' := by
    rw [engineServiceFinalTransfer, h]
  have hresume (q' : EngineQueue) (h : q'.transferList = []) (h' : q'.running = true) :
      q'.engineServiceResume = q'.engineStop := by
    rw [engineServiceResume, if_pos h', if_pos h]
  have hwork : q.engineServiceWork e = (engineServiceTransferList q.transferList n q₁).2.engineStop := by
    rw [engineServiceWork_of_busy heop hr hb hn]
    refine (congrArg engineServiceResume (hfinal _ _ hnil)).trans ?_
    exact hresume _ hnil (hrun.trans hr)
  rw [hwork]
  exact ⟨hnil, hxfer⟩

theorem givenUp_overtaken (heop : e.eopFlush = false) (hr : q.running = true) {ps : List ℕ} {hw : Hw}
    (hb : hw.busy = true) (hp : p ∉ ps) (hx : ∀ s ∈ p :: ps, (q.xfer s).Sound) (hpos : 0 < hw.completedDescCount)
    (hlt : hw.completedDescCount < (q.xfer p).chain.length)
    (hfits : ((p :: ps).map fun p => (q.xfer p).chain.length).sum < 2 ^ 32) :
    let q' := ({ q.givenUp p ps with hw := hw } : EngineQueue).engineServiceWork e
    q'.transferList = [] ∧ (q'.xfer p).state = .failed ∧ ∀ s ∈ ps, (q'.xfer s).state = .completed := by
  let q₁ : EngineQueue := { q.givenUp p ps with hw := hw }
  have hp' := hx p List.mem_cons_self
  have hnum : (q.xfer p).descNum.toNat = (q.xfer p).chain.length := by
    rw [hp'.descNum, BitVec.toNat_ofNat, Nat.mod_eq_of_lt hp'.lt]
  have hlist : q₁.transferList = ps := rfl
  have hxfer (s : ℕ) (hs : s ∈ ps) : q₁.xfer s = q.xfer s := givenUp_xfer ps fun heq => hp (heq ▸ hs)
  have hsound (s : ℕ) (hs : s ∈ q₁.transferList) : (q₁.xfer s).Sound := by
    rw [hxfer s hs]
    exact hx s (List.mem_cons_of_mem p hs)
  have hlength : (q₁.transferList.map fun s => (q₁.xfer s).chain.length) = ps.map fun s => (q.xfer s).chain.length := by
    apply List.map_congr_left
    intro s hs
    rw [hxfer s hs]
  rw [List.map_cons, List.sum_cons] at hfits
  -- the count less what has been taken for the transfer is below zero, and so larger than all that is left
  have hbelow : (q₁.transferList.map fun s => (q₁.xfer s).chain.length).sum <
      (BitVec.ofNat 32 hw.completedDescCount - q₁.descDequeued).toNat := by
    have hdeq : q₁.descDequeued = (q.xfer p).descNum := rfl
    rw [hlength, hdeq, BitVec.toNat_sub, BitVec.toNat_ofNat, hnum]
    omega
  have hne : BitVec.ofNat 32 hw.completedDescCount ≠ 0 := ofNat_ne_zero hpos (by omega)
  obtain ⟨hnil, hall⟩ := service_overtakes (q := q₁) heop hr hb hsound hne hbelow
  refine ⟨hnil, ?_, fun s hs => ?_⟩
  · rw [hall p, hlist, if_neg hp]
    exact givenUp_state ps
  · rw [hall s, hlist, if_pos hs]

end EngineQueue

/-- What stays while the engine goes on with transfer `p`. -/
structure Onward (v w : World) (p : ℕ) : Prop where
  queue : w.queue = { v.queue with hw := w.queue.hw }
  busy : w.queue.hw.busy = true
  first : w.queue.hw.first = p
  chain : w.queue.hw.chain = v.queue.hw.chain
  le : v.queue.hw.completedDescCount ≤ w.queue.hw.completedDescCount
  made : ∀ r ≠ p, w.made r = v.made r

theorem Onward.advance {e : Engine} {v w w' : World} {p : ℕ} (h : Onward v w p) (hs : Step e w .advance w') :
    Onward v w' p := by
  obtain ⟨-, rfl⟩ := hs
  refine ⟨?_, h.busy, h.first, h.chain, h.le.trans (Nat.le_succ _), ?_⟩
  · exact congrArg (fun q : EngineQueue => { q with hw := w.queue.hw.advance e.dir }) h.queue
  · intro r hr
    change Function.update w.made w.queue.hw.first _ r = _
    rw [h.first, Function.update_of_ne hr]
    exact h.made r hr

theorem Onward.path {e : Engine} {v w w' : World} {p : ℕ} {es : List Event} (h : Onward v w p)
    (h' : Path (fun s ev t => ev = .advance ∧ Step e s ev t) w es w') : Onward v w' p := by
  refine h'.invariant (p := fun t => Onward v t p) ?_ h
  rintro s ev t hs ⟨rfl, hst⟩
  exact hs.advance hst

/-- When the interrupt of an earlier start is served while the engine is within a transfer, that transfer is
marked failed, although the engine goes on with it; and when another interrupt is served before it is done, all
transfers behind it are marked completed, although nothing has been copied for them. -/
theorem queue_overtaken (e : Engine) (heop : e.eopFlush = false) (q : EngineQueue) (hq : q.Idle) {es es' : List Event}
    {w w' : World} (h : Path (Step e) (World.start q) es w) {p r : ℕ} {rs : List ℕ}
    (hlist : w.queue.transferList = p :: r :: rs) (hbusy : w.queue.hw.busy = true)
    (hstatus : w.queue.hw.status &&& e.errMask = 0) (hpos : 0 < w.queue.hw.completedDescCount)
    (hlt : w.queue.hw.completedDescCount < w.queue.hw.chain.length)
    (h' : Path (fun s ev t => ev = .advance ∧ Step e s ev t) (w.next e .service) es' w')
    (hleft : w'.queue.hw.completedDescCount < w'.queue.hw.chain.length)
    (hfits : ((p :: r :: rs).map fun p => (w.queue.xfer p).chain.length).sum < 2 ^ 32) :
    (w'.queue.xfer p).state = .failed ∧ w'.queue.hw.busy = true ∧ w'.queue.transferList = r :: rs ∧
      (w'.next e .service).queue.transferList = [] ∧
      ((w'.next e .service).queue.xfer p).state = .failed ∧
      ∀ s ∈ r :: rs, ((w'.next e .service).queue.xfer s).state = .completed ∧ (w'.next e .service).made s = [] := by
  have hinv := Inv.path heop hq h
  have hbooks := hinv.books
  obtain ⟨p', ps, before, hwork, -⟩ := hinv.working hbusy
  obtain ⟨rfl, rfl⟩ := List.cons.inj (hlist.symm.trans hwork.transferList)
  have hsound (s : ℕ) (hs : s ∈ p :: r :: rs) : (w.queue.xfer s).Sound := hbooks.sound s (by rw [hlist]; exact hs)
  rw [World.Books, hlist] at hbooks
  obtain ⟨hp, huntouched⟩ := hbooks.head
  have hv : (w.next e .service).queue = w.queue.givenUp p (r :: rs) :=
    EngineQueue.service_half_way heop hwork.running hbusy hlist (hsound p List.mem_cons_self) hwork.descDequeued
      hstatus hpos (hwork.chain ▸ hlt)
  have hstart : Onward (w.next e .service) (w.next e .service) p := by
    refine ⟨rfl, ?_, ?_, rfl, le_rfl, fun _ _ => rfl⟩
    · rw [hv]
      exact hbusy
    · rw [hv]
      exact hwork.first
  have hgone := hstart.path h'
  have hqueue := hgone.queue
  have hchain := hgone.chain
  have hle := hgone.le
  rw [hv] at hqueue hchain hle
  have hcount : 0 < w'.queue.hw.completedDescCount := hpos.trans_le hle
  have hleft' : w'.queue.hw.completedDescCount < (w.queue.xfer p).chain.length := by
    rw [← hwork.chain]
    exact hleft.trans_eq (congrArg List.length hchain)
  obtain ⟨hnil, hfailed, hcompleted⟩ :=
    EngineQueue.givenUp_overtaken (e := e) heop hwork.running hgone.busy hp hsound hcount hleft' hfits
  rw [← hqueue] at hnil hfailed hcompleted
  refine ⟨?_, hgone.busy, ?_, hnil, hfailed, fun s hs => ⟨hcompleted s hs, ?_⟩⟩
  · rw [hqueue]
    exact EngineQueue.givenUp_state (r :: rs)
  · rw [hqueue]
    rfl
  · exact (hgone.made s fun heq => hp (heq ▸ hs)).trans (huntouched s hs)

/-- Two transfers are in the queue, and the engine has made the first of two copies for the first one. -/
def halfWayWorld : World :=
  [Event.queue 0 exampleXfer, .queue 1 exampleXfer, .advance].foldl (World.next (exampleEngine .toDevice))
    (.start exampleQueue)

theorem queue_overtaken_example :
    let w := (halfWayWorld.next (exampleEngine .toDevice) .service).next (exampleEngine .toDevice) .service
    (w.queue.xfer 1).state = .completed ∧ w.made 1 = [] := by
  have hpath : Path (Step (exampleEngine .toDevice)) (.start exampleQueue)
      [.queue 0 exampleXfer, .queue 1 exampleXfer, .advance] halfWayWorld := by
    refine .cons ⟨⟨by decide, exampleXfer_sound⟩, rfl⟩ ?_
    refine .cons ⟨⟨by decide, exampleXfer_sound⟩, rfl⟩ ?_
    exact .cons ⟨⟨rfl, by decide⟩, rfl⟩ .nil
  have hlist : halfWayWorld.queue.transferList = [0, 1] := rfl
  obtain ⟨-, -, -, -, -, hrest⟩ := queue_overtaken (exampleEngine .toDevice) rfl exampleQueue ⟨rfl, rfl, rfl, rfl⟩ hpath
    hlist rfl (by decide) (by decide) (by decide) .nil (by decide) (by decide)
  exact hrest 1 (List.mem_singleton_self 1)

end EmbeddedAccelerator.Xdma
