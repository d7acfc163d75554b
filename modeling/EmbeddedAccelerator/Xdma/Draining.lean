import EmbeddedAccelerator.Xdma.Queues

/-!
When the queue of an engine empties: always, if the engine stops only after its last descriptor and without an
error; and not at all after an engine has stopped before its first descriptor was done.
-/

namespace EmbeddedAccelerator.Xdma

open Copying (Move)
open Clocked (Path)

/-- The engine does what it is asked for, and nobody gives up. -/
def World.Healthy (e : Engine) (w : World) : Event → Prop
  | .halt _ flags => w.queue.hw.completedDescCount = w.queue.hw.chain.length ∧ flags &&& e.errMask = 0
  | .giveUp _ => False
  | .queue _ _ | .advance | .service => True

def HealthyStep (e : Engine) (w : World) (ev : Event) (w' : World) : Prop := w.Healthy e ev ∧ Step e w ev w'

/-- The steps that are left when no more transfers are queued. An interrupt of an engine that the driver has
stopped changes nothing. -/
def World.Useful (w : World) : Event → Prop
  | .queue _ _ => False
  | .service => w.queue.running = true
  | .advance | .halt _ _ | .giveUp _ => True

def UsefulStep (e : Engine) (w : World) (ev : Event) (w' : World) : Prop := w.Useful ev ∧ HealthyStep e w ev w'

/-- How many steps are left at most. -/
def World.left (w : World) : ℕ :=
  (w.queue.transferList.tail.map fun p => (w.queue.xfer p).chain.length + 2).sum +
    if w.queue.running then
      if w.queue.hw.busy then w.queue.hw.chain.length - w.queue.hw.completedDescCount + 2 else 1
    else 0

/-- Every transfer is copied at the first attempt. -/
structure Flowing (e : Engine) (mem : Memory) (w : World) : Prop where
  inv : Inv e mem w
  engine : (Resting w.queue ∧ w.queue.transferList = []) ∨ ∃ p ps, Working w.queue (w.made p) p ps [] ∧
    (w.queue.hw.busy = false →
      w.queue.hw.completedDescCount = w.queue.hw.chain.length ∧ w.queue.hw.status &&& e.errMask = 0)
  completed : ∀ p ∈ w.retired, (w.queue.xfer p).state = .completed ∧ w.made p = (w.queue.xfer p).chain

section Flow

variable {e : Engine} {mem : Memory} {w : World} {p : ℕ}

theorem Flowing.append (h : Flowing e mem w) (hfresh : p ∉ w.queued) {x : Xfer} (hx : x.Sound) :
    Flowing e mem (w.append p x) := by
  have hq := queue_append (p := p) hx h.inv.shutdown
  have hbooks := h.inv.books
  refine ⟨h.inv.append hfresh hx, .inr ?_, ?_⟩
  · obtain ⟨hrest, hnil⟩ | ⟨r, rs, hwork, hdone⟩ := h.engine
    · have hempty : w.made p = [] := by
        apply hbooks.untouched
        · exact fun hp => hfresh (hbooks.mem_queued (.inl hp))
        · simp [hnil]
      have hlisted : Resting (w.queue.listed p x) := ⟨hrest.running, hrest.shutdown, hrest.busy⟩
      have hstart : Working ((w.queue.listed p x).engineStart.getD (w.queue.listed p x)) [] p [] [] :=
        hlisted.start (congrArg (· ++ [p]) hnil)
      rw [hrest.running, if_neg Bool.false_ne_true] at hq
      refine ⟨p, [], ?_, ?_⟩
      · change Working _ (w.made p) _ _ _
        rw [hq, hempty]
        exact hstart
      · rw [hq, EngineQueue.engineStart_cons hlisted.running (congrArg (· ++ [p]) hnil)]
        exact fun hb => absurd hb Bool.true_eq_false.mp
    · rw [hwork.running, if_pos rfl] at hq
      refine ⟨r, rs ++ [p], ?_, ?_⟩
      · rw [hq]
        apply hwork.listed
        rintro rfl
        exact hfresh (hbooks.mem_queued (.inr (by simp [hwork.transferList])))
      · rw [hq]
        exact hdone
  · intro r hr
    rw [xfer_append hx h.inv.shutdown, Function.update_of_ne fun heq : r = p => hfresh (heq ▸ hbooks.mem_queued (.inl hr))]
    exact h.completed r hr

theorem Flowing.work (h : Flowing e mem w) {ps : List ℕ} {hw : Hw} {xs : List (Move Addr Addr)}
    (hinv : Inv e mem (w.work hw xs)) (hwork : Working w.queue (w.made p) p ps [])
    (hnext : Working { w.queue with hw := hw } (w.made p ++ xs) p ps [])
    (hdone : hw.busy = false → hw.completedDescCount = hw.chain.length ∧ hw.status &&& e.errMask = 0) :
    Flowing e mem (w.work hw xs) := by
  refine ⟨hinv, .inr ⟨p, ps, ?_, hdone⟩, ?_⟩
  · rw [made_work hwork.first, Function.update_self]
    exact hnext
  · intro r hr
    have hp : p ∉ w.retired := h.inv.books.not_mem_retired (by simp [hwork.transferList])
    rw [made_work hwork.first, Function.update_of_ne fun heq : r = p => hp (heq ▸ hr)]
    exact h.completed r hr

theorem Flowing.working (h : Flowing e mem w) (hbusy : w.queue.hw.busy = true) :
    ∃ p ps, Working w.queue (w.made p) p ps [] := by
  obtain ⟨hrest, -⟩ | ⟨p, ps, hwork, -⟩ := h.engine
  · exact absurd (hrest.busy.symm.trans hbusy) Bool.false_ne_true
  · exact ⟨p, ps, hwork⟩

theorem Flowing.served (h : Flowing e mem w) (heop : e.eopFlush = false) (hidle : w.queue.hw.busy = false)
    (hrun : w.queue.running = true) :
    ∃ (p : ℕ) (ps : List ℕ) (q' : EngineQueue) (y : Xfer), w.queue.transferList = p :: ps ∧
      w.queue.engineServiceWork e = q'.engineServiceResume ∧ q'.transferList = ps ∧ Resting q' ∧
      q'.xfer = Function.update w.queue.xfer p y ∧ y.chain = (w.queue.xfer p).chain ∧ y.state = .completed ∧
      w.made p = y.chain := by
  obtain ⟨hrest, -⟩ | ⟨p, ps, hwork, hdone⟩ := h.engine
  · exact absurd (hrest.running.symm.trans hrun) Bool.false_ne_true
  · have hlist := hwork.transferList
    have hx : (w.queue.xfer p).Sound := h.inv.books.sound p (by simp [hlist])
    obtain ⟨hall, hstatus⟩ := hdone hidle
    obtain ⟨bytes, hmade⟩ := hwork.stopped hidle
    have hcopied : w.made p = (w.queue.xfer p).chain := by
      rw [hmade, ← hwork.chain, hall]
      simp [started]
    rw [hwork.chain] at hall
    obtain ⟨q', hq', hret⟩ := EngineQueue.service_retires heop hwork.running hidle hlist hx hwork.descDequeued
      (hall ▸ hx.pos) hall.le
    obtain ⟨y, hxfer, hchain, hstate⟩ := hret.xfer
    have hrest : Resting q' := ⟨hret.running, hret.shutdown.trans hwork.shutdown, by rw [hret.hw]; exact hidle⟩
    obtain ⟨hs, -⟩ | ⟨-, hnot⟩ := hstate
    · exact ⟨p, ps, q', y, hlist, hq', hret.transferList, hrest, hxfer, hchain, hs, hcopied.trans hchain.symm⟩
    · exact absurd ⟨hstatus, hall⟩ hnot

theorem Flowing.service (h : Flowing e mem w) (heop : e.eopFlush = false) (hidle : w.queue.hw.busy = false) :
    Flowing e mem (w.take (w.queue.engineServiceWork e)) := by
  have hinv := h.inv.service heop hidle
  cases hrun : w.queue.running with
  | false =>
    obtain ⟨hrest, hnil⟩ | ⟨p, ps, hwork, -⟩ := h.engine
    · rw [EngineQueue.engineServiceWork_of_not_running hrun] at hinv ⊢
      have hretired : (w.take (w.queue.engineStatusRead true)).retired = w.retired := retired_take_self w rfl
      refine ⟨hinv, .inl ⟨⟨hrest.running, hrest.shutdown, hrest.busy⟩, hnil⟩, ?_⟩
      rw [hretired]
      exact h.completed
    · exact absurd (hrun.symm.trans hwork.running) Bool.false_ne_true
  | true =>
    obtain ⟨p, ps, q', y, hlist, hq', hlist', hrest, hxfer, -, hs, hmade⟩ := h.served heop hidle hrun
    have hbooks := h.inv.books
    have hp := hbooks.not_mem_retired (p := p) (by simp [hlist])
    rw [World.Books, hlist] at hbooks
    obtain ⟨-, huntouched⟩ := hbooks.head
    obtain ⟨h1, h2⟩ := hrest.resume_frame
    rw [hq'] at hinv ⊢
    refine ⟨hinv, ?_, ?_⟩
    · cases hcons : ps with
      | nil =>
        rw [EngineQueue.engineServiceResume_nil hrest.running hrest.shutdown (hlist'.trans hcons)]
        exact .inl ⟨hrest, hlist'.trans hcons⟩
      | cons r rs =>
        rw [EngineQueue.engineServiceResume_cons hrest.running (hlist'.trans hcons)]
        refine .inr ⟨r, rs, ?_, ?_⟩
        · have hstart : Working (q'.engineStart.getD q') [] r rs [] := hrest.start (hlist'.trans hcons)
          change Working _ (w.made r) _ _ _
          rw [huntouched r (by simp [hcons])]
          exact hstart
        · rw [EngineQueue.engineStart_cons hrest.running (hlist'.trans hcons)]
          exact fun hb => absurd hb Bool.true_eq_false.mp
    · rw [retired_take_cons w hlist (h1.trans hlist')]
      change ∀ r ∈ w.retired ++ [p], (q'.engineServiceResume.xfer r).state = .completed ∧
        w.made r = (q'.engineServiceResume.xfer r).chain
      rw [h2, hxfer]
      intro r hr
      obtain hr | hr := List.mem_append.mp hr
      · rw [Function.update_of_ne fun heq : r = p => hp (heq ▸ hr)]
        exact h.completed r hr
      · rw [List.mem_singleton.mp hr, Function.update_self]
        exact ⟨hs, hmade⟩

theorem Flowing.step (heop : e.eopFlush = false) {ev : Event} {w' : World} (h : Flowing e mem w)
    (hs : HealthyStep e w ev w') : Flowing e mem w' := by
  obtain ⟨hhealthy, hstep⟩ := hs
  have hinv := h.inv.step heop hstep
  obtain ⟨hev, rfl⟩ := hstep
  cases ev with
  | queue p x => exact h.append hev.1 hev.2
  | advance =>
    obtain ⟨p, ps, hwork⟩ := h.working hev.1
    apply h.work hinv hwork (hwork.advance hev.1 hev.2)
    exact fun hb => absurd (hev.1.symm.trans hb) Bool.true_eq_false.mp
  | halt bytes flags =>
    obtain ⟨p, ps, hwork⟩ := h.working hev
    apply h.work hinv hwork (hwork.halt hev bytes flags)
    intro _
    refine ⟨hhealthy.1, ?_⟩
    change (if false = true then _ else flags &&& ~~~statBusy) &&& e.errMask = 0
    rw [if_neg Bool.false_ne_true, BitVec.and_assoc, BitVec.and_comm, BitVec.and_assoc, BitVec.and_comm e.errMask,
      hhealthy.2]
    exact BitVec.and_zero
  | service => exact h.service heop hev
  | giveUp p => exact hhealthy.elim

theorem Flowing.start {q : EngineQueue} (hq : q.Idle) : Flowing e q.hw.mem (World.start q) :=
  ⟨.start hq, .inl ⟨⟨hq.running, hq.shutdown, hq.busy⟩, hq.transferList⟩, fun _ hp => absurd hp List.not_mem_nil⟩

theorem Flowing.useful (heop : e.eopFlush = false) {ev : Event} {w' : World} (h : Flowing e mem w)
    (hs : UsefulStep e w ev w') :
    w'.left < w.left ∧ w'.queued = w.queued ∧ ∀ p, (w'.queue.xfer p).chain = (w.queue.xfer p).chain := by
  obtain ⟨huseful, hhealthy, hev, rfl⟩ := hs
  cases ev with
  | queue p x => exact huseful.elim
  | advance =>
    obtain ⟨p, ps, hwork⟩ := h.working hev.1
    refine ⟨?_, rfl, fun _ => rfl⟩
    obtain ⟨hbusy, hleft⟩ := hev
    simp only [World.left, World.next, World.work, Hw.advance, hwork.running, hbusy, if_true]
    omega
  | halt bytes flags =>
    obtain ⟨p, ps, hwork⟩ := h.working hev
    refine ⟨?_, rfl, fun _ => rfl⟩
    have hbusy : w.queue.hw.busy = true := hev
    simp only [World.left, World.next, World.work, Hw.halt, hwork.running, hbusy, if_true, Bool.false_eq_true, if_false]
    omega
  | service =>
    have hidle : w.queue.hw.busy = false := hev
    obtain ⟨p, ps, q', y, hlist, hq', hlist', hrest, hxfer, hchain, -⟩ := h.served heop hidle huseful
    obtain ⟨h1, h2⟩ := hrest.resume_frame
    have hsame (r : ℕ) : (q'.xfer r).chain = (w.queue.xfer r).chain := by
      rw [hxfer]
      by_cases hr : r = p
      · rw [hr, Function.update_self]
        exact hchain
      · rw [Function.update_of_ne hr]
    have hrun : w.queue.running = true := huseful
    change World.left (w.take (w.queue.engineServiceWork e)) < _ ∧ _ ∧ ∀ r, ((w.queue.engineServiceWork e).xfer r).chain = _
    rw [hq', h2]
    refine ⟨?_, rfl, hsame⟩
    have hbefore : w.left = (ps.map fun p => (w.queue.xfer p).chain.length + 2).sum + 1 := by
      simp [World.left, hlist, hrun, hidle]
    rw [hbefore]
    cases hcons : ps with
    | nil =>
      rw [EngineQueue.engineServiceResume_nil hrest.running hrest.shutdown (hlist'.trans hcons)]
      simp [World.left, World.take, hlist', hcons, hrest.running]
    | cons r rs =>
      rw [EngineQueue.engineServiceResume_cons hrest.running (hlist'.trans hcons),
        EngineQueue.engineStart_cons hrest.running (hlist'.trans hcons)]
      simp only [World.left, World.take, Option.getD_some, hlist', hcons, List.tail_cons, hsame, Hw.start, if_true,
        List.map_cons, List.sum_cons]
      omega
  | giveUp p => exact hhealthy.elim

theorem Flowing.stuck (h : Flowing e mem w) (hstuck : ∀ ev w', ¬ UsefulStep e w ev w') : w.queue.transferList = [] := by
  obtain ⟨-, hnil⟩ | ⟨p, ps, hwork, hdone⟩ := h.engine
  · exact hnil
  · exfalso
    cases hbusy : w.queue.hw.busy with
    | false => exact hstuck .service _ ⟨hwork.running, trivial, hbusy, rfl⟩
    | true =>
      obtain hlt | hge := Nat.lt_or_ge w.queue.hw.completedDescCount w.queue.hw.chain.length
      · exact hstuck .advance _ ⟨trivial, trivial, ⟨hbusy, hlt⟩, rfl⟩
      · exact hstuck (.halt 0 0) _ ⟨trivial, ⟨le_antisymm hwork.le hge, BitVec.zero_and⟩, hbusy, rfl⟩

end Flow

/-- With an engine that stops only after its last descriptor and without an error, every queue empties, in
whatever order the steps are taken: only so many steps are left, and when none is possible, all transfers that have
been queued are marked completed, and have been copied once each, in this order. -/
theorem queue_drains (e : Engine) (heop : e.eopFlush = false) (q : EngineQueue) (hq : q.Idle) {es es' : List Event}
    {w w' : World} (h : Path (HealthyStep e) (World.start q) es w) (h' : Path (UsefulStep e) w es' w') :
    es'.length ≤ w.left ∧
      ((∀ ev w'', ¬ UsefulStep e w' ev w'') →
        w'.retired = w.queued ∧ (∀ p ∈ w.queued, (w'.queue.xfer p).state = .completed) ∧
          w'.queue.hw.mem = q.hw.mem.execAll e.dir (w.queued.flatMap fun p => (w.queue.xfer p).chain)) := by
  have hflow : Flowing e q.hw.mem w := h.invariant (fun _ _ _ hi hs => hi.step heop hs) (.start hq)
  have hlength := h'.length_le World.left (p := Flowing e q.hw.mem)
    (fun s a t hs hst => ⟨hs.step heop hst.2, (hs.useful heop hst).1⟩) hflow
  obtain ⟨hflow', hqueued, hchain⟩ : Flowing e q.hw.mem w' ∧ w'.queued = w.queued ∧
      ∀ p, (w'.queue.xfer p).chain = (w.queue.xfer p).chain := by
    refine h'.invariant (p := fun v => Flowing e q.hw.mem v ∧ v.queued = w.queued ∧
      ∀ p, (v.queue.xfer p).chain = (w.queue.xfer p).chain) ?_ ⟨hflow, rfl, fun _ => rfl⟩
    rintro s a t ⟨hs, hqueued, hchain⟩ hst
    obtain ⟨-, h1, h2⟩ := hs.useful heop hst
    exact ⟨hs.step heop hst.2, h1.trans hqueued, fun p => (h2 p).trans (hchain p)⟩
  refine ⟨by omega, fun hstuck => ?_⟩
  have horder := hflow'.inv.books.order
  rw [hflow'.stuck hstuck, List.append_nil, hqueued] at horder
  refine ⟨horder.symm, ?_, ?_⟩
  · intro p hp
    exact (hflow'.completed p (horder ▸ hp)).1
  · have hmem := hflow'.inv.books.mem
    rw [hmem, hqueued]
    congr 1
    apply List.flatMap_congr
    intro p hp
    rw [← hchain p]
    exact (hflow'.completed p (horder ▸ hp)).2

def drainedEvents : List Event := [.advance, .advance, .halt 0 6, .service, .advance, .advance, .halt 0 6, .service]

def queuedWorld : World :=
  [Event.queue 0 exampleXfer, Event.queue 1 exampleXfer].foldl (World.next (exampleEngine .toDevice)) (.start exampleQueue)

def drainedWorld : World := drainedEvents.foldl (World.next (exampleEngine .toDevice)) queuedWorld

theorem drainedWorld_stuck (ev : Event) (w : World) : ¬ UsefulStep (exampleEngine .toDevice) drainedWorld ev w := by
  rintro ⟨huseful, hhealthy, hev, -⟩
  cases ev with
  | queue p x => exact huseful
  | advance => exact Bool.false_ne_true hev.1
  | halt bytes flags => exact Bool.false_ne_true hev
  | service => exact Bool.false_ne_true huseful
  | giveUp p => exact hhealthy

theorem queue_drains_example :
    8 ≤ queuedWorld.left ∧ drainedWorld.retired = [0, 1] ∧ (drainedWorld.queue.xfer 1).state = .completed := by
  have hpath : Path (HealthyStep (exampleEngine .toDevice)) (.start exampleQueue)
      [.queue 0 exampleXfer, .queue 1 exampleXfer] queuedWorld := by
    refine .cons ⟨trivial, ⟨by decide, exampleXfer_sound⟩, rfl⟩ ?_
    exact .cons ⟨trivial, ⟨by decide, exampleXfer_sound⟩, rfl⟩ .nil
  have hpath' : Path (UsefulStep (exampleEngine .toDevice)) queuedWorld drainedEvents drainedWorld := by
    refine .cons ⟨trivial, trivial, ⟨rfl, by decide⟩, rfl⟩ ?_
    refine .cons ⟨trivial, trivial, ⟨rfl, by decide⟩, rfl⟩ ?_
    refine .cons ⟨trivial, ⟨rfl, by decide⟩, rfl, rfl⟩ ?_
    refine .cons ⟨rfl, trivial, rfl, rfl⟩ ?_
    refine .cons ⟨trivial, trivial, ⟨rfl, by decide⟩, rfl⟩ ?_
    refine .cons ⟨trivial, trivial, ⟨rfl, by decide⟩, rfl⟩ ?_
    refine .cons ⟨trivial, ⟨rfl, by decide⟩, rfl, rfl⟩ ?_
    exact .cons ⟨rfl, trivial, rfl, rfl⟩ .nil
  obtain ⟨hlength, hdrained⟩ := queue_drains (exampleEngine .toDevice) rfl exampleQueue ⟨rfl, rfl, rfl, rfl⟩ hpath hpath'
  obtain ⟨hretired, hcompleted, -⟩ := hdrained drainedWorld_stuck
  exact ⟨hlength, hretired, hcompleted 1 (by decide)⟩

/-- Nothing is queued and nobody gives up. -/
def Unattended : Event → Prop
  | .queue _ _ | .giveUp _ => False
  | .advance | .halt _ _ | .service => True

theorem unattended_step {e : Engine} {w w' : World} {ev : Event} (h : Resting w.queue) (hev : Unattended ev)
    (hs : Step e w ev w') :
    Resting w'.queue ∧ w'.queue.transferList = w.queue.transferList ∧ w'.retired = w.retired ∧
      w'.queue.xfer = w.queue.xfer ∧ w'.queue.hw.mem = w.queue.hw.mem := by
  obtain ⟨hen, rfl⟩ := hs
  cases ev with
  | queue p x => exact hev.elim
  | advance => exact absurd (h.busy.symm.trans hen.1) Bool.false_ne_true
  | halt bytes flags => exact absurd (h.busy.symm.trans hen) Bool.false_ne_true
  | service =>
    change Resting (w.queue.engineServiceWork e) ∧ (w.queue.engineServiceWork e).transferList = _ ∧
      (w.take (w.queue.engineServiceWork e)).retired = _ ∧ (w.queue.engineServiceWork e).xfer = _ ∧
      (w.queue.engineServiceWork e).hw.mem = _
    rw [EngineQueue.engineServiceWork_of_not_running h.running]
    exact ⟨⟨h.running, h.shutdown, h.busy⟩, rfl, retired_take_self w rfl, rfl, rfl⟩
  | giveUp p => exact hev.elim

/-- When the engine has stopped before its first descriptor is done, whatever error it shows, the interrupt
leaves the transfer in the queue and the engine stopped, and from then on no interrupt changes that: the transfers stay
in the queue, neither completed nor failed, until another one is queued or a thread gives up. -/
theorem queue_stranded (e : Engine) (heop : e.eopFlush = false) (q : EngineQueue) (hq : q.Idle) {es es' : List Event}
    {w w' : World} (h : Path (Step e) (World.start q) es w) (hrun : w.queue.running = true)
    (hidle : w.queue.hw.busy = false) (hzero : w.queue.hw.completedDescCount = 0)
    (h' : Path (fun s ev t => Unattended ev ∧ Step e s ev t) (w.next e .service) es' w') :
    w'.queue.transferList ≠ [] ∧ w'.queue.transferList = w.queue.transferList ∧ w'.retired = w.retired ∧
      w'.queue.xfer = w.queue.xfer ∧ w'.queue.hw.mem = w.queue.hw.mem ∧ w'.queue.running = false := by
  obtain ⟨hrest, -⟩ | ⟨p, ps, before, hwork, -⟩ := (Inv.path heop hq h).engine
  · exact absurd (hrest.running.symm.trans hrun) Bool.false_ne_true
  · have hservice : w.next e .service = w.take (w.queue.engineStatusRead true).engineStop :=
      congrArg w.take (EngineQueue.service_zero hrun hidle hzero)
    have hretired : (w.take (w.queue.engineStatusRead true).engineStop).retired = w.retired := retired_take_self w rfl
    have hstays := h'.invariant (p := fun v => Resting v.queue ∧ v.queue.transferList = w.queue.transferList ∧
      v.retired = w.retired ∧ v.queue.xfer = w.queue.xfer ∧ v.queue.hw.mem = w.queue.hw.mem) (by
        rintro s ev t ⟨h0, h1, h2, h3, h4⟩ ⟨hev, hs⟩
        obtain ⟨g0, g1, g2, g3, g4⟩ := unattended_step h0 hev hs
        exact ⟨g0, g1.trans h1, g2.trans h2, g3.trans h3, g4.trans h4⟩) (by
        rw [hservice]
        exact ⟨⟨rfl, hwork.shutdown, rfl⟩, rfl, hretired, rfl, rfl⟩)
    obtain ⟨h0, h1, h2, h3, h4⟩ := hstays
    refine ⟨?_, h1, h2, h3, h4, h0.running⟩
    rw [h1, hwork.transferList]
    exact List.cons_ne_nil p ps

/-- The engine finds an error within the first copy. -/
def haltedWorld : World :=
  [Event.queue 0 exampleXfer, .halt 5 8].foldl (World.next (exampleEngine .toDevice)) (.start exampleQueue)

def strandedWorld : World := [Event.service, .service, .service].foldl (World.next (exampleEngine .toDevice)) haltedWorld

theorem queue_stranded_example :
    strandedWorld.queue.transferList = [0] ∧ strandedWorld.retired = [] ∧ strandedWorld.queue.running = false := by
  have hpath : Path (Step (exampleEngine .toDevice)) (.start exampleQueue) [.queue 0 exampleXfer, .halt 5 8] haltedWorld := by
    refine .cons ⟨⟨by decide, exampleXfer_sound⟩, rfl⟩ ?_
    exact .cons ⟨rfl, rfl⟩ .nil
  have hserved : Path (fun s ev t => Unattended ev ∧ Step (exampleEngine .toDevice) s ev t)
      (haltedWorld.next (exampleEngine .toDevice) .service) [.service, .service] strandedWorld := by
    refine .cons ⟨trivial, rfl, rfl⟩ ?_
    exact .cons ⟨trivial, rfl, rfl⟩ .nil
  obtain ⟨-, hlist, hretired, -, -, hrun⟩ :=
    queue_stranded (exampleEngine .toDevice) rfl exampleQueue ⟨rfl, rfl, rfl, rfl⟩ hpath rfl rfl rfl hserved
  exact ⟨hlist, hretired, hrun⟩

end EmbeddedAccelerator.Xdma
