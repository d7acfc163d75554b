import EmbeddedAccelerator.Clocked.Transitions
import EmbeddedAccelerator.Xdma.Engines

/-!
The queue of an engine over whole runs: threads queue transfers and give up waiting for them, the engine works and
stops, and interrupts are served, in any order.
-/

namespace EmbeddedAccelerator.Xdma

open Copying (Move)
open Clocked (Path)

/-- The queue of an engine with its past: the transfers that have been queued and those that have left the
queue, in order, and the copies that the engine has made for each. -/
structure World where
  queue : EngineQueue
  queued : List ℕ
  retired : List ℕ
  made : ℕ → List (Move Addr Addr)

inductive Event where
  | queue (p : ℕ) (x : Xfer)
  | advance
  | halt (bytes : ℕ) (flags : BitVec 32)
  | service
  | giveUp (p : ℕ)

namespace World

variable (w : World)

/-- The engine makes some copies for the transfer that it has been started with. -/
def work (hw : Hw) (xs : List (Move Addr Addr)) : World :=
  { w with
    queue := { w.queue with hw := hw }
    made := Function.update w.made w.queue.hw.first (w.made w.queue.hw.first ++ xs) }

/-- The driver takes transfers out of the queue. -/
def take (q : EngineQueue) : World :=
  { w with
    queue := q
    retired := w.retired ++ w.queue.transferList.take (w.queue.transferList.length - q.transferList.length) }

/-- A thread fills in a transfer and queues it. -/
def append (p : ℕ) (x : Xfer) : World :=
  { w with
    queue := ((w.queue.setXfer p fun _ => x).transferQueue false p).2
    queued := w.queued ++ [p] }

def start (q : EngineQueue) : World := ⟨q, [], [], fun _ => []⟩

end World

/-- What a thread, the engine or the interrupt can do. The engine interrupts when it has stopped. -/
def World.Enabled (w : World) : Event → Prop
  | .queue p x => p ∉ w.queued ∧ x.Sound
  | .advance => w.queue.hw.busy = true ∧ w.queue.hw.completedDescCount < w.queue.hw.chain.length
  | .halt _ _ => w.queue.hw.busy = true
  | .service => w.queue.hw.busy = false
  | .giveUp p => p ∈ w.queue.transferList ∧ (w.queue.xfer p).state = .submitted

def World.next (e : Engine) (w : World) : Event → World
  | .queue p x => w.append p x
  | .advance => w.work (w.queue.hw.advance e.dir) ((w.queue.hw.chain.drop w.queue.hw.completedDescCount).take 1)
  | .halt bytes flags => w.work (w.queue.hw.halt e.dir bytes flags) (w.queue.hw.begun bytes)
  | .service => w.take (w.queue.engineServiceWork e)
  | .giveUp p => w.take (w.queue.giveUp p)

def Step (e : Engine) (w : World) (ev : Event) (w' : World) : Prop := w.Enabled ev ∧ w' = w.next e ev

/-- An engine that nobody uses. -/
structure EngineQueue.Idle (q : EngineQueue) : Prop where
  running : q.running = false
  shutdown : q.shutdown = 0
  transferList : q.transferList = []
  busy : q.hw.busy = false

/-- The first copies of a chain, with or without some bytes of the next one. -/
def Part (chain made : List (Move Addr Addr)) : Prop :=
  ∃ descs, made = chain.take descs ∨ ∃ bytes, made = started descs bytes chain

/-- What is made of a chain by an engine that is started with it `n` times at most and does not finish. -/
def Tries (chain : List (Move Addr Addr)) (n : ℕ) (made : List (Move Addr Addr)) : Prop :=
  ∃ parts : List (List (Move Addr Addr)), parts.length ≤ n ∧ (∀ part ∈ parts, Part chain part) ∧ made = parts.flatten

/-- What has been done for a transfer that has left the queue, when `n` others have been queued since. -/
def Settled (n : ℕ) (x : Xfer) (made : List (Move Addr Addr)) : Prop :=
  match x.state with
  | .completed => ∃ before, Tries x.chain n before ∧ made = before ++ x.chain
  | .failed | .aborted => Tries x.chain (n + 1) made
  | .new | .submitted => False

section Tries

variable {chain made part : List (Move Addr Addr)} {m n : ℕ}

theorem Tries.zero (chain : List (Move Addr Addr)) (n : ℕ) : Tries chain n [] := ⟨[], Nat.zero_le n, by simp, rfl⟩

theorem Tries.mono (h : Tries chain m made) (hle : m ≤ n) : Tries chain n made := by
  obtain ⟨parts, hlen, hparts, hmade⟩ := h
  exact ⟨parts, hlen.trans hle, hparts, hmade⟩

theorem Tries.again (h : Tries chain n made) (hpart : Part chain part) : Tries chain (n + 1) (made ++ part) := by
  obtain ⟨parts, hlen, hparts, rfl⟩ := h
  refine ⟨parts ++ [part], ?_, ?_, ?_⟩
  · simpa using hlen
  · intro a ha
    obtain ha | ha := List.mem_append.mp ha
    · exact hparts a ha
    · rw [List.mem_singleton.mp ha]
      exact hpart
  · simp

theorem Settled.mono {x : Xfer} (h : Settled m x made) (hle : m ≤ n) : Settled n x made := by
  rw [Settled] at h ⊢
  cases hstate : x.state with
  | completed =>
    rw [hstate] at h
    obtain ⟨before, hbefore, hmade⟩ := h
    exact ⟨before, hbefore.mono hle, hmade⟩
  | failed | aborted =>
    rw [hstate] at h
    exact h.mono (Nat.succ_le_succ hle)
  | new | submitted =>
    rw [hstate] at h
    exact h.elim

end Tries

/-- The transfers of a queue, and what has been done for each. -/
structure Ledger (e : Engine) (mem : Memory) (queued retired list : List ℕ) (xfer : ℕ → Xfer)
    (made : ℕ → List (Move Addr Addr)) (now : Memory) : Prop where
  order : queued = retired ++ list
  nodup : queued.Nodup
  sound : ∀ p ∈ list, (xfer p).Sound
  waiting : ∀ p ∈ list, (xfer p).state = .submitted ∨ (xfer p).state = .aborted
  settled : ∀ before p after, queued = before ++ p :: after → p ∈ retired → Settled after.length (xfer p) (made p)
  untouched : ∀ p, p ∉ retired → list.head? ≠ some p → made p = []
  mem : now = mem.execAll e.dir (queued.flatMap made)

namespace Ledger

variable {e : Engine} {mem now : Memory} {queued retired list : List ℕ} {xfer : ℕ → Xfer}
  {made : ℕ → List (Move Addr Addr)} {p : ℕ}

theorem start (mem : Memory) (xfer : ℕ → Xfer) : Ledger e mem [] [] [] xfer (fun _ => []) mem :=
  ⟨rfl, List.nodup_nil, by simp, by simp, by simp, fun _ _ _ => rfl, rfl⟩

theorem mem_queued (h : Ledger e mem queued retired list xfer made now) (hp : p ∈ retired ∨ p ∈ list) : p ∈ queued := by
  rw [h.order]
  exact List.mem_append.mpr hp

theorem not_mem_retired (h : Ledger e mem queued retired list xfer made now) (hp : p ∈ list) : p ∉ retired := by
  have hnodup : (retired ++ list).Nodup := h.order ▸ h.nodup
  exact fun hp' => (List.nodup_append.mp hnodup).2.2 p hp' p hp rfl

theorem queue (h : Ledger e mem queued retired list xfer made now) (hfresh : p ∉ queued) {x : Xfer} (hx : x.Sound) :
    Ledger e mem (queued ++ [p]) retired (list ++ [p]) (Function.update xfer p { x with state := .submitted }) made
      now := by
  have hold (r : ℕ) (hr : r ∈ queued) : Function.update xfer p { x with state := .submitted } r = xfer r :=
    Function.update_of_ne (fun heq : r = p => hfresh (heq ▸ hr)) _ _
  have hmade : made p = [] := by
    apply h.untouched
    · exact fun hp => hfresh (h.mem_queued (.inl hp))
    · exact fun hp => hfresh (h.mem_queued (.inr (List.mem_of_mem_head? hp)))
  refine ⟨?_, ?_, ?_, ?_, ?_, ?_, ?_⟩
  · rw [h.order, List.append_assoc]
  · apply List.nodup_append.mpr
    refine ⟨h.nodup, List.nodup_singleton p, ?_⟩
    rintro r hr s hs rfl
    exact hfresh (List.mem_singleton.mp hs ▸ hr)
  · intro r hr
    obtain hr | hr := List.mem_append.mp hr
    · rw [hold r (h.mem_queued (.inr hr))]
      exact h.sound r hr
    · rw [List.mem_singleton.mp hr, Function.update_self]
      exact ⟨hx.pos, hx.lt, hx.descNum, hx.cyclic⟩
  · intro r hr
    obtain hr | hr := List.mem_append.mp hr
    · rw [hold r (h.mem_queued (.inr hr))]
      exact h.waiting r hr
    · rw [List.mem_singleton.mp hr, Function.update_self]
      exact .inl rfl
  · intro before r after hsplit hr
    have hrq := h.mem_queued (.inl hr)
    rw [hold r hrq]
    -- the last of `after` is `p`
    obtain rfl | ⟨after', s, rfl⟩ := List.eq_nil_or_concat after
    · have hlast := congrArg List.getLast? hsplit
      rw [List.getLast?_concat, List.getLast?_concat] at hlast
      exact absurd (Option.some.inj hlast ▸ hrq) hfresh
    · have hsplit' : queued ++ [p] = (before ++ r :: after') ++ [s] := by
        rw [hsplit, List.append_assoc, List.concat_eq_append]
        rfl
      have hqueued := (List.append_inj' hsplit' rfl).1
      apply (h.settled before r after' hqueued hr).mono
      rw [List.length_concat]
      exact Nat.le_succ _
  · intro r hr hhead
    by_cases hrp : r = p
    · rw [hrp, hmade]
    · apply h.untouched r hr
      intro hr'
      apply hhead
      rw [List.head?_append, hr']
      rfl
  · rw [h.mem, List.flatMap_append, List.flatMap_singleton, hmade, List.append_nil]

theorem abort (h : Ledger e mem queued retired list xfer made now) (hp : p ∈ list) :
    Ledger e mem queued retired list (Function.update xfer p { xfer p with state := .aborted }) made now := by
  refine ⟨h.order, h.nodup, ?_, ?_, ?_, h.untouched, h.mem⟩
  · intro r hr
    by_cases hrp : r = p
    · rw [hrp, Function.update_self]
      have hx := h.sound p hp
      exact ⟨hx.pos, hx.lt, hx.descNum, hx.cyclic⟩
    · rw [Function.update_of_ne hrp]
      exact h.sound r hr
  · intro r hr
    by_cases hrp : r = p
    · rw [hrp, Function.update_self]
      exact .inr rfl
    · rw [Function.update_of_ne hrp]
      exact h.waiting r hr
  · intro before r after hsplit hr
    rw [Function.update_of_ne fun heq : r = p => h.not_mem_retired hp (heq ▸ hr)]
    exact h.settled before r after hsplit hr

section Head

variable {ps : List ℕ} (h : Ledger e mem queued retired (p :: ps) xfer made now)
include h

theorem head : p ∉ ps ∧ ∀ r ∈ ps, made r = [] := by
  have hnodup : (retired ++ p :: ps).Nodup := h.order ▸ h.nodup
  have hp : p ∉ ps := (List.nodup_cons.mp (List.nodup_append.mp hnodup).2.1).1
  refine ⟨hp, ?_⟩
  intro r hr
  apply h.untouched
  · exact h.not_mem_retired (List.mem_cons_of_mem p hr)
  · exact fun heq => hp (Option.some.inj heq ▸ hr)

theorem work (xs : List (Move Addr Addr)) :
    Ledger e mem queued retired (p :: ps) xfer (Function.update made p (made p ++ xs)) (now.execAll e.dir xs) := by
  obtain ⟨hps, hrest⟩ := h.head
  have hp := h.not_mem_retired List.mem_cons_self
  have hold (r : ℕ) (hr : r ≠ p) : Function.update made p (made p ++ xs) r = made r := Function.update_of_ne hr _ _
  refine ⟨h.order, h.nodup, h.sound, h.waiting, ?_, ?_, ?_⟩
  · intro before r after hsplit hr
    rw [hold r fun heq => hp (heq ▸ hr)]
    exact h.settled before r after hsplit hr
  · intro r hr hhead
    rw [hold r fun heq => hhead (heq ▸ rfl)]
    exact h.untouched r hr hhead
  · have hbefore : retired.flatMap (Function.update made p (made p ++ xs)) = retired.flatMap made :=
      List.flatMap_congr fun r hr => hold r fun heq => hp (heq ▸ hr)
    have hafter : ps.flatMap (Function.update made p (made p ++ xs)) = ps.flatMap made :=
      List.flatMap_congr fun r hr => hold r fun heq => hps (heq ▸ hr)
    have hnil : ps.flatMap made = [] := List.flatMap_eq_nil_iff.mpr hrest
    rw [h.mem, ← Memory.execAll_append, h.order]
    simp [hbefore, hafter, hnil]

theorem retire {y : Xfer} (hy : Settled ps.length y (made p)) :
    Ledger e mem queued (retired ++ [p]) ps (Function.update xfer p y) made now := by
  obtain ⟨hps, -⟩ := h.head
  have hp := h.not_mem_retired List.mem_cons_self
  have hold (r : ℕ) (hr : r ≠ p) : Function.update xfer p y r = xfer r := Function.update_of_ne hr _ _
  have hrest (r : ℕ) (hr : r ∈ ps) : r ≠ p := fun heq => hps (heq ▸ hr)
  refine ⟨?_, h.nodup, ?_, ?_, ?_, ?_, h.mem⟩
  · rw [h.order, List.append_assoc, List.singleton_append]
  · intro r hr
    rw [hold r (hrest r hr)]
    exact h.sound r (List.mem_cons_of_mem p hr)
  · intro r hr
    rw [hold r (hrest r hr)]
    exact h.waiting r (List.mem_cons_of_mem p hr)
  · intro before r after hsplit hr
    obtain hr | hr := List.mem_append.mp hr
    · rw [hold r fun heq => hp (heq ▸ hr)]
      exact h.settled before r after hsplit hr
    · obtain rfl := List.mem_singleton.mp hr
      -- `r` is in the queue once only
      have hnodup : (before ++ r :: after).Nodup := hsplit ▸ h.nodup
      obtain ⟨-, htail, hdisjoint⟩ := List.nodup_append.mp hnodup
      have hbefore : r ∉ before := fun hr => hdisjoint r hr r List.mem_cons_self rfl
      have hafter := (List.append_cons_inj_of_notMem hbefore (List.nodup_cons.mp htail).1).mp (hsplit.symm.trans h.order)
      rw [Function.update_self, hafter.2.2]
      exact hy
  · intro r hr hhead
    rw [List.mem_append, List.mem_singleton, not_or] at hr
    apply h.untouched r hr.1
    exact fun heq => hr.2 (Option.some.inj heq).symm

end Head

end Ledger

/-- The engine has been started with the transfer at the head of the queue; `before` is what earlier starts
have made of it. -/
structure Working (q : EngineQueue) (made : List (Move Addr Addr)) (p : ℕ) (ps : List ℕ)
    (before : List (Move Addr Addr)) : Prop where
  running : q.running = true
  shutdown : q.shutdown = 0
  descDequeued : q.descDequeued = 0
  transferList : q.transferList = p :: ps
  first : q.hw.first = p
  chain : q.hw.chain = (q.xfer p).chain
  le : q.hw.completedDescCount ≤ q.hw.chain.length
  busy : q.hw.busy = true → made = before ++ q.hw.chain.take q.hw.completedDescCount
  stopped : q.hw.busy = false → ∃ bytes, made = before ++ started q.hw.completedDescCount bytes q.hw.chain

/-- The engine stands still. -/
structure Resting (q : EngineQueue) : Prop where
  running : q.running = false
  shutdown : q.shutdown = 0
  busy : q.hw.busy = false

section Engine

variable {e : Engine} {q : EngineQueue} {made before : List (Move Addr Addr)} {p : ℕ} {ps : List ℕ}

theorem Resting.start (h : Resting q) (hlist : q.transferList = p :: ps) :
    Working (q.engineStart.getD q) made p ps made := by
  rw [EngineQueue.engineStart_cons h.running hlist]
  refine ⟨rfl, rfl, rfl, hlist, rfl, rfl, Nat.zero_le _, fun _ => ?_, fun hb => ?_⟩
  · exact (List.append_nil _).symm
  · exact absurd hb Bool.true_eq_false.mp

theorem Working.listed (h : Working q made p ps before) {r : ℕ} {x : Xfer} (hr : r ≠ p) :
    Working (q.listed r x) made p (ps ++ [r]) before := by
  refine ⟨h.running, h.shutdown, h.descDequeued, ?_, h.first, ?_, h.le, h.busy, h.stopped⟩
  · change q.transferList ++ [r] = _
    rw [h.transferList]
    rfl
  · change q.hw.chain = (Function.update q.xfer r _ p).chain
    rw [Function.update_of_ne hr.symm]
    exact h.chain

theorem Working.advance (h : Working q made p ps before) (hbusy : q.hw.busy = true)
    (hleft : q.hw.completedDescCount < q.hw.chain.length) :
    Working { q with hw := q.hw.advance e.dir } (made ++ (q.hw.chain.drop q.hw.completedDescCount).take 1) p ps before := by
  refine ⟨h.running, h.shutdown, h.descDequeued, h.transferList, h.first, h.chain, hleft, ?_, ?_⟩
  · intro _
    rw [h.busy hbusy, List.append_assoc, ← List.take_add]
    rfl
  · exact fun hb => absurd (hbusy.symm.trans hb) Bool.true_eq_false.mp

theorem Working.halt (h : Working q made p ps before) (hbusy : q.hw.busy = true) (bytes : ℕ) (flags : BitVec 32) :
    Working { q with hw := q.hw.halt e.dir bytes flags } (made ++ q.hw.begun bytes) p ps before := by
  refine ⟨h.running, h.shutdown, h.descDequeued, h.transferList, h.first, h.chain, h.le, ?_, ?_⟩
  · exact fun hb => absurd hb Bool.false_ne_true
  · intro _
    refine ⟨bytes, ?_⟩
    rw [h.busy hbusy, List.append_assoc]
    rfl

theorem Working.part (h : Working q made p ps before) : ∃ part, Part (q.xfer p).chain part ∧ made = before ++ part := by
  rw [← h.chain]
  cases hb : q.hw.busy with
  | true => exact ⟨_, ⟨_, .inl rfl⟩, h.busy hb⟩
  | false =>
    obtain ⟨bytes, hmade⟩ := h.stopped hb
    exact ⟨_, ⟨_, .inr ⟨bytes, rfl⟩⟩, hmade⟩

theorem queue_append {w : World} {x : Xfer} (hx : x.Sound) (hs : w.queue.shutdown = 0) :
    (w.append p x).queue =
      if w.queue.running then w.queue.listed p x else (w.queue.listed p x).engineStart.getD (w.queue.listed p x) := by
  let q := w.queue.setXfer p fun _ => x
  let q' := { q.setState p .submitted with transferList := q.transferList ++ [p] }
  have hrequest : ¬ q.shutdown &&& engineShutdownRequest ≠ 0 := by
    change ¬ w.queue.shutdown &&& engineShutdownRequest ≠ 0
    rw [hs]
    exact not_not.mpr BitVec.zero_and
  have hnum : ¬ (q.xfer p).descNum = 0 := by
    change ¬ (Function.update w.queue.xfer p x p).descNum = 0
    rw [Function.update_self]
    exact descNum_ne_zero hx
  have hq : q' = w.queue.listed p x := by
    simp [q', q, EngineQueue.setState, EngineQueue.setXfer, EngineQueue.listed]
  change (q.transferQueue false p).2 = _
  rw [EngineQueue.transferQueue, if_neg hnum, if_neg Bool.false_ne_true, if_neg hrequest]
  change (if q'.running = true then ((0 : ℤ), q') else (0, q'.engineStart.getD q')).2 = _
  rw [hq]
  change (if w.queue.running = true then _ else _ : ℤ × EngineQueue).2 = _
  split_ifs <;> rfl

theorem xfer_append {w : World} {x : Xfer} (hx : x.Sound) (hs : w.queue.shutdown = 0) :
    (w.append p x).queue.xfer = Function.update w.queue.xfer p { x with state := .submitted } := by
  rw [queue_append hx hs]
  split_ifs
  · rfl
  · exact (EngineQueue.engineStart_frame _).2.1

theorem Resting.resume_frame {q : EngineQueue} (h : Resting q) :
    q.engineServiceResume.transferList = q.transferList ∧ q.engineServiceResume.xfer = q.xfer := by
  cases hlist : q.transferList with
  | nil =>
    rw [EngineQueue.engineServiceResume_nil h.running h.shutdown hlist]
    exact ⟨hlist, rfl⟩
  | cons p ps =>
    obtain ⟨h1, h2, -⟩ := EngineQueue.engineStart_frame q
    rw [EngineQueue.engineServiceResume_cons h.running hlist]
    exact ⟨h1.trans hlist, h2⟩

end Engine

abbrev World.Books (e : Engine) (mem : Memory) (w : World) : Prop :=
  Ledger e mem w.queued w.retired w.queue.transferList w.queue.xfer w.made w.queue.hw.mem

/-- What holds in every state. An engine that works has tried its transfer once for each transfer behind it
at most, before. -/
structure Inv (e : Engine) (mem : Memory) (w : World) : Prop where
  books : w.Books e mem
  engine :
    (Resting w.queue ∧ ∀ p ps, w.queue.transferList = p :: ps → Tries (w.queue.xfer p).chain (ps.length + 1) (w.made p)) ∨
      ∃ p ps before, Working w.queue (w.made p) p ps before ∧ Tries (w.queue.xfer p).chain ps.length before

section Steps

variable {e : Engine} {mem : Memory} {w : World} {q : EngineQueue} {made : ℕ → List (Move Addr Addr)} {p : ℕ}
  {ps : List ℕ}

theorem Inv.shutdown (h : Inv e mem w) : w.queue.shutdown = 0 := by
  obtain hrest | ⟨p, ps, before, hwork, -⟩ := h.engine
  · exact hrest.1.shutdown
  · exact hwork.shutdown

theorem Inv.of_resting {queued retired : List ℕ}
    (hbooks : Ledger e mem queued retired q.transferList q.xfer made q.hw.mem) (hrest : Resting q)
    (hlist : q.transferList = p :: ps) (hmade : Tries (q.xfer p).chain ps.length (made p)) :
    Inv e mem ⟨q.engineStart.getD q, queued, retired, made⟩ := by
  obtain ⟨h1, h2, h3⟩ := EngineQueue.engineStart_frame q
  constructor
  · change Ledger e mem queued retired (q.engineStart.getD q).transferList _ _ _
    rw [h1, h2, h3]
    exact hbooks
  · refine .inr ⟨p, ps, made p, hrest.start hlist, ?_⟩
    rw [h2]
    exact hmade

theorem Inv.append (h : Inv e mem w) (hfresh : p ∉ w.queued) {x : Xfer} (hx : x.Sound) : Inv e mem (w.append p x) := by
  have hq := queue_append (p := p) hx h.shutdown
  have hbooks := h.books.queue hfresh hx
  have hne (r : ℕ) (hr : r ∈ w.queue.transferList) : r ≠ p :=
    fun heq => hfresh (heq ▸ h.books.mem_queued (.inr hr))
  have hold (r : ℕ) (hr : r ∈ w.queue.transferList) : (w.queue.listed p x).xfer r = w.queue.xfer r :=
    Function.update_of_ne (hne r hr) _ _
  obtain ⟨hrest, hmade⟩ | ⟨r, ps, before, hwork, hbefore⟩ := h.engine
  · rw [hrest.running, if_neg Bool.false_ne_true] at hq
    have hlisted : Resting (w.queue.listed p x) := ⟨hrest.running, hrest.shutdown, hrest.busy⟩
    have hinv : Inv e mem ⟨(w.queue.listed p x).engineStart.getD (w.queue.listed p x), w.queued ++ [p], w.retired, w.made⟩ := by
      cases hlist : w.queue.transferList with
      | nil =>
        have hempty : w.made p = [] := by
          apply h.books.untouched
          · exact fun hp => hfresh (h.books.mem_queued (.inl hp))
          · simp [hlist]
        have hlist' : (w.queue.listed p x).transferList = [p] := congrArg (· ++ [p]) hlist
        apply Inv.of_resting hbooks hlisted hlist'
        rw [hempty]
        exact .zero _ _
      | cons r rs =>
        have hlist' : (w.queue.listed p x).transferList = r :: (rs ++ [p]) := congrArg (· ++ [p]) hlist
        apply Inv.of_resting hbooks hlisted hlist'
        rw [hold r (by simp [hlist]), List.length_append]
        exact hmade r rs hlist
    rw [← hq] at hinv
    exact hinv
  · rw [hwork.running, if_pos rfl] at hq
    have hr : r ∈ w.queue.transferList := by simp [hwork.transferList]
    constructor
    · change Ledger e mem _ _ (w.append p x).queue.transferList _ _ _
      rw [hq]
      exact hbooks
    · rw [hq]
      refine .inr ⟨r, ps ++ [p], before, hwork.listed (hne r hr).symm, ?_⟩
      rw [hold r hr, List.length_append]
      exact hbefore.mono (Nat.le_succ _)

theorem Inv.working (h : Inv e mem w) (hbusy : w.queue.hw.busy = true) :
    ∃ p ps before, Working w.queue (w.made p) p ps before ∧ Tries (w.queue.xfer p).chain ps.length before := by
  obtain ⟨hrest, -⟩ | hwork := h.engine
  · exact absurd (hrest.busy.symm.trans hbusy) Bool.false_ne_true
  · exact hwork

theorem made_work {hw : Hw} {xs : List (Move Addr Addr)} (hfirst : w.queue.hw.first = p) :
    (w.work hw xs).made = Function.update w.made p (w.made p ++ xs) := by
  change Function.update w.made w.queue.hw.first (w.made w.queue.hw.first ++ xs) = _
  rw [hfirst]

theorem Inv.work {hw : Hw} {xs before : List (Move Addr Addr)} (h : Inv e mem w)
    (hmem : hw.mem = w.queue.hw.mem.execAll e.dir xs) (hwork : Working w.queue (w.made p) p ps before)
    (hbefore : Tries (w.queue.xfer p).chain ps.length before)
    (hnext : Working { w.queue with hw := hw } (w.made p ++ xs) p ps before) : Inv e mem (w.work hw xs) := by
  have hbooks := h.books
  have hlist := hwork.transferList
  rw [World.Books, hlist] at hbooks
  constructor
  · change Ledger e mem w.queued w.retired w.queue.transferList w.queue.xfer _ hw.mem
    rw [hlist, hmem, made_work hwork.first]
    exact hbooks.work xs
  · refine .inr ⟨p, ps, before, ?_, hbefore⟩
    rw [made_work hwork.first, Function.update_self]
    exact hnext

theorem Inv.advance (h : Inv e mem w) (hbusy : w.queue.hw.busy = true)
    (hleft : w.queue.hw.completedDescCount < w.queue.hw.chain.length) :
    Inv e mem (w.work (w.queue.hw.advance e.dir) ((w.queue.hw.chain.drop w.queue.hw.completedDescCount).take 1)) := by
  obtain ⟨p, ps, before, hwork, hbefore⟩ := h.working hbusy
  exact h.work rfl hwork hbefore (hwork.advance hbusy hleft)

theorem Inv.halt (h : Inv e mem w) (hbusy : w.queue.hw.busy = true) (bytes : ℕ) (flags : BitVec 32) :
    Inv e mem (w.work (w.queue.hw.halt e.dir bytes flags) (w.queue.hw.begun bytes)) := by
  obtain ⟨p, ps, before, hwork, hbefore⟩ := h.working hbusy
  exact h.work rfl hwork hbefore (hwork.halt hbusy bytes flags)

theorem retired_take_cons (w : World) {q' : EngineQueue} (hlist : w.queue.transferList = p :: ps)
    (h : q'.transferList = ps) : (w.take q').retired = w.retired ++ [p] := by
  have hlen : (p :: ps).length - ps.length = 1 := by simp
  change w.retired ++ w.queue.transferList.take (w.queue.transferList.length - q'.transferList.length) = _
  rw [h, hlist, hlen]
  rfl

theorem retired_take_self (w : World) {q' : EngineQueue} (h : q'.transferList = w.queue.transferList) :
    (w.take q').retired = w.retired := by
  change w.retired ++ w.queue.transferList.take (w.queue.transferList.length - q'.transferList.length) = _
  rw [h, Nat.sub_self]
  exact List.append_nil _

theorem Inv.retire {q' : EngineQueue} {y : Xfer} (h : Inv e mem w) (hlist : w.queue.transferList = p :: ps)
    (hy : Settled ps.length y (w.made p)) (hlist' : q'.transferList = ps)
    (hxfer : q'.xfer = Function.update w.queue.xfer p y) (hmem : q'.hw.mem = w.queue.hw.mem) (hrest : Resting q') :
    Inv e mem (w.take q') ∧ Inv e mem (w.take q'.engineServiceResume) := by
  have hbooks := h.books
  rw [World.Books, hlist] at hbooks
  obtain ⟨-, huntouched⟩ := hbooks.head
  have hbooks' : Ledger e mem w.queued (w.retired ++ [p]) q'.transferList q'.xfer w.made q'.hw.mem := by
    rw [hlist', hxfer, hmem]
    exact hbooks.retire hy
  have hstay : Inv e mem (w.take q') := by
    constructor
    · rw [World.Books, retired_take_cons w hlist hlist']
      exact hbooks'
    · refine .inl ⟨hrest, ?_⟩
      intro r rs hcons
      have hcons : ps = r :: rs := hlist'.symm.trans hcons
      change Tries _ _ (w.made r)
      rw [huntouched r (by simp [hcons])]
      exact .zero _ _
  refine ⟨hstay, ?_⟩
  cases hcons : ps with
  | nil =>
    rw [EngineQueue.engineServiceResume_nil hrest.running hrest.shutdown (hlist'.trans hcons)]
    exact hstay
  | cons r rs =>
    have hinv := Inv.of_resting hbooks' hrest (hlist'.trans hcons) (by
      rw [huntouched r (by simp [hcons])]
      exact .zero _ _)
    have hframe := (EngineQueue.engineStart_frame q').1.trans hlist'
    rw [EngineQueue.engineServiceResume_cons hrest.running (hlist'.trans hcons)]
    rw [← retired_take_cons w hlist hframe] at hinv
    exact hinv

theorem Inv.service (h : Inv e mem w) (heop : e.eopFlush = false) (hidle : w.queue.hw.busy = false) :
    Inv e mem (w.take (w.queue.engineServiceWork e)) := by
  have hbooks := h.books
  obtain ⟨hrest, hmade⟩ | ⟨p, ps, before, hwork, hbefore⟩ := h.engine
  · rw [EngineQueue.engineServiceWork_of_not_running hrest.running]
    have hretired : (w.take (w.queue.engineStatusRead true)).retired = w.retired := retired_take_self w rfl
    constructor
    · rw [World.Books, hretired]
      exact hbooks
    · exact .inl ⟨⟨hrest.running, hrest.shutdown, hrest.busy⟩, hmade⟩
  · have hlist := hwork.transferList
    obtain ⟨part, hpart, hmade⟩ := hwork.part
    obtain hzero | hpos := Nat.eq_zero_or_pos w.queue.hw.completedDescCount
    · rw [EngineQueue.service_zero hwork.running hidle hzero]
      have hretired : (w.take (w.queue.engineStatusRead true).engineStop).retired = w.retired := retired_take_self w rfl
      constructor
      · rw [World.Books, hretired]
        exact hbooks
      · refine .inl ⟨⟨rfl, hwork.shutdown, rfl⟩, ?_⟩
        intro r rs hcons
        obtain ⟨rfl, rfl⟩ := List.cons.inj (hlist.symm.trans hcons)
        change Tries _ _ (w.made p)
        rw [hmade]
        exact hbefore.again hpart
    · have hx : (w.queue.xfer p).Sound := hbooks.sound p (by simp [hlist])
      obtain ⟨q', hq', hret⟩ := EngineQueue.service_retires heop hwork.running hidle hlist hx hwork.descDequeued hpos
        (hwork.chain ▸ hwork.le)
      obtain ⟨y, hxfer, hchain, hstate⟩ := hret.xfer
      have hy : Settled ps.length y (w.made p) := by
        rw [Settled, hchain]
        obtain ⟨hs, -, hall⟩ | ⟨hs, -⟩ := hstate
        · have hall : w.queue.hw.completedDescCount = (w.queue.xfer p).chain.length := hall
          obtain ⟨bytes, hstopped⟩ := hwork.stopped hidle
          rw [hs]
          refine ⟨before, hbefore, ?_⟩
          rw [hstopped, hwork.chain, hall]
          simp [started]
        · rw [hs, hmade]
          exact hbefore.again hpart
      have hhw := hret.hw
      rw [hq']
      apply (h.retire hlist hy hret.transferList hxfer ?_ ⟨hret.running, hret.shutdown.trans hwork.shutdown, ?_⟩).2
      · rw [hhw]
        rfl
      · rw [hhw]
        exact hidle

theorem Inv.giveUp (h : Inv e mem w) (hp : p ∈ w.queue.transferList) (hstate : (w.queue.xfer p).state = .submitted) :
    Inv e mem (w.take (w.queue.giveUp p)) := by
  have hbooks := h.books
  have heq := EngineQueue.giveUp_eq (hbooks.sound p hp) hstate
  have hrest : Resting (w.queue.giveUp p) := by
    rw [heq]
    exact ⟨rfl, h.shutdown, rfl⟩
  have htries (r : ℕ) (rs : List ℕ) (hlist : w.queue.transferList = r :: rs) :
      Tries (w.queue.xfer r).chain (rs.length + 1) (w.made r) := by
    obtain ⟨-, hmade⟩ | ⟨s, ss, before, hwork, hbefore⟩ := h.engine
    · exact hmade r rs hlist
    · obtain ⟨rfl, rfl⟩ := List.cons.inj (hlist.symm.trans hwork.transferList)
      obtain ⟨part, hpart, hmade⟩ := hwork.part
      rw [hmade]
      exact hbefore.again hpart
  by_cases hhead : w.queue.transferList.head? = some p
  · obtain ⟨ps, hlist⟩ : ∃ ps, w.queue.transferList = p :: ps := List.head?_eq_some_iff.mp hhead
    refine (h.retire hlist (y := { w.queue.xfer p with state := .aborted }) (htries p ps hlist) ?_ ?_ ?_ hrest).1
    · rw [heq, if_pos hhead, hlist]
      rfl
    · rw [heq]
    · rw [heq]
      rfl
  · rw [if_neg hhead] at heq
    have hretired : (w.take (w.queue.giveUp p)).retired = w.retired := retired_take_self w (by rw [heq])
    constructor
    · rw [World.Books, hretired]
      change Ledger e mem _ _ (w.queue.giveUp p).transferList (w.queue.giveUp p).xfer _ (w.queue.giveUp p).hw.mem
      rw [heq]
      exact hbooks.abort hp
    · refine .inl ⟨hrest, ?_⟩
      change ∀ r rs, (w.queue.giveUp p).transferList = r :: rs → Tries ((w.queue.giveUp p).xfer r).chain _ (w.made r)
      rw [heq]
      intro r rs hlist
      have hr : r ≠ p := by
        rintro rfl
        exact hhead (by rw [hlist]; rfl)
      change Tries (Function.update w.queue.xfer p _ r).chain _ _
      rw [Function.update_of_ne hr]
      exact htries r rs hlist

theorem Inv.step (heop : e.eopFlush = false) {ev : Event} {w' : World} (h : Inv e mem w) (hs : Step e w ev w') :
    Inv e mem w' := by
  obtain ⟨hev, rfl⟩ := hs
  cases ev with
  | queue p x => exact h.append hev.1 hev.2
  | advance => exact h.advance hev.1 hev.2
  | halt bytes flags => exact h.halt hev bytes flags
  | service => exact h.service heop hev
  | giveUp p => exact h.giveUp hev.1 hev.2

theorem Inv.keeps (heop : e.eopFlush = false) {ev : Event} {w' : World} (h : Inv e mem w) (hs : Step e w ev w') {r : ℕ}
    (hr : r ∈ w.queued) : r ∈ w'.queued ∧ (w'.queue.xfer r).chain = (w.queue.xfer r).chain := by
  obtain ⟨hev, rfl⟩ := hs
  cases ev with
  | queue p x =>
    refine ⟨List.mem_append_left _ hr, ?_⟩
    change ((w.append p x).queue.xfer r).chain = _
    rw [xfer_append hev.2 h.shutdown, Function.update_of_ne fun heq : r = p => hev.1 (heq ▸ hr)]
  | advance => exact ⟨hr, rfl⟩
  | halt bytes flags => exact ⟨hr, rfl⟩
  | service =>
    have hidle : w.queue.hw.busy = false := hev
    refine ⟨hr, ?_⟩
    change ((w.queue.engineServiceWork e).xfer r).chain = _
    obtain ⟨hrest, -⟩ | ⟨p, ps, before, hwork, -⟩ := h.engine
    · rw [EngineQueue.engineServiceWork_of_not_running hrest.running]
      rfl
    · have hlist := hwork.transferList
      obtain hzero | hpos := Nat.eq_zero_or_pos w.queue.hw.completedDescCount
      · rw [EngineQueue.service_zero hwork.running hidle hzero]
        rfl
      · obtain ⟨q', hq', hret⟩ := EngineQueue.service_retires heop hwork.running hidle hlist
          (h.books.sound p (by simp [hlist])) hwork.descDequeued hpos (hwork.chain ▸ hwork.le)
        obtain ⟨y, hxfer, hchain, -⟩ := hret.xfer
        have hrest : Resting q' := ⟨hret.running, hret.shutdown.trans hwork.shutdown, by rw [hret.hw]; exact hidle⟩
        rw [hq', hrest.resume_frame.2, hxfer]
        by_cases hrp : r = p
        · rw [hrp, Function.update_self]
          exact hchain
        · rw [Function.update_of_ne hrp]
  | giveUp p =>
    refine ⟨hr, ?_⟩
    change ((w.queue.giveUp p).xfer r).chain = _
    rw [EngineQueue.giveUp_eq (h.books.sound p hev.1) hev.2]
    change (Function.update w.queue.xfer p _ r).chain = _
    by_cases hrp : r = p
    · rw [hrp, Function.update_self]
    · rw [Function.update_of_ne hrp]

theorem Inv.asked (heop : e.eopFlush = false) {es : List Event} {w' : World} (h : Inv e mem w) (hs : Path (Step e) w es w') :
    (∀ r ∈ w.queued, r ∈ w'.queued ∧ (w'.queue.xfer r).chain = (w.queue.xfer r).chain) ∧
      ∀ r x, Event.queue r x ∈ es → r ∈ w'.queued ∧ (w'.queue.xfer r).chain = x.chain := by
  induction hs with
  | nil => exact ⟨fun r hr => ⟨hr, rfl⟩, fun r x hx => absurd hx List.not_mem_nil⟩
  | cons hstep _ ih =>
    obtain ⟨hkeep, hasked⟩ := ih (h.step heop hstep)
    constructor
    · intro r hr
      obtain ⟨hr', hchain⟩ := h.keeps heop hstep hr
      obtain ⟨hr'', hchain'⟩ := hkeep r hr'
      exact ⟨hr'', hchain'.trans hchain⟩
    · intro r x hx
      obtain rfl | hx := List.mem_cons.mp hx
      · obtain ⟨hev, rfl⟩ := hstep
        obtain ⟨hr, hchain⟩ := hkeep r (List.mem_append_right _ (List.mem_singleton_self r))
        refine ⟨hr, hchain.trans ?_⟩
        change ((World.append _ r x).queue.xfer r).chain = _
        rw [xfer_append hev.2 h.shutdown, Function.update_self]
      · exact hasked r x hx

theorem Inv.start (hq : q.Idle) : Inv e q.hw.mem (World.start q) := by
  constructor
  · change Ledger e q.hw.mem [] [] q.transferList q.xfer (fun _ => []) q.hw.mem
    rw [hq.transferList]
    exact .start _ _
  · refine .inl ⟨⟨hq.running, hq.shutdown, hq.busy⟩, ?_⟩
    intro p ps hlist
    exact absurd (hq.transferList.symm.trans hlist) (List.cons_ne_nil p ps).symm

theorem Inv.path (heop : e.eopFlush = false) (hq : q.Idle) {es : List Event} (h : Path (Step e) (World.start q) es w) :
    Inv e q.hw.mem w :=
  h.invariant (fun _ _ _ hi hs => hi.step heop hs) (.start hq)

end Steps

/-- In whatever order threads queue transfers and give up, the engine works and stops, and interrupts are
served: the transfers leave the queue in the order in which they have been queued, none is lost and none comes twice;
one that is marked completed has been copied whole, and any other one at most in part, with no more starts than others
have been queued since; nothing has been done for those behind the first; and the memories hold what the copies for the
transfers give, one transfer after the other. -/
theorem queue_correct (e : Engine) (heop : e.eopFlush = false) (q : EngineQueue) (hq : q.Idle) {es : List Event} {w : World}
    (h : Path (Step e) (World.start q) es w) :
    w.queued = w.retired ++ w.queue.transferList ∧ w.queued.Nodup ∧
      (∀ p x, Event.queue p x ∈ es → p ∈ w.queued ∧ (w.queue.xfer p).chain = x.chain) ∧
      (∀ p ∈ w.queue.transferList, (w.queue.xfer p).state = .submitted ∨ (w.queue.xfer p).state = .aborted) ∧
      (∀ before p after, w.queued = before ++ p :: after → p ∈ w.retired →
        Settled after.length (w.queue.xfer p) (w.made p)) ∧
      (∀ p ∈ w.queue.transferList.tail, w.made p = []) ∧
      w.queue.hw.mem = q.hw.mem.execAll e.dir (w.queued.flatMap w.made) := by
  have hbooks := (Inv.path heop hq h).books
  have hasked := ((Inv.start hq).asked heop h).2
  refine ⟨hbooks.order, hbooks.nodup, hasked, hbooks.waiting, hbooks.settled, ?_, hbooks.mem⟩
  intro p hp
  cases hlist : w.queue.transferList with
  | nil => simp [hlist] at hp
  | cons r rs =>
    rw [World.Books, hlist] at hbooks
    exact hbooks.head.2 p (by simpa [hlist] using hp)

def exampleQueue : EngineQueue where
  running := false
  shutdown := 0
  status := 0
  descDequeued := 0
  transferList := []
  xfer _ := ⟨[], 0, .new, 0, false, false⟩
  hw := ⟨0, [], false, 0, 0, fun _ => 0, ⟨fun a => a.setWidth 8, fun _ => 0⟩⟩

def exampleXfer : Xfer := ⟨[⟨0x3000, 0, 64⟩, ⟨0x9000, 64, 4096⟩], 2, .new, 0, false, false⟩

theorem exampleXfer_sound : exampleXfer.Sound := ⟨by decide, by decide, rfl, rfl⟩

/-- The engine stops within the second copy of the first transfer, while the other one waits. -/
def exampleEvents : List Event := [.queue 0 exampleXfer, .advance, .queue 1 exampleXfer, .halt 5 8, .service, .advance]

def exampleWorld : World := exampleEvents.foldl (World.next (exampleEngine .toDevice)) (.start exampleQueue)

theorem exampleWorld_path : Path (Step (exampleEngine .toDevice)) (.start exampleQueue) exampleEvents exampleWorld := by
  refine .cons ⟨⟨by decide, exampleXfer_sound⟩, rfl⟩ ?_
  refine .cons ⟨⟨rfl, by decide⟩, rfl⟩ ?_
  refine .cons ⟨⟨by decide, exampleXfer_sound⟩, rfl⟩ ?_
  refine .cons ⟨rfl, rfl⟩ ?_
  refine .cons ⟨rfl, rfl⟩ ?_
  exact .cons ⟨⟨rfl, by decide⟩, rfl⟩ .nil

theorem queue_example :
    exampleWorld.retired ++ exampleWorld.queue.transferList = [0, 1] ∧
      exampleWorld.queue.hw.mem = exampleQueue.hw.mem.execAll .toDevice ([0, 1].flatMap exampleWorld.made) := by
  obtain ⟨horder, -, -, -, -, -, hmem⟩ :=
    queue_correct (exampleEngine .toDevice) rfl exampleQueue ⟨rfl, rfl, rfl, rfl⟩ exampleWorld_path
  exact ⟨horder.symm, hmem⟩

end EmbeddedAccelerator.Xdma
