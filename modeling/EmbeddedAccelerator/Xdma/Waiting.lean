import EmbeddedAccelerator.Xdma.Draining

/-!
`xdma_xfer_submit` on the queue of its engine: it queues a transfer, waits for it or gives up, and goes on with the
next one. Whatever the engine and the interrupts do meanwhile, the call ends as `xferSubmit` does for some outcomes.
-/

namespace EmbeddedAccelerator.Xdma

open Copying (Move total)
open Clocked (Path)

section Model

variable {e : Engine}

/-- The transfer for the next part of the request. -/
def Submission.xfer (x : Submission e) : Xfer :=
  let t := transferInit e x.req x.ring
  { chain := (fetched e t.2.2.desc t.1).flatten.map Desc.move
    descNum := BitVec.ofNat 32 t.1.descNum
    state := .new
    descCmpl := 0
    cyclic := false
    eopRcved := false }

def Submission.result (x : Submission e) : ℤ := if x.done ≠ 0 then (x.done : ℤ) else x.rv

/-- Transfer `p` is queued and leaves the queue. No other thread queues anything: it would need `desc_lock`. -/
structure Served (step : World → Event → World → Prop) (x : Xfer) (q : EngineQueue) (p : ℕ) (w : World) : Prop where
  path : ∃ es, Path step (World.start q) (.queue p x :: es) w ∧ ∀ r y, Event.queue r y ∉ es
  retired : p ∈ w.retired

end Model

section Wait

variable {e : Engine} {q : EngineQueue} {p : ℕ} {w : World}

end Wait

section Loop

variable {e : Engine} {q q' : EngineQueue} {x y : Submission e} {p : ℕ} {w : World}

section Healthy

theorem Served.completed (heop : e.eopFlush = false) (hq : q.Idle) {x : Xfer} (h : Served (HealthyStep e) x q p w) :
    (w.queue.xfer p).state = .completed := by
  obtain ⟨⟨es, hpath, -⟩, hretired⟩ := h
  have hflow : Flowing e q.hw.mem w := hpath.invariant (fun _ _ _ hi hs => hi.step heop hs) (.start hq)
  exact (hflow.completed p hretired).1

end Healthy

end Loop

section Call

variable (e : Engine) (heop : e.eopFlush = false) (b : DescBlenMax) {sgl : List SwDesc} (hsgl : sgl ≠ []) {epAddr : Addr}
  (ring : Ring e) {q q' : EngineQueue} (hq : q.Idle)
include heop hsgl hq

end Call

section Example

end Example

end EmbeddedAccelerator.Xdma
