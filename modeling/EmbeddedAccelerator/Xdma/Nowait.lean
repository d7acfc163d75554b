import EmbeddedAccelerator.Copying.Windows
import EmbeddedAccelerator.Xdma.Engines
import EmbeddedAccelerator.Xdma.Outstanding

/-!
`xdma_xfer_submit_nowait`: all transfers of a request are built and queued at once. They fit into the ring when the
descriptors in use leave room for all pieces of the request, and then the two transfers of a request are enough.
-/

namespace EmbeddedAccelerator.Xdma

open Copying (Move total)
open Clocked (Path)

def eiocbqueued : ℤ := 529

/-- The local variables of `xdma_xfer_submit_nowait`, with the ring. -/
structure Nowait (e : Engine) where
  tferIdx : ℕ
  req : Request
  ring : Outstanding e

variable {e : Engine}

/-- One transfer is built, in the next entry of `tfer`. -/
def nowaitStep (x : Nowait e) : Nowait e :=
  { tferIdx := x.tferIdx + 1
    req := (transferInit e x.req x.ring.ring).2.1
    ring := x.ring.init x.req }

def Request.nents (req : Request) : ℕ := req.sdesc.length - req.swDescIdx

theorem nents_nowaitStep (x : Nowait e) : (nowaitStep x).req.nents = x.req.nents - descCount e x.req x.ring.ring :=
  Nat.sub_add_eq _ _ _

/-- The length of `tfer`. -/
def tferMax : ℕ := 2

/-- `accept` says whether `transfer_queue` takes the transfer. What has been built for a request that is given up
stays in the ring. A third transfer would lie over the fields behind `tfer`, among them the pieces it is built from: the
run ends there, without a result. -/
def nowaitLoop (accept : ℕ → Bool) (x : Nowait e) : Option ℤ × Nowait e :=
  if x.req.swDescIdx < x.req.sdesc.length then
    if x.tferIdx < tferMax then
      if accept x.tferIdx then nowaitLoop accept (nowaitStep x) else (some (-ebusy), nowaitStep x)
    else (none, x)
  else (some (-eiocbqueued), x)
termination_by x.req.nents
decreasing_by
  have hpos := descCount_pos x.ring.ring ‹_›
  rw [nents_nowaitStep, Request.nents]
  omega

/-- What is returned, how many entries of `tfer` have been used, and the ring. -/
def xferSubmitNowait (b : DescBlenMax) (offline : Bool) (dir : Dir) (sgl : List SwDesc) (epAddr : Addr)
    (accept : ℕ → Bool) (s : Outstanding e) : Option ℤ × ℕ × Outstanding e :=
  if offline then (some (-ebusy), 0, s)
  else if e.dir ≠ dir then (some (-einval), 0, s)
  else if sgl = [] then (some (-eio), 0, s)
  else
    match initRequest b sgl epAddr with
    | none => (some (-enomem), 0, s)
    | some req =>
      let y := nowaitLoop accept ⟨0, req, s⟩
      (y.1, y.2.tferIdx, y.2.ring)

theorem length_moves (epAddr : Addr) (sdesc : List SwDesc) : (e.moves epAddr sdesc).length = sdesc.length := by
  induction sdesc generalizing epAddr with
  | nil => rfl
  | cons s sdesc ih => rw [Engine.moves, List.length_cons, ih, List.length_cons]

theorem count_moves (epAddr : Addr) (sdesc : List SwDesc) : Move.count (e.moves epAddr sdesc) = total sdesc := by
  induction sdesc generalizing epAddr with
  | nil => rfl
  | cons s sdesc ih =>
    rw [Engine.moves, Move.count_cons, ih, Copying.total_cons]
    cases e.dir <;> rfl

/-- A transfer knows how much it is to copy. -/
def Built.Sized (p : Built) : Prop := p.xfer.len = Move.count p.moves % 2 ^ 32 ∧ p.xfer.descNum = p.moves.length

theorem sized_build (req : Request) (s : Outstanding e) : (s.build req).Sized := by
  have hlen := transferBuild_len (e := e) s.ring.descIdx (part e req s.ring)
    ⟨transferDescInit e s.ring.descIdx (descCount e req s.ring) s.ring.desc, req.epAddr, 0⟩
  rw [Nat.mod_eq_of_lt (transferBuild_len_lt (Nat.two_pow_pos 32)), Nat.zero_add] at hlen
  constructor
  · change (transferInit e req s.ring).1.len = Move.count (e.moves req.epAddr (part e req s.ring)) % 2 ^ 32
    rw [count_moves]
    exact hlen
  · change descCount e req s.ring = (e.moves req.epAddr (part e req s.ring)).length
    rw [length_moves, length_part]

namespace Outstanding

/-- `desc_used` allows a transfer that is built, and the oldest transfer goes first. -/
def CountedStep (s : Outstanding e) (w : Work) (t : Outstanding e) : Prop :=
  s.Step w t ∧ match w with
    | .init req => s.ring.descUsed + descCount e req s.ring ≤ e.descMax
    | .destroy k => k = 0

/-- The descriptors of these transfers. -/
def descNums (ps : List Built) : ℕ := (ps.map fun p => p.xfer.descNum).sum

/-- What is in the ring is what has been given out last. -/
structure Counted (s : Outstanding e) : Prop where
  inv : s.Inv
  used : s.ring.descUsed = descNums s.built
  last : ∀ (k : ℕ) (p : Built), s.built[k]? = some p → p.start + descNums (s.built.drop k) = s.given

theorem descNums_append (ps qs : List Built) : descNums (ps ++ qs) = descNums ps + descNums qs := by
  simp [descNums]

theorem descNums_drop_le (ps : List Built) (k : ℕ) : descNums (ps.drop k) ≤ descNums ps := by
  conv_rhs => rw [← List.take_append_drop k ps, descNums_append]
  exact Nat.le_add_left _ _

theorem Counted.idle {r : Ring e} (hr : r.descUsed = 0) : (idle r).Counted where
  inv := .idle r
  used := hr
  last _ _ hp := absurd hp (by simp [Outstanding.idle])

variable {s t : Outstanding e} (h : s.Counted)
include h

theorem Counted.room_iff {n : ℕ} (hn : n ≤ e.descMax) : s.Room n ↔ s.ring.descUsed + n ≤ e.descMax := by
  rw [h.inv.room_iff, h.used]
  constructor
  · intro hroom
    cases hbuilt : s.built with
    | nil => simpa [descNums] using hn
    | cons p ps =>
      have hp := h.last 0 p (by rw [hbuilt]; rfl)
      have hle := hroom p (hbuilt ▸ List.mem_cons_self)
      rw [List.drop_zero, hbuilt] at hp
      omega
  · intro hle p hp
    obtain ⟨k, hk⟩ := List.mem_iff_getElem?.mp hp
    have hlast := h.last k p hk
    have hdrop := descNums_drop_le s.built k
    omega

theorem Counted.init {req : Request} (hreq : req.swDescIdx < req.sdesc.length) (hlen : ∀ d ∈ req.sdesc, d.len < 2 ^ 32)
    (hroom : s.ring.descUsed + descCount e req s.ring ≤ e.descMax) : (s.init req).Counted := by
  have hfits := (descCount_le req s.ring).2
  refine ⟨h.inv.init hreq hlen ((h.room_iff (by omega)).mpr hroom), ?_, ?_⟩
  · change s.ring.descUsed + _ = descNums (s.built ++ _)
    rw [descNums_append, h.used]
    rfl
  · intro k p hp
    change p.start + descNums ((s.built ++ _).drop k) = s.given + descCount e req s.ring
    obtain hlt | hge := Nat.lt_or_ge k s.built.length
    · have hp' : s.built[k]? = some p := (List.getElem?_append_left hlt).symm.trans hp
      rw [List.drop_append_of_le_length hlt.le, descNums_append, ← Nat.add_assoc, h.last k p hp']
      rfl
    · have hlt := (List.getElem?_eq_some_iff.mp hp).1
      change k < (s.built ++ [_]).length at hlt
      rw [List.length_append, List.length_singleton] at hlt
      obtain rfl : k = s.built.length := by omega
      obtain rfl := Option.some.inj (List.getElem?_concat_length.symm.trans hp)
      rw [List.drop_left]
      rfl

theorem Counted.destroy {p : Built} (hp : s.built[0]? = some p) : (s.destroy p 0).Counted := by
  cases hbuilt : s.built with
  | nil => simp [hbuilt] at hp
  | cons q qs =>
    obtain rfl : q = p := by simpa [hbuilt] using hp
    refine ⟨h.inv.destroy hp, ?_, ?_⟩
    · change s.ring.descUsed - q.xfer.descNum = descNums (s.built.eraseIdx 0)
      rw [h.used, hbuilt]
      simp [descNums]
    · intro k p hk
      have hlast := h.last (k + 1) p (by simpa [Outstanding.destroy, hbuilt] using hk)
      simpa [Outstanding.destroy, hbuilt] using hlast

theorem Counted.step {w : Work} (hstep : s.CountedStep w t) : t.Counted := by
  obtain ⟨hw, hcount⟩ := hstep
  cases w with
  | init req =>
    obtain ⟨hreq, hlen, rfl⟩ := hw
    exact h.init hreq hlen hcount
  | destroy k =>
    obtain ⟨p, hp, rfl⟩ := hw
    obtain rfl : k = 0 := hcount
    exact h.destroy hp

omit h in
theorem Counted.run {r : Ring e} (hr : r.descUsed = 0) {ws : List Work} (hrun : Path CountedStep (Outstanding.idle r) ws s) :
    s.Counted := hrun.invariant (fun _ _ _ hs hstep => hs.step hstep) (.idle hr)

end Outstanding

section Loop

variable (accept : ℕ → Bool) (x : Nowait e)

theorem descCount_cases (req : Request) (r : Ring e) :
    (r.descIdx + req.nents ≤ e.descMax ∧ descCount e req r = req.nents) ∨
      (e.descMax < r.descIdx + req.nents ∧ descCount e req r = e.descMax - r.descIdx) := by
  have hlt := r.idx_lt
  simp only [descCount, Request.nents]
  split_ifs <;> omega

theorem eiocbqueued_ne : some (-ebusy) ≠ some (-eiocbqueued) := by decide

theorem none_ne_eiocbqueued : none ≠ some (-eiocbqueued) := by decide

theorem drop_nowaitStep : x.req.sdesc.drop x.req.swDescIdx =
    part e x.req x.ring.ring ++ (nowaitStep x).req.sdesc.drop (nowaitStep x).req.swDescIdx := by
  change _ = part e x.req x.ring.ring ++ x.req.sdesc.drop (x.req.swDescIdx + descCount e x.req x.ring.ring)
  rw [part, ← List.drop_drop, List.take_append_drop]

theorem moves_nowaitStep : e.moves x.req.epAddr (x.req.sdesc.drop x.req.swDescIdx) =
    e.moves x.req.epAddr (part e x.req x.ring.ring) ++
      e.moves (nowaitStep x).req.epAddr ((nowaitStep x).req.sdesc.drop (nowaitStep x).req.swDescIdx) := by
  have hadvance : (nowaitStep x).req.epAddr = advance e x.req.epAddr (total (part e x.req x.ring.ring)) :=
    transferBuild_epAddr _ _ _
  rw [drop_nowaitStep, moves_append, hadvance]

theorem nowaitLoop_counted (hlen : ∀ d ∈ x.req.sdesc, d.len < 2 ^ 32) (hx : x.ring.Counted)
    (hroom : x.ring.ring.descUsed + x.req.nents ≤ e.descMax) : (nowaitLoop accept x).2.ring.Counted := by
  fun_induction nowaitLoop accept x with
  | case1 x hlt _ _ ih =>
    have hle := (descCount_le x.req x.ring.ring).1
    have hstep := hx.init hlt hlen (by rw [Request.nents] at hroom; omega)
    apply ih hlen hstep
    rw [nents_nowaitStep]
    change x.ring.ring.descUsed + descCount e x.req x.ring.ring + _ ≤ _
    rw [Request.nents] at *
    omega
  | case2 x hlt _ _ =>
    have hle := (descCount_le x.req x.ring.ring).1
    exact hx.init hlt hlen (by rw [Request.nents] at hroom; omega)
  | case3 => exact hx
  | case4 => exact hx

theorem nowaitLoop_built (h : (nowaitLoop accept x).1 = some (-eiocbqueued)) :
    ∃ ps, (nowaitLoop accept x).2.ring.built = x.ring.built ++ ps ∧ (nowaitLoop accept x).2.tferIdx = x.tferIdx + ps.length ∧
      ps.flatMap Built.moves = e.moves x.req.epAddr (x.req.sdesc.drop x.req.swDescIdx) ∧ ∀ p ∈ ps, p.Sized := by
  fun_induction nowaitLoop accept x with
  | case1 x hlt _ _ ih =>
    obtain ⟨ps, hbuilt, hidx, hmoves, hsized⟩ := ih h
    refine ⟨x.ring.build x.req :: ps, ?_, ?_, ?_, List.forall_mem_cons.mpr ⟨sized_build _ _, hsized⟩⟩
    · rw [hbuilt]
      exact List.append_assoc _ _ _
    · rw [hidx, List.length_cons]
      change x.tferIdx + 1 + _ = _
      omega
    · rw [List.flatMap_cons, hmoves, moves_nowaitStep x]
      rfl
  | case2 => exact absurd h eiocbqueued_ne
  | case3 => exact absurd h none_ne_eiocbqueued
  | case4 x hge =>
    refine ⟨[], (List.append_nil _).symm, rfl, ?_, List.forall_mem_nil _⟩
    rw [List.drop_of_length_le (by omega)]
    rfl

theorem nowaitLoop_tferIdx (hx : x.tferIdx ≤ tferMax) : (nowaitLoop accept x).2.tferIdx ≤ tferMax := by
  fun_induction nowaitLoop accept x with
  | case1 x _ hlt _ ih => exact ih hlt
  | case2 x _ hlt _ => exact hlt
  | case3 => exact hx
  | case4 => exact hx

-- The transfers end where the ring ends: the place in the rounds of the ring at which the pieces that are left end
-- is the same after every transfer.

theorem rounds_nowaitStep (hmore : e.descMax < x.ring.ring.descIdx + x.req.nents) :
    (nowaitStep x).tferIdx * e.descMax + ((nowaitStep x).ring.ring.descIdx + (nowaitStep x).req.nents) =
      x.tferIdx * e.descMax + (x.ring.ring.descIdx + x.req.nents) := by
  have hlt := x.ring.ring.idx_lt
  have hnents := nents_nowaitStep x
  have hidx : (nowaitStep x).ring.ring.descIdx = (x.ring.ring.descIdx + descCount e x.req x.ring.ring) % e.descMax := rfl
  have htfer : (nowaitStep x).tferIdx = x.tferIdx + 1 := rfl
  have hcount : descCount e x.req x.ring.ring = e.descMax - x.ring.ring.descIdx := by
    obtain ⟨hfits, -⟩ | ⟨-, hcount⟩ := descCount_cases x.req x.ring.ring
    · exact absurd hmore hfits.not_gt
    · exact hcount
  rw [hcount] at hnents hidx
  rw [Nat.add_sub_cancel' hlt.le, Nat.mod_self] at hidx
  rw [htfer, hnents, hidx, Nat.succ_mul]
  omega

theorem done_nowaitStep (hfits : x.ring.ring.descIdx + x.req.nents ≤ e.descMax) :
    ¬ (nowaitStep x).req.swDescIdx < (nowaitStep x).req.sdesc.length := by
  have hnents := nents_nowaitStep x
  have hcount : descCount e x.req x.ring.ring = x.req.nents := by
    obtain ⟨-, hcount⟩ | ⟨hmore, -⟩ := descCount_cases x.req x.ring.ring
    · exact hcount
    · exact absurd hmore hfits.not_gt
  rw [hcount, Nat.sub_self, Request.nents] at hnents
  omega

theorem nowaitLoop_ne_none (h : x.tferIdx * e.descMax + (x.ring.ring.descIdx + x.req.nents) ≤ tferMax * e.descMax) :
    (nowaitLoop accept x).1 ≠ none := by
  fun_induction nowaitLoop accept x with
  | case1 x _ _ _ ih =>
    obtain hfits | hmore := le_or_gt (x.ring.ring.descIdx + x.req.nents) e.descMax
    · rw [nowaitLoop, if_neg (done_nowaitStep x hfits)]
      exact Option.some_ne_none _
    · exact ih ((rounds_nowaitStep x hmore).trans_le h)
  | case2 => exact Option.some_ne_none _
  | case3 x hlt hfull =>
    have hmul := Nat.mul_le_mul_right e.descMax (Nat.le_of_not_lt hfull)
    rw [Request.nents] at h
    omega
  | case4 => exact Option.some_ne_none _

theorem nowaitLoop_queued {accept : ℕ → Bool} (haccept : ∀ k, accept k = true) (x : Nowait e)
    (h : (nowaitLoop accept x).1 ≠ none) : (nowaitLoop accept x).1 = some (-eiocbqueued) := by
  fun_induction nowaitLoop accept x with
  | case1 _ _ _ _ ih => exact ih h
  | case2 x _ _ hk => exact absurd (haccept x.tferIdx) hk
  | case3 => exact absurd rfl h
  | case4 => rfl

end Loop

section Call

variable (b : DescBlenMax) {sgl : List SwDesc} (epAddr : Addr) (accept : ℕ → Bool) (s : Outstanding e) (hsgl : sgl ≠ [])
  (hlen : ∀ sg ∈ sgl, sg.len + b.val ≤ 2 ^ 32)
include hsgl hlen

omit hsgl hlen in
theorem sdescs_len : ∀ d ∈ sdescs b sgl, d.len < 2 ^ 32 := fun d hd =>
  ((sdescs_bounds b d hd).2.trans_lt b.lt).trans (by decide)

theorem xferSubmitNowait_eq : xferSubmitNowait b false e.dir sgl epAddr accept s =
    let y := nowaitLoop accept ⟨0, ⟨sdescs b sgl, 0, epAddr, total sgl % 2 ^ 32⟩, s⟩
    (y.1, y.2.tferIdx, y.2.ring) := by
  rw [xferSubmitNowait, if_neg Bool.false_ne_true, if_neg (not_not.mpr rfl), if_neg hsgl, initRequest_eq b hlen]

theorem xferSubmitNowait_built (h : (xferSubmitNowait b false e.dir sgl epAddr accept s).1 = some (-eiocbqueued)) :
    ∃ ps, (xferSubmitNowait b false e.dir sgl epAddr accept s).2.2.built = s.built ++ ps ∧
      ps.length = (xferSubmitNowait b false e.dir sgl epAddr accept s).2.1 ∧
      ps.flatMap Built.moves = e.moves epAddr (sdescs b sgl) ∧ ∀ p ∈ ps, p.Sized := by
  rw [xferSubmitNowait_eq b epAddr accept s hsgl hlen] at h ⊢
  obtain ⟨ps, hbuilt, hidx, hmoves, hsized⟩ := nowaitLoop_built accept _ h
  exact ⟨ps, hbuilt, (Nat.zero_add _).symm.trans hidx.symm, hmoves, hsized⟩

theorem xferSubmitNowait_counted (hs : s.Counted) (hroom : s.ring.descUsed + (sdescs b sgl).length ≤ e.descMax) :
    (xferSubmitNowait b false e.dir sgl epAddr accept s).2.2.Counted := by
  rw [xferSubmitNowait_eq b epAddr accept s hsgl hlen]
  exact nowaitLoop_counted accept _ (sdescs_len b) hs hroom

theorem xferSubmitNowait_tferIdx : (xferSubmitNowait b false e.dir sgl epAddr accept s).2.1 ≤ tferMax := by
  rw [xferSubmitNowait_eq b epAddr accept s hsgl hlen]
  exact nowaitLoop_tferIdx accept _ (Nat.zero_le _)

theorem xferSubmitNowait_ne_none (h : s.ring.descIdx + (sdescs b sgl).length ≤ tferMax * e.descMax) :
    (xferSubmitNowait b false e.dir sgl epAddr accept s).1 ≠ none := by
  rw [xferSubmitNowait_eq b epAddr accept s hsgl hlen]
  apply nowaitLoop_ne_none
  change 0 * e.descMax + (s.ring.descIdx + (sdescs b sgl).length) ≤ _
  rwa [Nat.zero_mul, Nat.zero_add]

theorem xferSubmitNowait_queued (haccept : ∀ k, accept k = true)
    (h : s.ring.descIdx + (sdescs b sgl).length ≤ tferMax * e.descMax) :
    (xferSubmitNowait b false e.dir sgl epAddr accept s).1 = some (-eiocbqueued) := by
  have hne := xferSubmitNowait_ne_none b epAddr accept s hsgl hlen h
  rw [xferSubmitNowait_eq b epAddr accept s hsgl hlen] at hne ⊢
  exact nowaitLoop_queued haccept _ hne

/-- When the transfers go in their order and `desc_used` leaves room for all pieces of a request, the engine does what
was asked for with every transfer in the ring, before and after; two transfers are enough for the request, and if it
is queued they are all of it. -/
theorem nowait_intact {r : Ring e} (hr : r.descUsed = 0) {ws : List Work}
    (hrun : Path Outstanding.CountedStep (Outstanding.idle r) ws s)
    (hroom : s.ring.descUsed + (sdescs b sgl).length ≤ e.descMax) :
    let y := xferSubmitNowait b false e.dir sgl epAddr accept s
    y.1 ≠ none ∧ (∀ p ∈ y.2.2.built, (fetched e y.2.2.ring.desc p.xfer).flatten.map Desc.move = p.moves) ∧
    (y.1 = some (-eiocbqueued) → y.2.1 ≤ 2 ∧ ∃ ps, y.2.2.built = s.built ++ ps ∧ ps.length = y.2.1 ∧
      ps.flatMap Built.moves = e.moves epAddr (sdescs b sgl)) := by
  have hs : s.Counted := Outstanding.Counted.run hr hrun
  have hlt := s.ring.idx_lt
  have hy := xferSubmitNowait_counted b epAddr accept s hsgl hlen hs hroom
  refine ⟨?_, fun p hp => (hy.inv.intact p hp).fetched, fun h => ?_⟩
  · apply xferSubmitNowait_ne_none b epAddr accept s hsgl hlen
    rw [tferMax]
    omega
  · obtain ⟨ps, hbuilt, hidx, hmoves, -⟩ := xferSubmitNowait_built b epAddr accept s hsgl hlen h
    exact ⟨xferSubmitNowait_tferIdx b epAddr accept s hsgl hlen, ps, hbuilt, hidx, hmoves⟩

omit hsgl hlen in
/-- Two pieces while two descriptors are in use. -/
theorem nowait_intact_example :
    let sgl : List SwDesc := [⟨0x5000, 8⟩, ⟨0x6000, 16⟩]
    let s := (Outstanding.idle (exampleRing .toDevice)).init exampleRequest
    let y := xferSubmitNowait exampleBlenMax false .toDevice sgl 0 (fun _ => true) s
    y.1 = some (-eiocbqueued) ∧
      (∀ p ∈ y.2.2.built, (fetched (exampleEngine .toDevice) y.2.2.ring.desc p.xfer).flatten.map Desc.move = p.moves) ∧
      ∃ ps, y.2.2.built = s.built ++ ps ∧
        ps.flatMap Built.moves = (exampleEngine .toDevice).moves 0 (sdescs exampleBlenMax sgl) := by
  intro sgl s y
  have hcount : (sdescs exampleBlenMax sgl).length = 2 := by
    rw [length_sdescs]
    decide
  have hne : sgl ≠ [] := List.cons_ne_nil _ _
  have hrun : Path Outstanding.CountedStep (Outstanding.idle (exampleRing .toDevice)) [.init exampleRequest] s :=
    .cons ⟨⟨by decide, by decide, rfl⟩, by decide⟩ .nil
  obtain ⟨-, hintact, hall⟩ := nowait_intact (e := exampleEngine .toDevice) exampleBlenMax 0 (fun _ => true) s hne
    (by decide) rfl hrun (by rw [hcount]; decide)
  have hqueued : y.1 = some (-eiocbqueued) := xferSubmitNowait_queued (e := exampleEngine .toDevice) exampleBlenMax 0
    (fun _ => true) s hne (by decide) (fun _ => rfl) (by rw [hcount]; decide)
  obtain ⟨-, ps, hbuilt, -, hmoves⟩ := hall hqueued
  exact ⟨hqueued, hintact, ps, hbuilt, hmoves⟩

end Call

section Completion

section Sized

variable {ps : List Built} (hps : ∀ p ∈ ps, p.Sized)
include hps

theorem descNums_eq : Outstanding.descNums ps = (ps.flatMap Built.moves).length := by
  induction ps with
  | nil => rfl
  | cons p ps ih =>
    rw [List.flatMap_cons, List.length_append, ← ih fun q hq => hps q (List.mem_cons_of_mem _ hq),
      ← (hps p List.mem_cons_self).2]
    rfl

end Sized

end Completion

end EmbeddedAccelerator.Xdma
