import EmbeddedAccelerator.Clocked.Transitions
import EmbeddedAccelerator.Copying.Rings
import EmbeddedAccelerator.Xdma.Submissions

/-!
The transfers that are in the ring of an engine at the same time. Requests that nobody waits for are built one after the
other, and their transfers go in any order. `transfer_init` does not look at how much of the ring is in use: as long as
there is room, no transfer touches another one, and without room it takes the first descriptor of the oldest one.
-/

namespace EmbeddedAccelerator.Xdma

open Copying (Move ahead apart)
open Clocked (Path)

/-- A transfer that has been built, what it is to copy, and how many descriptors had been given out before. -/
structure Built where
  xfer : Transfer
  moves : List (Move Addr Addr)
  start : ℕ

/-- The ring of an engine and what is in it, the oldest transfer first. -/
structure Outstanding (e : Engine) where
  ring : Ring e
  given : ℕ
  built : List Built

/-- What happens to the ring: a transfer is built, or the `k`-th of those in it goes. -/
inductive Work where
  | init (req : Request)
  | destroy (k : ℕ)

variable {e : Engine}

namespace Outstanding

def idle (r : Ring e) : Outstanding e := ⟨r, r.descIdx, []⟩

def build (req : Request) (s : Outstanding e) : Built :=
  ⟨(transferInit e req s.ring).1, e.moves req.epAddr (part e req s.ring), s.given⟩

def init (req : Request) (s : Outstanding e) : Outstanding e :=
  { ring := (transferInit e req s.ring).2.2
    given := s.given + descCount e req s.ring
    built := s.built ++ [s.build req] }

def destroy (p : Built) (k : ℕ) (s : Outstanding e) : Outstanding e :=
  { s with
    ring := transferDestroy p.xfer s.ring
    built := s.built.eraseIdx k }

/-- A transfer is built for a request of which something is left. -/
def Step (s : Outstanding e) (w : Work) (t : Outstanding e) : Prop :=
  match w with
  | .init req => req.swDescIdx < req.sdesc.length ∧ (∀ d ∈ req.sdesc, d.len < 2 ^ 32) ∧ t = s.init req
  | .destroy k => ∃ p, s.built[k]? = some p ∧ t = s.destroy p k

/-- The oldest transfer leaves room for `n` descriptors. -/
def Room (s : Outstanding e) (n : ℕ) : Prop :=
  ∀ p ∈ s.built.head?, ahead e.descMax p.xfer.descIndex s.ring.descIdx + n ≤ e.descMax

/-- The check that is missing in `transfer_init`. -/
def RoomyStep (s : Outstanding e) (w : Work) (t : Outstanding e) : Prop :=
  s.Step w t ∧ ∀ req, w = .init req → s.Room (descCount e req s.ring)

end Outstanding

def Built.Covers (p : Built) (k : ℕ) : Prop := p.xfer.descIndex ≤ k ∧ k < p.xfer.descIndex + p.xfer.descNum

/-- Where a transfer is in the ring, and that it is as it has been built. -/
structure Built.Intact (desc : ℕ → Desc) (e : Engine) (p : Built) : Prop where
  index : p.xfer.descIndex = p.start % e.descMax
  bus : p.xfer.descBus = e.bus p.xfer.descIndex
  adjacent : p.xfer.descAdjacent = p.xfer.descNum
  pos : 0 < p.xfer.descNum
  fits : p.xfer.descIndex + p.xfer.descNum ≤ e.descMax
  chained : Chained e desc p.xfer.descIndex p.xfer.descNum
  moves : (List.range' p.xfer.descIndex p.xfer.descNum).map (fun k => (desc k).move) = p.moves

/-- The transfers are one round of the ring apart at most. -/
structure Outstanding.Inv (s : Outstanding e) : Prop where
  idx : s.ring.descIdx = s.given % e.descMax
  intact : ∀ p ∈ s.built, p.Intact s.ring.desc e
  range : ∀ p ∈ s.built, p.start + p.xfer.descNum ≤ s.given ∧ s.given ≤ p.start + e.descMax
  order : s.built.Pairwise fun p q => p.start + p.xfer.descNum ≤ q.start

section Intact

variable {desc desc' : ℕ → Desc} {p : Built}

theorem Built.Intact.congr (h : p.Intact desc e)
    (hdesc : ∀ i < p.xfer.descNum, desc' (p.xfer.descIndex + i) = desc (p.xfer.descIndex + i)) : p.Intact desc' e := by
  refine { h with chained := ⟨?_, ?_, ?_⟩, moves := ?_ }
  · intro i hi
    rw [hdesc i hi, h.chained.stopped i hi]
  · intro i hi
    rw [hdesc i hi, h.chained.next i hi]
  · intro i hi
    rw [hdesc i hi, h.chained.adjacent i hi]
  · rw [← h.moves]
    apply List.map_congr_left
    intro k hk
    obtain ⟨hle, hlt⟩ := List.mem_range'_1.mp hk
    obtain ⟨i, rfl⟩ := Nat.exists_eq_add_of_le hle
    rw [hdesc i (by omega)]

theorem Built.Intact.fetched (h : p.Intact desc e) : (Xdma.fetched e desc p.xfer).flatten.map Desc.move = p.moves :=
  (h.chained.fetched h.fits h.pos h.bus h.adjacent rfl).1.trans h.moves

end Intact

namespace Outstanding

theorem Inv.idle (r : Ring e) : (idle r).Inv where
  idx := (Nat.mod_eq_of_lt r.idx_lt).symm
  intact _ hp := absurd hp List.not_mem_nil
  range _ hp := absurd hp List.not_mem_nil
  order := List.Pairwise.nil

variable {s t : Outstanding e} (h : s.Inv)
include h

theorem Inv.room_iff {n : ℕ} : s.Room n ↔ ∀ p ∈ s.built, s.given + n ≤ p.start + e.descMax := by
  have hahead (p : Built) (hp : p ∈ s.built) : ahead e.descMax p.xfer.descIndex s.ring.descIdx = s.given - p.start := by
    obtain ⟨h1, h2⟩ := h.range p hp
    have hpos := (h.intact p hp).pos
    rw [(h.intact p hp).index, h.idx]
    exact Copying.ahead_mod e.pos (by omega) h2 (by omega)
  cases hbuilt : s.built with
  | nil => simp [Room, hbuilt]
  | cons q qs =>
    have hq : q ∈ s.built := hbuilt ▸ List.mem_cons_self
    obtain ⟨h1, h2⟩ := h.range q hq
    have hroom : s.Room n ↔ s.given + n ≤ q.start + e.descMax := by
      simp only [Room, hbuilt, List.head?_cons, Option.mem_some_iff, forall_eq']
      rw [hahead q hq]
      omega
    rw [hroom, List.forall_mem_cons]
    refine ⟨fun hle => ⟨hle, ?_⟩, fun hle => hle.1⟩
    intro p hp
    have horder := List.rel_of_pairwise_cons (hbuilt ▸ h.order) hp
    omega

theorem Inv.init {req : Request} (hreq : req.swDescIdx < req.sdesc.length) (hlen : ∀ d ∈ req.sdesc, d.len < 2 ^ 32)
    (hroom : s.Room (descCount e req s.ring)) : (s.init req).Inv := by
  have hpos := descCount_pos s.ring hreq
  obtain ⟨-, hfits⟩ := descCount_le req s.ring
  have hroom := h.room_iff.mp hroom
  have hkept (p : Built) (hp : p ∈ s.built) : p.Intact (s.init req).ring.desc e := by
    obtain ⟨h1, h2⟩ := h.range p hp
    apply (h.intact p hp).congr
    intro i hi
    apply transferInit_of_lt hreq
    by_contra hin
    have hindex := (h.intact p hp).index
    have hk := apart (k := p.xfer.descIndex + i) e.pos (by omega) h2 h1 (hroom p hp) (by rw [← h.idx]; omega)
      (by rw [← h.idx]; omega)
    omega
  refine ⟨?_, ?_, ?_, ?_⟩
  · change (s.ring.descIdx + descCount e req s.ring) % e.descMax = (s.given + descCount e req s.ring) % e.descMax
    rw [h.idx, Nat.mod_add_mod]
  · intro p hp
    obtain hp | hp := List.mem_append.mp hp
    · exact hkept p hp
    · obtain rfl := List.mem_singleton.mp hp
      exact ⟨h.idx, rfl, rfl, hpos, hfits, chained_transferInit, moves_transferInit hlen⟩
  · intro p hp
    change p.start + _ ≤ s.given + descCount e req s.ring ∧ s.given + descCount e req s.ring ≤ _
    obtain hp | hp := List.mem_append.mp hp
    · exact ⟨by have := (h.range p hp).1; omega, hroom p hp⟩
    · obtain rfl := List.mem_singleton.mp hp
      exact ⟨le_refl _, by change s.given + _ ≤ s.given + _; omega⟩
  · apply List.pairwise_append.mpr
    refine ⟨h.order, List.pairwise_singleton _ _, ?_⟩
    intro p hp q hq
    obtain rfl := List.mem_singleton.mp hq
    exact (h.range p hp).1

theorem Inv.apart_of_le {p q : Built} (hp : p ∈ s.built) (hq : q ∈ s.built) (hpq : p.start + p.xfer.descNum ≤ q.start)
    {k : ℕ} (hk : q.Covers k) : ¬ p.Covers k := by
  have h1 := (h.range p hp).2
  have h2 := (h.range q hq).1
  rw [Built.Covers, (h.intact q hq).index] at hk
  rw [Built.Covers, (h.intact p hp).index]
  have hout := apart e.pos (by omega) (by omega) hpq (by omega : q.start + q.xfer.descNum ≤ p.start + e.descMax) hk.1 hk.2
  omega

theorem Inv.apart {p q : Built} {i j : ℕ} (hp : s.built[i]? = some p) (hq : s.built[j]? = some q) (hij : i ≠ j) {k : ℕ}
    (hk : q.Covers k) : ¬ p.Covers k := by
  have hp' := List.mem_of_getElem? hp
  have hq' := List.mem_of_getElem? hq
  obtain ⟨hi, rfl⟩ := List.getElem?_eq_some_iff.mp hp
  obtain ⟨hj, rfl⟩ := List.getElem?_eq_some_iff.mp hq
  have horder := List.pairwise_iff_getElem.mp h.order
  obtain hlt | hgt := Nat.lt_or_gt_of_ne hij
  · exact h.apart_of_le hp' hq' (horder i j hi hj hlt) hk
  · exact fun hkp => h.apart_of_le hq' hp' (horder j i hj hi hgt) hkp hk

theorem Inv.destroy {p : Built} {k : ℕ} (hp : s.built[k]? = some p) : (s.destroy p k).Inv := by
  have hsub : ∀ q ∈ s.built.eraseIdx k, q ∈ s.built := fun q hq => List.mem_of_mem_eraseIdx hq
  refine ⟨h.idx, ?_, fun q hq => h.range q (hsub q hq), h.order.sublist (List.eraseIdx_sublist _ _)⟩
  intro q hq
  obtain ⟨j, hj, hq'⟩ := List.mem_eraseIdx_iff_getElem?.mp hq
  apply (h.intact q (hsub q hq)).congr
  intro i hi
  exact if_neg (h.apart hp hq' hj.symm ⟨Nat.le_add_right _ _, by omega⟩)

theorem Inv.step {w : Work} (hstep : s.RoomyStep w t) : t.Inv := by
  obtain ⟨hw, hroom⟩ := hstep
  cases w with
  | init req =>
    obtain ⟨hreq, hlen, rfl⟩ := hw
    exact h.init hreq hlen (hroom req rfl)
  | destroy k =>
    obtain ⟨p, hp, rfl⟩ := hw
    exact h.destroy hp

theorem Inv.overlap {req : Request} (hroom : ¬ s.Room (descCount e req s.ring)) :
    ∃ p ∈ s.built.head?, ∃ i < descCount e req s.ring, p.xfer.descIndex = s.ring.descIdx + i := by
  obtain ⟨p, hp, hlt⟩ : ∃ p ∈ s.built.head?,
      ¬ ahead e.descMax p.xfer.descIndex s.ring.descIdx + descCount e req s.ring ≤ e.descMax := by
    by_contra hnone
    exact hroom fun p hp => not_not.mp fun hlt => hnone ⟨p, hp, hlt⟩
  have hmem := List.mem_of_head? hp
  obtain ⟨h1, h2⟩ := h.range p hmem
  have hpos := (h.intact p hmem).pos
  have hfits := (descCount_le req s.ring).2
  rw [(h.intact p hmem).index, h.idx, Copying.ahead_mod e.pos (by omega) h2 (by omega)] at hlt
  obtain ⟨hle, hin⟩ := Copying.overlap (m := descCount e req s.ring) e.pos (by omega : p.start ≤ s.given) h2 (by omega)
    (by rw [← h.idx]; exact hfits)
  rw [← h.idx, ← (h.intact p hmem).index] at hle hin
  exact ⟨p, hp, p.xfer.descIndex - s.ring.descIdx, by omega, by omega⟩

end Outstanding

section Begin

variable {desc : ℕ → Desc} {p : Built}

theorem Built.Intact.head?_fetched {desc' : ℕ → Desc} (h : p.Intact desc e) :
    ((Xdma.fetched e desc' p.xfer).flatten.map Desc.move).head? = some (desc' p.xfer.descIndex).move := by
  have hlt : p.xfer.descIndex < e.descMax := by
    have hpos := h.pos
    have hfits := h.fits
    omega
  have hfirst : cell e desc' (neighbour (e.bus p.xfer.descIndex) 0) = desc' p.xfer.descIndex := by
    rw [neighbour_bus]
    exact cell_bus desc' hlt
  obtain ⟨n, hn⟩ : ∃ n, p.xfer.descNum = n + 1 := ⟨p.xfer.descNum - 1, by have := h.pos; omega⟩
  rw [Xdma.fetched, h.bus, hn, Copying.followBlocks, List.range_succ_eq_map, List.map_cons, hfirst]
  split_ifs <;> rfl

theorem move_transferInit {req : Request} {r : Ring e} (hlen : ∀ d ∈ req.sdesc, d.len < 2 ^ 32) {i : ℕ}
    (hi : i < descCount e req r) :
    (e.moves req.epAddr (part e req r))[i]? = some ((transferInit e req r).2.2.desc (r.descIdx + i)).move := by
  rw [← moves_transferInit hlen, List.getElem?_map, List.getElem?_range' hi, Nat.one_mul]
  rfl

end Begin

/-- As long as each transfer that is built finds room, the engine does for every transfer in the ring what it was
built for, in whatever order they go. A transfer that is built without room takes the place of the oldest one: the
engine then begins that one with a piece of the new request. -/
theorem outstanding_intact (r : Ring e) {ws : List Work} {s : Outstanding e}
    (hrun : Path Outstanding.RoomyStep (Outstanding.idle r) ws s) :
    (∀ p ∈ s.built, (fetched e s.ring.desc p.xfer).flatten.map Desc.move = p.moves) ∧
    ∀ req : Request, req.swDescIdx < req.sdesc.length → (∀ d ∈ req.sdesc, d.len < 2 ^ 32) →
      ¬ s.Room (descCount e req s.ring) → ∃ p ∈ s.built.head?, ∃ i < (part e req s.ring).length,
        ((fetched e (s.init req).ring.desc p.xfer).flatten.map Desc.move).head? =
          (e.moves req.epAddr (part e req s.ring))[i]? := by
  have hinv : s.Inv := hrun.invariant (fun _ _ _ hs hstep => hs.step hstep) (Outstanding.Inv.idle r)
  refine ⟨fun p hp => (hinv.intact p hp).fetched, ?_⟩
  intro req hreq hlen hroom
  obtain ⟨p, hp, i, hi, hindex⟩ := hinv.overlap hroom
  refine ⟨p, hp, i, by rwa [length_part], ?_⟩
  rw [(hinv.intact p (List.mem_of_head? hp)).head?_fetched, move_transferInit hlen hi, hindex]
  rfl

/-- The ring after the two transfers of a request. -/
def exampleOutstanding : Outstanding (exampleEngine .toDevice) :=
  let s := (Outstanding.idle (exampleRing .toDevice)).init exampleRequest
  s.init (transferInit _ exampleRequest (exampleRing .toDevice)).2.1

theorem exampleOutstanding_path : Path Outstanding.RoomyStep (Outstanding.idle (exampleRing .toDevice))
    [.init exampleRequest, .init (transferInit _ exampleRequest (exampleRing .toDevice)).2.1] exampleOutstanding := by
  refine .cons ⟨⟨by decide, by decide, rfl⟩, ?_⟩ (.cons ⟨⟨by decide, by decide, rfl⟩, ?_⟩ .nil)
  · rintro _ - p hp
    exact absurd hp (by simp [Outstanding.idle])
  · rintro _ ⟨⟩ p hp
    obtain rfl := Option.mem_some_iff.mp hp
    decide

theorem outstanding_example :
    (∀ p ∈ exampleOutstanding.built,
      (fetched (exampleEngine .toDevice) exampleOutstanding.ring.desc p.xfer).flatten.map Desc.move = p.moves) ∧
    ∃ p ∈ exampleOutstanding.built.head?, ∃ i < (part _ exampleRequest exampleOutstanding.ring).length,
      ((fetched (exampleEngine .toDevice) (exampleOutstanding.init exampleRequest).ring.desc p.xfer).flatten.map
          Desc.move).head? = ((exampleEngine .toDevice).moves 0 (part _ exampleRequest exampleOutstanding.ring))[i]? := by
  obtain ⟨h1, h2⟩ := outstanding_intact (exampleRing .toDevice) exampleOutstanding_path
  refine ⟨h1, h2 exampleRequest (by decide) (by decide) fun hroom => ?_⟩
  have hlt := hroom _ (rfl : exampleOutstanding.built.head? = some _)
  exact absurd hlt (by decide)

end EmbeddedAccelerator.Xdma
