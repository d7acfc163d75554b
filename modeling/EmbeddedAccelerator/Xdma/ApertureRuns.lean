import EmbeddedAccelerator.Xdma.Apertures

/-!
Whole calls of `xdma_xfer_aperture`: right as long as one transfer is enough. The next one begins with the first entry of
the scatter list again.
-/

namespace EmbeddedAccelerator.Xdma

open Copying (Move Window total addresses)

variable {b : DescBlenMax} {e : Engine}

theorem ApertureLoop.unique {outcomes : ℕ → Outcome} {k : ℕ} {x y z : ApertureSubmission e}
    (h : ApertureLoop b outcomes k x y) (h' : ApertureLoop b outcomes k x z) : z = y := by
  induction h with
  | finished hx =>
    cases h' with
    | finished => rfl
    | left hx' => exact absurd hx' hx
    | next hx' => exact absurd hx' hx
  | left hx hnum ho =>
    cases h' with
    | finished hx' => exact absurd hx hx'
    | left => rfl
    | next _ _ ho' => exact absurd ho' ho
  | next hx hnum ho _ ih =>
    cases h' with
    | finished hx' => exact absurd hx hx'
    | left _ _ ho' => exact absurd ho ho'
    | next _ _ _ rest => exact ih rest

theorem made_apertureStep (o : Outcome) (x : ApertureSubmission e) :
    (apertureStep b o x).made = x.made ++
      o.progress ((fetched e (apertureInit b x.req x.ring).2.2.desc (apertureInit b x.req x.ring).1).flatten.map Desc.move) := by
  cases o with
  | refused => exact (List.append_nil _).symm
  | completed | failed _ _ | timedOut _ _ => rfl

theorem ApertureSubmission.result_of_pos {x : ApertureSubmission e} (hx : 0 < x.done) : x.result = x.done := if_pos hx.ne'

theorem result_neg {o : Outcome} (ho : o ≠ .completed) {x : ApertureSubmission e} (hx : x.done = 0) :
    (apertureStep b o x).result < 0 := by
  cases o with
  | completed => exact absurd rfl ho
  | refused => exact (if_neg (not_not.mpr hx)).trans_lt (Int.negSucc_lt_zero 15)
  | failed _ _ => exact (if_neg (not_not.mpr hx)).trans_lt (Int.negSucc_lt_zero 4)
  | timedOut _ _ => exact (if_neg (not_not.mpr hx)).trans_lt (Int.negSucc_lt_zero 511)

section Call

variable {sgl : List SwDesc} {epAddr : Addr} {aperture : ℕ} (hsgl : ∀ sg ∈ sgl, 0 < sg.len) (hne : sgl ≠ [])
  (htotal : total sgl < 2 ^ 32) (hpos : 0 < aperture) (hlt : aperture < 2 ^ 32)
  (hfits : epAddr.toNat + 2 * aperture ≤ 2 ^ 64) (ring : Ring e)
include hsgl hne htotal hlt hfits

theorem apertureInit_whole (b : DescBlenMax)
    (hroom : (((apertureSubmission sgl epAddr aperture ring).req.window b hpos).cutAll 0 sgl).length ≤
      e.descMax - ring.descIdx) :
    let x := apertureSubmission sgl epAddr aperture ring
    let t := apertureInit b x.req x.ring
    t.1.descNum ≠ 0 ∧ t.1.len = total sgl ∧ t.2.1.offset = total sgl ∧
      (fetched e t.2.2.desc t.1).flatten.map Desc.move = ((x.req.window b hpos).cutAll 0 sgl).map (asked e.dir) := by
  let x := apertureSubmission sgl epAddr aperture ring
  have hstart : AtPlace (x.req.window b hpos) 0 x.req.start := by
    left
    change epAddr + BitVec.ofNat 64 (0 &&& _) = epAddr + ((0 % aperture : ℕ) : Addr)
    rw [Nat.zero_and, Nat.zero_mod]
    rfl
  have hsg : x.req.sg.take (x.req.sg.length - x.req.sgIdx) = sgl ++ [] := by
    rw [List.append_nil]
    exact List.take_length
  have htotal' : x.req.offset + total sgl < 2 ^ 32 := (Nat.zero_add _).trans_lt htotal
  obtain ⟨-, hnum, hlen, hreq, -, hmoves⟩ := apertureInit_eq (r := x.ring) hpos hlt hfits hsg hsgl hne rfl hstart hroom
    (.inl rfl) htotal'
  refine ⟨hnum, hlen, ?_, hmoves⟩
  rw [hreq]
  exact Nat.zero_add _

/-- If one transfer is enough, the bytes of the scatter list go to or come from the addresses of the window, one
after the other and round and round, and their number is returned; if that transfer does not complete, an error is. -/
theorem aperture_copies (b : DescBlenMax)
    (hroom : (((apertureSubmission sgl epAddr aperture ring).req.window b hpos).cutAll 0 sgl).length ≤
      e.descMax - ring.descIdx) (outcomes : ℕ → Outcome) :
    ∃ xs : List (Move Addr Addr), addresses (Move.sources xs) = addresses sgl ∧
      addresses (Move.targets xs) = (List.range (total sgl)).map (fun k => epAddr + ((k % aperture : ℕ) : Addr)) ∧
      ∃ y, ApertureLoop b outcomes 0 (apertureSubmission sgl epAddr aperture ring) y ∧
        (∀ z, ApertureLoop b outcomes 0 (apertureSubmission sgl epAddr aperture ring) z → z = y) ∧
        y.made = (outcomes 0).progress (xs.map (asked e.dir)) ∧
        if outcomes 0 = .completed then y.result = total sgl ∧ y.ring.descUsed = ring.descUsed else y.result < 0 := by
  let x := apertureSubmission sgl epAddr aperture ring
  let xs := (x.req.window b hpos).cutAll 0 sgl
  obtain ⟨hnum, hlen, hoffset, hmoves⟩ := apertureInit_whole hsgl hne htotal hpos hlt hfits ring b hroom
  obtain ⟨hsources, htargets⟩ := (x.req.window b hpos).addresses_cutAll 0 sgl
  simp only [Nat.zero_add] at htargets
  have hmade (o : Outcome) : (apertureStep b o x).made = o.progress (xs.map (asked e.dir)) := by
    rw [made_apertureStep]
    exact congrArg o.progress hmoves
  have hpositive : 0 < total sgl := Copying.total_pos hsgl hne
  have hmod : total sgl % 2 ^ 32 = total sgl := Nat.mod_eq_of_lt htotal
  have hx : x.req.offset < x.req.totalLen := hpositive.trans_eq hmod.symm
  refine ⟨xs, hsources, htargets, ?_⟩
  by_cases ho : outcomes 0 = .completed
  · have hdone : ¬ (apertureStep b .completed x).req.offset < (apertureStep b .completed x).req.totalLen := by
      change ¬ (apertureInit b x.req x.ring).2.1.offset < total sgl % 2 ^ 32
      rw [hoffset, hmod]
      exact lt_irrefl _
    have hresult : (apertureStep b .completed x).done = total sgl := (Nat.zero_add _).trans hlen
    have hrun : ApertureLoop b outcomes 0 x _ := .next hx hnum ho (.finished hdone)
    refine ⟨_, hrun, fun z hz => hrun.unique hz, ?_, ?_⟩
    · rw [ho]
      exact hmade .completed
    · rw [if_pos ho]
      refine ⟨?_, Nat.add_sub_cancel _ _⟩
      rw [ApertureSubmission.result_of_pos (hpositive.trans_eq hresult.symm), hresult]
  · have hrun : ApertureLoop b outcomes 0 x _ := .left hx hnum ho
    refine ⟨_, hrun, fun z hz => hrun.unique hz, hmade _, ?_⟩
    rw [if_neg ho]
    exact result_neg ho rfl

end Call

section Pages

variable {L a : ℕ}

theorem cutAll_pages {w : Window Addr} (hL : 0 < L) (hmost : L ≤ w.most) (hdvd : L ∣ w.size) {ss : List SwDesc}
    (hss : ∀ sg ∈ ss, sg.len = L) {pos : ℕ} (hin : L ∣ pos) :
    w.cutAll pos ss = ss.mapIdx fun i sg => ⟨sg.addr, w.place (pos + i * L), L⟩ := by
  induction ss generalizing pos with
  | nil => rfl
  | cons sg ss ih =>
    have hlen := hss sg List.mem_cons_self
    have hfit : pos % w.size + L ≤ w.size := by
      have hmod : L ∣ pos % w.size := (Nat.dvd_mod_iff hdvd).mpr hin
      have hlt := Nat.mod_lt pos w.size_pos
      obtain ⟨m, hm⟩ := hmod
      obtain ⟨n, hn⟩ := hdvd
      rw [hm] at hlt ⊢
      rw [hn] at hlt ⊢
      have hmn : m < n := Nat.lt_of_mul_lt_mul_left hlt
      calc L * m + L = L * (m + 1) := (Nat.mul_succ L m).symm
        _ ≤ L * n := Nat.mul_le_mul_left L hmn
    rw [Window.cutAll, hlen, w.cut_of_le hL.ne' hmost hfit, ih (fun sg hsg => hss sg (List.mem_cons_of_mem _ hsg))
      (Nat.dvd_add hin (dvd_refl L)), List.mapIdx_cons, Nat.zero_mul, Nat.add_zero]
    refine congrArg _ (congrArg (fun f => List.mapIdx f ss) ?_)
    funext i sg
    rw [Nat.succ_mul, Nat.add_assoc, Nat.add_comm L]

theorem total_pages {ss : List SwDesc} (hss : ∀ sg ∈ ss, sg.len = L) : total ss = ss.length * L := by
  induction ss with
  | nil => exact (Nat.zero_mul L).symm
  | cons sg ss ih =>
    rw [Copying.total_cons, hss sg List.mem_cons_self, ih fun sg hsg => hss sg (List.mem_cons_of_mem _ hsg),
      List.length_cons, Nat.succ_mul, Nat.add_comm]

variable {sgl : List SwDesc} {epAddr : Addr} (hL : 0 < L) (hsgl : ∀ sg ∈ sgl, sg.len = L) (htotal : total sgl < 2 ^ 32)
  (ha : a < 32) (hdvd : L ∣ 2 ^ a) (hmost : L ≤ b.val) (hfits : epAddr.toNat + 2 * 2 ^ a ≤ 2 ^ 64)

/-- The request after `k` entries. -/
def pageRequest (sgl : List SwDesc) (epAddr : Addr) (a L k : ℕ) : ApertureRequest :=
  ⟨sgl, k, 0, epAddr, 2 ^ a, k * L, sgl.length * L⟩

/-- How many entries the next transfer takes. -/
def pageCount (e : Engine) (r : Ring e) (n : ℕ) : ℕ := min (e.descMax - r.descIdx) n

/-- What the entries of a transfer that begins after `k` entries are copied to. -/
def pageMoves (dir : Dir) (epAddr : Addr) (a L k : ℕ) (ss : List SwDesc) : List (Move Addr Addr) :=
  ss.mapIdx fun i sg => asked dir ⟨sg.addr, epAddr + (((k + i) * L % 2 ^ a : ℕ) : Addr), L⟩

theorem asked_src (dir : Dir) {x y : Move Addr Addr} (h : asked dir x = asked dir y) : x.src = y.src := by
  cases dir with
  | toDevice => exact congrArg Move.src h
  | fromDevice => exact congrArg Move.dst h

theorem pageMoves_append (dir : Dir) (epAddr : Addr) (a L k : ℕ) (ss ss' : List SwDesc) :
    pageMoves dir epAddr a L k (ss ++ ss') = pageMoves dir epAddr a L k ss ++ pageMoves dir epAddr a L (k + ss.length) ss' := by
  rw [pageMoves, List.mapIdx_append]
  refine congrArg _ (congrArg (fun f => List.mapIdx f ss') ?_)
  funext i sg
  rw [Nat.add_assoc, Nat.add_comm i]

theorem atPlace_pageRequest (ha : a < 32) (k : ℕ) (hpos : 0 < 2 ^ a) :
    AtPlace ((pageRequest sgl epAddr a L k).window b hpos) (k * L) (pageRequest sgl epAddr a L k).start := by
  left
  have hpow : 2 ^ a ≤ 2 ^ 31 := Nat.pow_le_pow_right (by decide) (by omega)
  have hmask : (2 ^ a + 2 ^ 32 - 1) % 2 ^ 32 = 2 ^ a - 1 := by omega
  change epAddr + BitVec.ofNat 64 (k * L &&& (2 ^ a + 2 ^ 32 - 1) % 2 ^ 32) = epAddr + ((k * L % 2 ^ a : ℕ) : Addr)
  rw [hmask, Nat.and_two_pow_sub_one_eq_mod]
  rfl

variable (sgl epAddr) in
theorem cutAll_pageRequest (hL : 0 < L) (hmost : L ≤ b.val) (hdvd : L ∣ 2 ^ a) (k : ℕ) (hpos : 0 < 2 ^ a) {ss : List SwDesc}
    (hss : ∀ sg ∈ ss, sg.len = L) :
    (((pageRequest sgl epAddr a L k).window b hpos).cutAll (k * L) ss).length = ss.length ∧
      ∀ dir, (((pageRequest sgl epAddr a L k).window b hpos).cutAll (k * L) ss).map (asked dir) =
        pageMoves dir epAddr a L k ss := by
  let w := (pageRequest sgl epAddr a L k).window b hpos
  have hcut : w.cutAll (k * L) ss = ss.mapIdx fun i sg => ⟨sg.addr, w.place (k * L + i * L), L⟩ :=
    cutAll_pages hL (le_min (Nat.le_of_dvd hpos hdvd) hmost) hdvd hss (Nat.dvd_mul_left L k)
  rw [hcut]
  refine ⟨List.length_mapIdx, fun dir => ?_⟩
  rw [pageMoves]
  apply List.ext_getElem
  · simp
  · intro i hi hi'
    rw [List.getElem_map, List.getElem_mapIdx, List.getElem_mapIdx, Nat.add_mul]
    rfl

theorem pageMoves_iff {dir : Dir} (hnodup : (sgl.map Copying.Piece.addr).Nodup) {c : ℕ} (hpos : 0 < c) (hle : c ≤ sgl.length)
    {rest : List (Move Addr Addr)}
    (hhead : rest.head? = if c < sgl.length then (pageMoves dir epAddr a L c sgl).head? else none) :
    pageMoves dir epAddr a L 0 (sgl.take c) ++ rest = pageMoves dir epAddr a L 0 sgl ↔ c = sgl.length := by
  constructor
  · intro heq
    by_contra hc
    have hlt : c < sgl.length := by omega
    have hlength : 0 < sgl.length := hpos.trans hlt
    have hsplit := pageMoves_append dir epAddr a L 0 (sgl.take c) (sgl.drop c)
    rw [List.take_append_drop, List.length_take, Nat.min_eq_left hle, Nat.zero_add] at hsplit
    rw [hsplit] at heq
    rw [if_pos hlt, List.append_cancel_left heq, pageMoves, pageMoves, List.head?_mapIdx, List.head?_mapIdx,
      List.head?_drop, List.head?_eq_getElem?, List.getElem?_eq_getElem hlt, List.getElem?_eq_getElem hlength] at hhead
    have haddr : sgl[c].addr = sgl[0].addr := asked_src dir (Option.some.inj hhead)
    have hbound : c < (sgl.map Copying.Piece.addr).length := by simpa using hlt
    have hbound₀ : 0 < (sgl.map Copying.Piece.addr).length := by simpa using hlength
    have hsame : (sgl.map Copying.Piece.addr)[c] = (sgl.map Copying.Piece.addr)[0] := by simpa using haddr
    exact hpos.ne' (hnodup.getElem_inj_iff.mp hsame)
  · intro hall
    rw [hall, if_neg (lt_irrefl _)] at hhead
    rw [List.head?_eq_none_iff.mp hhead, List.append_nil, hall, List.take_length]

include hL hsgl htotal ha hdvd hmost hfits

theorem apertureInit_pages (r : Ring e) {k : ℕ} (hk : k < sgl.length) :
    let t := apertureInit b (pageRequest sgl epAddr a L k) r
    let c := pageCount e r (sgl.length - k)
    t.1.descNum ≠ 0 ∧ t.1.len = c * L ∧ t.2.1 = pageRequest sgl epAddr a L (k + c) ∧
      (fetched e t.2.2.desc t.1).flatten.map Desc.move = pageMoves e.dir epAddr a L k (sgl.take c) := by
  have hidx := r.idx_lt
  obtain ⟨c, hc⟩ : ∃ c, c = pageCount e r (sgl.length - k) := ⟨_, rfl⟩
  have hcle : c ≤ e.descMax - r.descIdx ∧ c ≤ sgl.length - k ∧ 0 < c ∧
      (c = sgl.length - k ∨ c = e.descMax - r.descIdx) := by
    rw [pageCount] at hc
    omega
  have hpow : 2 ^ a ≤ 2 ^ 31 := Nat.pow_le_pow_right (by decide) (by omega)
  have hpos : 0 < 2 ^ a := Nat.two_pow_pos a
  have hlen : (sgl.take c).length = c := by
    rw [List.length_take]
    omega
  have htake : ∀ sg ∈ sgl.take c, sg.len = L := fun sg hsg => hsgl sg (List.mem_of_mem_take hsg)
  obtain ⟨hcutlen, hcut⟩ := cutAll_pageRequest sgl epAddr hL hmost hdvd k hpos htake
  rw [hlen] at hcutlen
  have hsum : total (sgl.take c) = c * L := by rw [total_pages htake, hlen]
  have hmul : (k + c) * L ≤ sgl.length * L := Nat.mul_le_mul_right L (by omega)
  rw [total_pages hsgl] at htotal
  have hsg : sgl.take (sgl.length - k) = sgl.take c ++ (sgl.take (sgl.length - k)).drop c := by
    conv_lhs => rw [← List.take_append_drop c (sgl.take (sgl.length - k)), List.take_take, Nat.min_eq_left hcle.2.1]
  have hend : (sgl.take (sgl.length - k)).drop c = [] ∨ c = e.descMax - r.descIdx := by
    rw [List.drop_eq_nil_iff, List.length_take]
    omega
  have hoffset : k * L + total (sgl.take c) < 2 ^ 32 := by
    rw [hsum, ← Nat.add_mul]
    omega
  have hne : sgl.take c ≠ [] := by
    rw [ne_eq, ← List.length_eq_zero_iff, hlen]
    omega
  obtain ⟨-, hnum, htlen, hreq, -, hmoves⟩ := @apertureInit_eq b e (pageRequest sgl epAddr a L k) hpos
    (show 2 ^ a < 2 ^ 32 by omega) hfits r _ _ _ hsg (fun sg hsg => by rw [htake sg hsg]; exact hL) hne rfl
    (atPlace_pageRequest ha k hpos) (hcutlen.trans_le hcle.1) (by rw [hcutlen]; exact hend) hoffset
  rw [← hc]
  refine ⟨hnum, htlen.trans hsum, ?_, hmoves.trans (hcut e.dir)⟩
  rw [hreq, hlen, hsum]
  change (⟨sgl, k + c, 0, epAddr, 2 ^ a, k * L + c * L, sgl.length * L⟩ : ApertureRequest) = _
  rw [← Nat.add_mul]
  rfl

theorem exists_run_pages {k : ℕ} {x : ApertureSubmission e} (hk : k ≤ sgl.length)
    (hx : x.req = pageRequest sgl epAddr a L k) (t : ℕ) :
    ∃ y rest, ApertureLoop b (fun _ => .completed) t x y ∧ y.done = x.done + (sgl.length - k) * L ∧
      y.made = x.made ++ rest ∧ rest.head? = if k < sgl.length then (pageMoves e.dir epAddr a L k sgl).head? else none := by
  generalize hn : sgl.length - k = n
  induction n using Nat.strong_induction_on generalizing k x t with
  | _ n ih =>
    obtain hend | hlt := hk.eq_or_lt
    · refine ⟨x, [], .finished ?_, ?_, (List.append_nil _).symm, (if_neg hend.not_lt).symm⟩
      · rw [hx, hend]
        exact lt_irrefl _
      · rw [← hn, hend, Nat.sub_self, Nat.zero_mul, Nat.add_zero]
    · obtain ⟨hnum, hlen, hreq, hmoves⟩ := apertureInit_pages hL hsgl htotal ha hdvd hmost hfits x.ring hlt
      obtain ⟨c, hc⟩ : ∃ c, c = pageCount e x.ring (sgl.length - k) := ⟨_, rfl⟩
      have hidx := x.ring.idx_lt
      have hcle : 0 < c ∧ k + c ≤ sgl.length := by
        rw [pageCount] at hc
        omega
      rw [← hc] at hlen hreq hmoves
      rw [← hx] at hnum hlen hreq hmoves
      obtain ⟨y, rest, hrun, hdone, hmade, -⟩ := ih (sgl.length - (k + c)) (by omega) hcle.2
        (x := apertureStep b .completed x) hreq (t + 1) rfl
      have hmade' := made_apertureStep (b := b) .completed x
      rw [show Outcome.progress _ .completed = _ from hmoves] at hmade'
      refine ⟨y, pageMoves e.dir epAddr a L k (sgl.take c) ++ rest, .next ?_ hnum rfl hrun, ?_, ?_, ?_⟩
      · rw [hx]
        exact Nat.mul_lt_mul_of_pos_right hlt hL
      · rw [hdone, ← hn]
        change x.done + (apertureInit b x.req x.ring).1.len + _ = _
        rw [hlen, Nat.add_assoc, ← Nat.add_mul]
        congr 2
        omega
      · rw [hmade, hmade', List.append_assoc]
      · have hhead : (pageMoves e.dir epAddr a L k (sgl.take c)).head? = (pageMoves e.dir epAddr a L k sgl).head? := by
          rw [pageMoves, pageMoves, List.head?_mapIdx, List.head?_mapIdx, List.head?_take, if_neg hcle.1.ne']
        rw [if_pos hlt, List.head?_append, hhead, pageMoves, List.head?_mapIdx]
        obtain ⟨sg, ss, rfl⟩ := List.exists_cons_of_ne_nil (List.ne_nil_of_length_pos (by omega : 0 < sgl.length))
        rfl

variable (e b) in
/-- A request of pages, all of whose transfers complete, returns its length in any case; but its pages have been
copied to their places if and only if the ring has had room for all of them up to its end. -/
theorem aperture_pages (hne : sgl ≠ [])
    (hnodup : (sgl.map Copying.Piece.addr).Nodup) (ring : Ring e) :
    ∃ y, ApertureLoop b (fun _ => .completed) 0 (apertureSubmission sgl epAddr (2 ^ a) ring) y ∧
      (∀ z, ApertureLoop b (fun _ => .completed) 0 (apertureSubmission sgl epAddr (2 ^ a) ring) z → z = y) ∧
      y.result = total sgl ∧
      (y.made = pageMoves e.dir epAddr a L 0 sgl ↔ sgl.length ≤ e.descMax - ring.descIdx) := by
  let x := apertureSubmission sgl epAddr (2 ^ a) ring
  have hlength : 0 < sgl.length := List.length_pos_iff.mpr hne
  have hx : x.req = pageRequest sgl epAddr a L 0 := by
    change (⟨sgl, 0, 0, epAddr, 2 ^ a, 0, total sgl % 2 ^ 32⟩ : ApertureRequest) = _
    rw [Nat.mod_eq_of_lt htotal, total_pages hsgl, pageRequest, Nat.zero_mul]
  obtain ⟨hnum, hlen, hreq, hmoves⟩ := apertureInit_pages hL hsgl htotal ha hdvd hmost hfits x.ring hlength
  obtain ⟨c, hc⟩ : ∃ c, c = pageCount e x.ring (sgl.length - 0) := ⟨_, rfl⟩
  have hidx := ring.idx_lt
  have hcle : 0 < c ∧ c ≤ sgl.length ∧ (sgl.length ≤ e.descMax - ring.descIdx ↔ c = sgl.length) := by
    have hmin : c = min (e.descMax - ring.descIdx) (sgl.length - 0) := hc
    omega
  rw [← hc, ← hx, Nat.zero_add] at hreq
  rw [← hc, ← hx] at hlen hmoves
  rw [← hx] at hnum
  obtain ⟨y, rest, hrun, hdone, hmade, hhead⟩ := exists_run_pages hL hsgl htotal ha hdvd hmost hfits hcle.2.1
    (x := apertureStep b .completed x) hreq 1
  have hmade' : (apertureStep b .completed x).made = pageMoves e.dir epAddr a L 0 (sgl.take c) := by
    rw [made_apertureStep]
    exact hmoves
  have hfirst : x.req.offset < x.req.totalLen := by
    rw [hx]
    change 0 * L < sgl.length * L
    exact Nat.mul_lt_mul_of_pos_right hlength hL
  have hwhole := ApertureLoop.next hfirst hnum rfl hrun
  refine ⟨y, hwhole, fun z hz => hwhole.unique hz, ?_, ?_⟩
  · have htotal' : y.done = total sgl := by
      rw [hdone, total_pages hsgl]
      change 0 + (apertureInit b x.req x.ring).1.len + _ = _
      rw [hlen, Nat.zero_add, ← Nat.add_mul, Nat.add_sub_cancel' hcle.2.1]
    have hpositive : 0 < total sgl := by
      rw [total_pages hsgl]
      exact Nat.mul_pos hlength hL
    rw [ApertureSubmission.result_of_pos (hpositive.trans_eq htotal'.symm), htotal']
  · rw [hcle.2.2, hmade, hmade']
    exact pageMoves_iff hnodup hcle.1 hcle.2.1 hhead

end Pages

/-- A window of one page, and a window of four pages with a request for which the ring has no room. -/
def examplePages : List SwDesc := [⟨0x3000, 4096⟩, ⟨0x9000, 4096⟩, ⟨0x5000, 4096⟩]

theorem aperture_copies_example : ∃ y, ApertureLoop exampleBlenMax (fun _ => .completed) 0
    (apertureSubmission (examplePages.take 2) 0x2000 4096 (exampleRing .toDevice)) y ∧ y.result = 8192 := by
  have hcut := @cutAll_pages 4096
    ((apertureSubmission (examplePages.take 2) 0x2000 4096 (exampleRing .toDevice)).req.window exampleBlenMax (by decide))
    (by decide) (by decide) (by decide) (examplePages.take 2) (by decide) 0 (by decide)
  obtain ⟨-, -, -, y, hrun, -, -, hresult⟩ := @aperture_copies (exampleEngine .toDevice) (examplePages.take 2) 0x2000 4096
    (by decide) (by decide) (by decide) (by decide) (by decide) (by decide) (exampleRing .toDevice) exampleBlenMax
    (by rw [hcut]; decide) (fun _ => .completed)
  exact ⟨y, hrun, hresult.1⟩

theorem aperture_pages_example : ∃ y, ApertureLoop exampleBlenMax (fun _ => .completed) 0
    (apertureSubmission examplePages 0x4000 (2 ^ 14) (exampleRing .toDevice)) y ∧ y.result = 12288 ∧
      y.made ≠ pageMoves .toDevice 0x4000 14 4096 0 examplePages := by
  obtain ⟨y, hrun, -, hresult, hmade⟩ := @aperture_pages exampleBlenMax (exampleEngine .toDevice) 4096 14 examplePages
    0x4000 (by decide) (by decide) (by decide) (by decide) (by decide) (by decide) (by decide) (by decide) (by decide)
    (exampleRing .toDevice)
  exact ⟨y, hrun, hresult, fun heq => absurd (hmade.mp heq) (by decide)⟩

end EmbeddedAccelerator.Xdma
