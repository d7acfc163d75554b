import EmbeddedAccelerator.Copying.Windows
import EmbeddedAccelerator.Xdma.Submissions

/-!
`xdma_xfer_aperture`: a request to a window of the card that its addresses go round in. It builds its transfers from
the scatter list itself.
-/

namespace EmbeddedAccelerator.Xdma

open Copying (Move Window total addresses)

section Model

/-- The fields of `struct xdma_request_cb` that are used for an aperture. -/
structure ApertureRequest where
  sg : List SwDesc
  sgIdx : ℕ
  sgOffset : ℕ
  epAddr : Addr
  aperture : ℕ
  offset : ℕ
  totalLen : ℕ

/-- The variables of the loops over the entries. A move of `sets` stands for a call of `xdma_desc_set`: the
address on the bus, the one on the card, and the length. -/
structure ApertureBuild where
  sets : List (Move Addr Addr)
  epAddr : Addr
  sgOffset : ℕ
  offset : ℕ
  len : ℕ

variable (b : DescBlenMax) (req : ApertureRequest)

def ApertureRequest.epAddrMax : Addr := req.epAddr + BitVec.ofNat 64 req.aperture - 1

def ApertureRequest.maxlen : ℕ := min req.aperture b.val

/-- The loop over the bytes of an entry, with `room` descriptors up to the end of the ring. What is left of the entry
comes with its result. -/
def apertureEntry : ℕ → Addr → ℕ → ApertureBuild → ℕ × ApertureBuild
  | 0, _, tlen, f => (tlen, f)
  | room + 1, addr, tlen, f =>
    if tlen = 0 then (tlen, f)
    else
      let len := min tlen (req.maxlen b)
      let epAddr := if f.epAddr > req.epAddrMax then req.epAddr else f.epAddr
      let len :=
        if epAddr + BitVec.ofNat 64 len > req.epAddrMax then (req.epAddrMax - epAddr + 1).toNat % 2 ^ 32 else len
      apertureEntry room (addr + (len : Addr)) (tlen - len)
        { sets := f.sets ++ [⟨addr, epAddr, len⟩]
          epAddr := epAddr + (len : Addr)
          sgOffset := (f.sgOffset + len) % 2 ^ 32
          offset := (f.offset + len) % 2 ^ 32
          len := (f.len + len) % 2 ^ 32 }

/-- The loop over the entries: the index of the next one comes with its result. -/
def apertureEntries (room : ℕ) : List SwDesc → ℕ → ApertureBuild → ℕ × ApertureBuild
  | [], i, f => (i, f)
  | sg :: sgs, i, f =>
    if f.sets.length < room then
      let tlen := if f.sgOffset ≠ 0 then (sg.len + 2 ^ 32 - f.sgOffset) % 2 ^ 32 else sg.len
      let addr := if f.sgOffset ≠ 0 then sg.addr + (f.sgOffset : Addr) else sg.addr
      let r := apertureEntry b req (room - f.sets.length) addr tlen f
      if r.1 = 0 then apertureEntries room sgs (i + 1) { r.2 with sgOffset := 0 } else (i, r.2)
    else (i, f)

variable {e : Engine}

/-- The calls of `xdma_desc_set`. -/
def setDescs (e : Engine) (start : ℕ) (sets : List (Move Addr Addr)) : (ℕ → Desc) → ℕ → Desc :=
  forDesc start sets.length fun i d =>
    match sets[i]? with
    | some x => descSet x.src x.dst x.len e.dir d
    | none => d

/-- Every descriptor shows the next one, and the last one ends the chain. -/
def linkDescs (e : Engine) (start count : ℕ) (desc : ℕ → Desc) : ℕ → Desc :=
  let desc := forDesc start (count - 1) (fun i d =>
    { d with
      nextLo := pciDmaL (e.bus (start + i + 1))
      nextHi := pciDmaH (e.bus (start + i + 1))
      control := descMagic }) desc
  Function.update desc (start + (count - 1))
    { desc (start + (count - 1)) with
      nextLo := 0
      nextHi := 0
      control := descMagic ||| descStopped ||| descEop ||| descCompleted }

/-- Where the next transfer begins. -/
def ApertureRequest.start : Addr :=
  req.epAddr + BitVec.ofNat 64 (req.offset &&& (req.aperture + 2 ^ 32 - 1) % 2 ^ 32)

/-- The calls for the next transfer. The entries are taken from the first one on, as many as are left. -/
def apertureFill (req : ApertureRequest) (r : Ring e) : ℕ × ApertureBuild :=
  apertureEntries b req (e.descMax - r.descIdx) (req.sg.take (req.sg.length - req.sgIdx)) req.sgIdx
    { sets := []
      epAddr := req.start
      sgOffset := req.sgOffset
      offset := req.offset
      len := 0 }

/-- The transfer that is built next, with the request and the ring after it. -/
def apertureInit (req : ApertureRequest) (r : Ring e) : Transfer × ApertureRequest × Ring e :=
  let f := apertureFill b req r
  let count := f.2.sets.length
  ({ dir := e.dir
     descIndex := r.descIdx
     descBus := e.bus r.descIdx
     descAdjacent := count
     descNum := count
     descCmplTh := count
     len := f.2.len },
    { req with sgIdx := f.1, sgOffset := f.2.sgOffset, offset := f.2.offset },
    { desc := fillAdjacent r.descIdx count (linkDescs e r.descIdx count (setDescs e r.descIdx f.2.sets r.desc))
      descIdx := (r.descIdx + count) % e.descMax
      descUsed := r.descUsed + count
      idx_lt := nextIdx_lt e _ })

/-- The variables of the call, with the ring and the copies that the engine has made. -/
structure ApertureSubmission (e : Engine) where
  ring : Ring e
  req : ApertureRequest
  made : List (Move Addr Addr)
  done : ℕ
  rv : ℤ

/-- One transfer that ends in the way `o`. -/
def apertureStep (o : Outcome) (x : ApertureSubmission e) : ApertureSubmission e :=
  let t := apertureInit b x.req x.ring
  let made := x.made ++ o.progress ((fetched e t.2.2.desc t.1).flatten.map Desc.move)
  match o with
  | .refused => { x with req := t.2.1, ring := t.2.2, rv := -ebusy }
  | .completed =>
    { req := t.2.1, ring := transferDestroy t.1 t.2.2, made := made, done := x.done + t.1.len, rv := 0 }
  | .failed _ _ => { x with req := t.2.1, ring := transferDestroy t.1 t.2.2, made := made, rv := -eio }
  | .timedOut _ _ => { x with req := t.2.1, ring := transferDestroy t.1 t.2.2, made := made, rv := -erestartsys }

/-- The loop of the call. A transfer without descriptors is not one of its runs: the loop that links them writes
far beyond the ring then. -/
inductive ApertureLoop (outcomes : ℕ → Outcome) : ℕ → ApertureSubmission e → ApertureSubmission e → Prop
  | finished {k : ℕ} {x : ApertureSubmission e} (hx : ¬ x.req.offset < x.req.totalLen) : ApertureLoop outcomes k x x
  | left {k : ℕ} {x : ApertureSubmission e} (hx : x.req.offset < x.req.totalLen)
    (hnum : (apertureInit b x.req x.ring).1.descNum ≠ 0) (ho : outcomes k ≠ .completed) :
    ApertureLoop outcomes k x (apertureStep b (outcomes k) x)
  | next {k : ℕ} {x y : ApertureSubmission e} (hx : x.req.offset < x.req.totalLen)
    (hnum : (apertureInit b x.req x.ring).1.descNum ≠ 0) (ho : outcomes k = .completed)
    (rest : ApertureLoop outcomes (k + 1) (apertureStep b .completed x) y) : ApertureLoop outcomes k x y

/-- The call before its first transfer. -/
def apertureSubmission (sgl : List SwDesc) (epAddr : Addr) (aperture : ℕ) (ring : Ring e) : ApertureSubmission e :=
  ⟨ring, ⟨sgl, 0, 0, epAddr, aperture, 0, total sgl % 2 ^ 32⟩, [], 0, 0⟩

def ApertureSubmission.result (x : ApertureSubmission e) : ℤ := if x.done ≠ 0 then (x.done : ℤ) else x.rv

end Model

/-- The window of a request. -/
def ApertureRequest.window (b : DescBlenMax) (req : ApertureRequest) (h : 0 < req.aperture) : Window Addr :=
  ⟨req.epAddr, req.aperture, req.maxlen b, h, lt_min h b.pos⟩

section Build

variable {b : DescBlenMax} {req : ApertureRequest} (hpos : 0 < req.aperture)
  (hfits : req.epAddr.toNat + 2 * req.aperture ≤ 2 ^ 64)

/-- Where the next byte goes; after the last address of the window, the driver has not gone back yet. -/
def AtPlace (w : Window Addr) (pos : ℕ) (epAddr : Addr) : Prop :=
  epAddr = w.place pos ∨ pos % w.size = 0 ∧ epAddr = w.base + (w.size : Addr)

include hpos hfits

theorem toNat_epAddr_add {n : ℕ} (hn : n < 2 * req.aperture) :
    (req.epAddr + (n : Addr)).toNat = req.epAddr.toNat + n := by
  rw [BitVec.natCast_eq_ofNat, BitVec.toNat_add, BitVec.toNat_ofNat, Nat.mod_eq_of_lt (a := n) (by omega),
    Nat.mod_eq_of_lt (by omega)]

theorem toNat_epAddrMax : req.epAddrMax.toNat = req.epAddr.toNat + req.aperture - 1 := by
  have hend : (req.epAddr + BitVec.ofNat 64 req.aperture).toNat = req.epAddr.toNat + req.aperture :=
    toNat_epAddr_add hpos hfits (by omega)
  have hle : (1 : Addr) ≤ req.epAddr + BitVec.ofNat 64 req.aperture := by
    rw [BitVec.le_def, hend]
    change 1 ≤ _
    omega
  rw [ApertureRequest.epAddrMax, BitVec.toNat_sub_of_le hle, hend]
  rfl

theorem toNat_place (pos : ℕ) :
    ((req.window b hpos).place pos).toNat = req.epAddr.toNat + pos % req.aperture := by
  have hlt : pos % req.aperture < req.aperture := Nat.mod_lt pos hpos
  exact toNat_epAddr_add (n := pos % req.aperture) hpos hfits (by omega)

theorem AtPlace.back {pos : ℕ} {epAddr : Addr} (h : AtPlace (req.window b hpos) pos epAddr) :
    (if epAddr > req.epAddrMax then req.epAddr else epAddr) = (req.window b hpos).place pos := by
  have hlt := Nat.mod_lt pos hpos
  have hmax := toNat_epAddrMax hpos hfits
  obtain rfl | ⟨hzero, rfl⟩ := h
  · have hplace := toNat_place (b := b) hpos hfits pos
    apply if_neg
    rw [gt_iff_lt, BitVec.lt_def, hmax, hplace]
    omega
  · have hend : (req.epAddr + (req.aperture : Addr)).toNat = _ := toNat_epAddr_add hpos hfits (by omega)
    have hgt : (req.window b hpos).base + ((req.window b hpos).size : Addr) > req.epAddrMax := by
      change req.epAddr + (req.aperture : Addr) > _
      rw [gt_iff_lt, BitVec.lt_def, hmax, hend]
      omega
    rw [if_pos hgt, Window.place, hzero, Nat.cast_zero, add_zero]
    rfl

theorem len_eq (hlt : req.aperture < 2 ^ 32) (pos tlen : ℕ) :
    (if (req.window b hpos).place pos + BitVec.ofNat 64 (min tlen (req.maxlen b)) > req.epAddrMax
      then (req.epAddrMax - (req.window b hpos).place pos + 1).toNat % 2 ^ 32 else min tlen (req.maxlen b)) =
      (req.window b hpos).step pos tlen := by
  have hmod := Nat.mod_lt pos hpos
  have hmax := toNat_epAddrMax hpos hfits
  have hplace := toNat_place (b := b) hpos hfits pos
  have hmaxlen : req.maxlen b ≤ req.aperture := Nat.min_le_left _ _
  have hend : ((req.window b hpos).place pos + BitVec.ofNat 64 (min tlen (req.maxlen b))).toNat =
      req.epAddr.toNat + (pos % req.aperture + min tlen (req.maxlen b)) := by
    have hsum : (req.window b hpos).place pos + BitVec.ofNat 64 (min tlen (req.maxlen b)) =
        req.epAddr + ((pos % req.aperture + min tlen (req.maxlen b) : ℕ) : Addr) := by
      rw [Nat.cast_add, ← add_assoc]
      rfl
    rw [hsum]
    exact toNat_epAddr_add hpos hfits (by omega)
  have hle : (req.window b hpos).place pos ≤ req.epAddrMax := by
    rw [BitVec.le_def, hmax, hplace]
    omega
  have hrest : (req.epAddrMax - (req.window b hpos).place pos + 1).toNat = req.aperture - pos % req.aperture := by
    rw [BitVec.toNat_add, BitVec.toNat_sub_of_le hle, hmax, hplace]
    change (_ + 1) % 2 ^ 64 = _
    omega
  have hstep : (req.window b hpos).step pos tlen = min (min tlen (req.maxlen b)) (req.aperture - pos % req.aperture) := rfl
  rw [hstep]
  split_ifs with hc
  · rw [gt_iff_lt, BitVec.lt_def, hmax, hend] at hc
    rw [hrest, Nat.mod_eq_of_lt (by omega)]
    omega
  · rw [gt_iff_lt, BitVec.lt_def, hmax, hend] at hc
    omega

omit hpos hfits in
theorem AtPlace.next {w : Window Addr} {pos n : ℕ} (hn : pos % w.size + n ≤ w.size) :
    AtPlace w (pos + n) (w.place pos + (n : Addr)) := by
  obtain hlt | heq := Nat.lt_or_eq_of_le hn
  · exact .inl (w.place_add hlt).symm
  · refine .inr ⟨?_, ?_⟩
    · rw [Nat.add_mod, ← Nat.mod_mod pos, ← Nat.add_mod, heq, Nat.mod_self]
    · rw [Window.place, add_assoc, ← Nat.cast_add, heq]

/-- The calls `xs` have been made. -/
structure Advanced (w : Window Addr) (f g : ApertureBuild) (pos : ℕ) (xs : List (Move Addr Addr)) : Prop where
  sets : g.sets = f.sets ++ xs
  epAddr : AtPlace w (pos + Move.count xs) g.epAddr
  offset : g.offset = f.offset + Move.count xs
  len : g.len = f.len + Move.count xs

theorem apertureEntry_succ (hlt : req.aperture < 2 ^ 32) {pos tlen n : ℕ} {f : ApertureBuild}
    (hf : AtPlace (req.window b hpos) pos f.epAddr) (htlen : tlen ≠ 0) (hn : n = (req.window b hpos).step pos tlen)
    (room : ℕ) (addr : Addr) :
    apertureEntry b req (room + 1) addr tlen f = apertureEntry b req room (addr + (n : Addr)) (tlen - n)
      ⟨f.sets ++ [⟨addr, (req.window b hpos).place pos, n⟩], (req.window b hpos).place pos + (n : Addr),
        (f.sgOffset + n) % 2 ^ 32, (f.offset + n) % 2 ^ 32, (f.len + n) % 2 ^ 32⟩ := by
  rw [apertureEntry, if_neg htlen]
  dsimp only
  rw [hf.back hpos hfits, len_eq hpos hfits hlt, hn]

theorem apertureEntry_eq (hlt : req.aperture < 2 ^ 32) (room : ℕ) (addr : Addr) {tlen pos : ℕ} {f : ApertureBuild}
    (hf : AtPlace (req.window b hpos) pos f.epAddr) (hoffset : f.offset + tlen < 2 ^ 32) (hlen : f.len + tlen < 2 ^ 32) :
    let xs := ((req.window b hpos).cut addr pos tlen).take room
    (apertureEntry b req room addr tlen f).1 + Move.count xs = tlen ∧
      Advanced (req.window b hpos) f (apertureEntry b req room addr tlen f).2 pos xs := by
  induction room generalizing addr tlen pos f with
  | zero => exact ⟨rfl, (List.append_nil _).symm, hf, rfl, rfl⟩
  | succ room ih =>
    by_cases htlen : tlen = 0
    · rw [apertureEntry, if_pos htlen, htlen, Window.cut, if_pos rfl]
      exact ⟨rfl, (List.append_nil _).symm, hf, rfl, rfl⟩
    · obtain ⟨n, hn⟩ : ∃ n, n = (req.window b hpos).step pos tlen := ⟨_, rfl⟩
      obtain ⟨-, hle, -, hin⟩ := (req.window b hpos).step_bounds pos htlen
      have hsucc := apertureEntry_succ hpos hfits hlt hf htlen hn room addr
      rw [← hn] at hle hin
      obtain ⟨hleft, hsets, hepAddr, hoffset', hlen'⟩ := @ih (addr + (n : Addr)) (tlen - n) (pos + n)
        ⟨f.sets ++ [⟨addr, (req.window b hpos).place pos, n⟩], (req.window b hpos).place pos + (n : Addr),
          (f.sgOffset + n) % 2 ^ 32, f.offset + n, f.len + n⟩ (AtPlace.next hin) (by dsimp only; omega) (by dsimp only; omega)
      rw [hsucc, Window.cut, if_neg htlen, List.take_succ_cons, ← hn, Nat.mod_eq_of_lt (a := f.offset + n) (by omega),
        Nat.mod_eq_of_lt (a := f.len + n) (by omega)]
      have hcount (xs : List (Move Addr Addr)) : Move.count (⟨addr, (req.window b hpos).place pos, n⟩ :: xs) = n + Move.count xs :=
        Move.count_cons _ xs
      refine ⟨?_, ?_, ?_, ?_, ?_⟩
      · rw [hcount]
        omega
      · rw [hsets, List.append_assoc]
        rfl
      · rw [hcount, ← Nat.add_assoc]
        exact hepAddr
      · rw [hoffset', hcount, ← Nat.add_assoc]
      · rw [hlen', hcount, ← Nat.add_assoc]

theorem apertureEntries_append (hlt : req.aperture < 2 ^ 32) (room : ℕ) {ss : List SwDesc} (hss : ∀ sg ∈ ss, 0 < sg.len)
    (ss' : List SwDesc) (i : ℕ) {pos : ℕ} {f : ApertureBuild} (hf : AtPlace (req.window b hpos) pos f.epAddr)
    (hsg : f.sgOffset = 0) (hroom : f.sets.length + ((req.window b hpos).cutAll pos ss).length ≤ room)
    (hoffset : f.offset + total ss < 2 ^ 32) (hlen : f.len + total ss < 2 ^ 32) :
    ∃ g, apertureEntries b req room (ss ++ ss') i f = apertureEntries b req room ss' (i + ss.length) g ∧
      g.sgOffset = 0 ∧ Advanced (req.window b hpos) f g pos ((req.window b hpos).cutAll pos ss) := by
  induction ss generalizing i pos f with
  | nil => exact ⟨f, rfl, hsg, (List.append_nil _).symm, hf, rfl, rfl⟩
  | cons sg ss ih =>
    rw [Window.cutAll, List.length_append] at hroom
    rw [Copying.total_cons] at hoffset hlen
    have hsgpos := hss sg List.mem_cons_self
    have hcut : 0 < ((req.window b hpos).cut sg.addr pos sg.len).length := by
      rw [Window.cut, if_neg hsgpos.ne']
      exact Nat.succ_pos _
    have hcount := (req.window b hpos).count_cut sg.addr pos sg.len
    obtain ⟨hleft, hadv⟩ := apertureEntry_eq hpos hfits hlt (room - f.sets.length) sg.addr hf (show f.offset + sg.len < 2 ^ 32 by omega)
      (by omega)
    rw [List.take_of_length_le (by omega)] at hleft hadv
    let g : ApertureBuild := { (apertureEntry b req (room - f.sets.length) sg.addr sg.len f).2 with sgOffset := 0 }
    have hstep : apertureEntries b req room (sg :: (ss ++ ss')) i f = apertureEntries b req room (ss ++ ss') (i + 1) g := by
      rw [apertureEntries, if_pos (by omega)]
      simp only [hsg, ne_eq, not_true_eq_false, if_false]
      exact if_pos (by omega)
    have hepAddr := hadv.epAddr
    have hsets : g.sets = f.sets ++ (req.window b hpos).cut sg.addr pos sg.len := hadv.sets
    have hgoffset : g.offset = f.offset + sg.len := by rw [← hcount]; exact hadv.offset
    have hglen : g.len = f.len + sg.len := by rw [← hcount]; exact hadv.len
    rw [hcount] at hepAddr
    obtain ⟨g', hg', hsg', hadv'⟩ := @ih (fun sg hsg => hss sg (List.mem_cons_of_mem _ hsg)) (i + 1) (pos + sg.len) g hepAddr
      rfl (by rw [hsets, List.length_append]; omega) (by omega) (by omega)
    refine ⟨g', ?_, hsg', ?_, ?_, ?_, ?_⟩
    · rw [List.cons_append, hstep, hg', List.length_cons, Nat.add_assoc, Nat.add_comm 1]
    · rw [hadv'.sets, hsets, List.append_assoc, Window.cutAll]
    · rw [Window.cutAll, Move.count_append, hcount, ← Nat.add_assoc]
      exact hadv'.epAddr
    · rw [hadv'.offset, hgoffset, Window.cutAll, Move.count_append, hcount, Nat.add_assoc]
    · rw [hadv'.len, hglen, Window.cutAll, Move.count_append, hcount, Nat.add_assoc]

end Build

section Ring

variable {e : Engine} {start n : ℕ} {desc : ℕ → Desc} {sets : List (Move Addr Addr)}

/-- The copy that a call of `xdma_desc_set` asks for. -/
def asked (dir : Dir) (x : Move Addr Addr) : Move Addr Addr :=
  match dir with
  | .toDevice => x
  | .fromDevice => ⟨x.dst, x.src, x.len⟩

theorem setDescs_apply {i : ℕ} (hi : i < sets.length) : setDescs e start sets desc (start + i) =
    descSet sets[i].src sets[i].dst sets[i].len e.dir (desc (start + i)) := by
  have hin : start ≤ start + i ∧ start + i < start + sets.length := by omega
  rw [setDescs, forDesc, if_pos hin, Nat.add_sub_cancel_left, List.getElem?_eq_getElem hi]

theorem linkDescs_apply (e : Engine) (start : ℕ) (desc : ℕ → Desc) {i : ℕ} (hi : i < n) :
    let d := linkDescs e start n desc (start + i)
    d.nextLo = pciDmaL (nextBus e start n i) ∧ d.nextHi = pciDmaH (nextBus e start n i) ∧
      d.move = (desc (start + i)).move ∧
      d.control = if i + 1 = n then descMagic ||| (descStopped ||| descEop ||| descCompleted) else descMagic := by
  by_cases hlast : i + 1 = n
  · have heq : start + i = start + (n - 1) := by omega
    have hdesc : forDesc start (n - 1) (fun i d =>
        { d with
          nextLo := pciDmaL (e.bus (start + i + 1))
          nextHi := pciDmaH (e.bus (start + i + 1))
          control := descMagic }) desc (start + (n - 1)) = desc (start + (n - 1)) := if_neg (by omega)
    rw [linkDescs, nextBus, if_neg (by omega), if_pos hlast, heq, Function.update_self, hdesc]
    exact ⟨rfl, rfl, rfl, rfl⟩
  · have hne : start + i ≠ start + (n - 1) := by omega
    have hin : start ≤ start + i ∧ start + i < start + (n - 1) := by omega
    rw [linkDescs, Function.update_of_ne hne, forDesc, if_pos hin, nextBus, if_pos (by omega), if_neg hlast,
      Nat.add_sub_cancel_left]
    exact ⟨rfl, rfl, rfl, rfl⟩

theorem fillAdjacent_linkDescs {i : ℕ} (hi : i < n) :
    let d := fillAdjacent start n (linkDescs e start n desc) (start + i)
    d.stopped = decide (i + 1 = n) ∧ d.next = nextBus e start n i ∧
      d.nextAdjacent = getNextAdj (n - i - 1) (pciDmaL (nextBus e start n i)) ∧ d.move = (desc (start + i)).move := by
  obtain ⟨hlo, hhi, hmove, hcontrol⟩ := linkDescs_apply e start desc hi
  have hfresh : Fresh (linkDescs e start n desc (start + i)).control := by
    rw [hcontrol]
    split_ifs
    · exact .inr (.inl rfl)
    · exact .inl rfl
  obtain ⟨hstopped, hnext, hadjacent, hmove'⟩ := fillAdjacent_apply (linkDescs e start n desc) hi hfresh hlo hhi
  refine ⟨hstopped.trans ?_, hnext, hadjacent, hmove'.trans hmove⟩
  rw [Desc.stopped, hcontrol]
  by_cases hlast : i + 1 = n
  · rw [if_pos hlast, decide_eq_true hlast]
    rfl
  · rw [if_neg hlast, decide_eq_false hlast]
    rfl

theorem move_descSet_asked {x : Move Addr Addr} (h : x.len < 2 ^ 32) (dir : Dir) (d : Desc) :
    (descSet x.src x.dst x.len dir d).move = asked dir x := by
  rw [move_descSet _ _ h]
  cases dir <;> rfl

theorem fetched_linkDescs (desc : ℕ → Desc) (hpos : 0 < sets.length) (hring : start + sets.length ≤ e.descMax)
    (hlen : ∀ x ∈ sets, x.len < 2 ^ 32) (x : Transfer) (hbus : x.descBus = e.bus start)
    (hadjacent : x.descAdjacent = sets.length) (hnum : x.descNum = sets.length) :
    (fetched e (fillAdjacent start sets.length (linkDescs e start sets.length (setDescs e start sets desc))) x).flatten.map
      Desc.move = sets.map (asked e.dir) := by
  have hchain : Chained e (fillAdjacent start sets.length (linkDescs e start sets.length (setDescs e start sets desc)))
      start sets.length :=
    ⟨fun _ hi => (fillAdjacent_linkDescs hi).1, fun _ hi => (fillAdjacent_linkDescs hi).2.1,
      fun _ hi => (fillAdjacent_linkDescs hi).2.2.1⟩
  rw [(hchain.fetched hring hpos hbus hadjacent hnum).1, List.range'_eq_map_range, List.map_map]
  apply List.ext_getElem
  · simp
  · intro i hi hi'
    rw [List.length_map] at hi'
    rw [List.getElem_map, List.getElem_map, List.getElem_range, Function.comp_apply, (fillAdjacent_linkDescs hi').2.2.2,
      setDescs_apply hi', move_descSet_asked (hlen _ (List.getElem_mem hi'))]

end Ring

section Step

variable {b : DescBlenMax} {e : Engine} {req : ApertureRequest} (hpos : 0 < req.aperture)
  (hlt : req.aperture < 2 ^ 32) (hfits : req.epAddr.toNat + 2 * req.aperture ≤ 2 ^ 64)

include hpos hlt hfits

theorem apertureFill_eq {r : Ring e} {ss ss' : List SwDesc} {pos : ℕ}
    (hsg : req.sg.take (req.sg.length - req.sgIdx) = ss ++ ss') (hss : ∀ sg ∈ ss, 0 < sg.len)
    (hoff : req.sgOffset = 0) (hstart : AtPlace (req.window b hpos) pos req.start)
    (hroom : ((req.window b hpos).cutAll pos ss).length ≤ e.descMax - r.descIdx)
    (hend : ss' = [] ∨ ((req.window b hpos).cutAll pos ss).length = e.descMax - r.descIdx)
    (htotal : req.offset + total ss < 2 ^ 32) :
    ∃ f, apertureFill b req r = (req.sgIdx + ss.length, f) ∧ f.sets = (req.window b hpos).cutAll pos ss ∧
      f.sgOffset = 0 ∧ f.offset = req.offset + total ss ∧ f.len = total ss := by
  let f : ApertureBuild := ⟨[], req.start, req.sgOffset, req.offset, 0⟩
  have hcount : Move.count ((req.window b hpos).cutAll pos ss) = total ss := (req.window b hpos).count_cutAll pos ss
  obtain ⟨g, hg, hgoff, hadv⟩ := apertureEntries_append (f := f) hpos hfits hlt (e.descMax - r.descIdx) hss ss' req.sgIdx
    hstart hoff (by rw [List.length_nil, Nat.zero_add]; exact hroom) htotal (by rw [Nat.zero_add]; omega)
  have hsets : g.sets = (req.window b hpos).cutAll pos ss := hadv.sets
  refine ⟨g, ?_, hsets, hgoff, ?_, ?_⟩
  · refine (congrArg (fun l => apertureEntries b req (e.descMax - r.descIdx) l req.sgIdx f) hsg).trans (hg.trans ?_)
    obtain rfl | hfull := hend
    · rfl
    · cases ss' with
      | nil => rfl
      | cons sg ss' => exact if_neg (by rw [hsets]; exact hfull.not_lt)
  · rw [← hcount]
    exact hadv.offset
  · rw [← hcount, ← Nat.zero_add (Move.count _)]
    exact hadv.len

theorem apertureInit_eq {r : Ring e} {ss ss' : List SwDesc} {pos : ℕ}
    (hsg : req.sg.take (req.sg.length - req.sgIdx) = ss ++ ss') (hss : ∀ sg ∈ ss, 0 < sg.len) (hne : ss ≠ [])
    (hoff : req.sgOffset = 0) (hstart : AtPlace (req.window b hpos) pos req.start)
    (hroom : ((req.window b hpos).cutAll pos ss).length ≤ e.descMax - r.descIdx)
    (hend : ss' = [] ∨ ((req.window b hpos).cutAll pos ss).length = e.descMax - r.descIdx)
    (htotal : req.offset + total ss < 2 ^ 32) :
    let t := apertureInit b req r
    t.1.descNum = ((req.window b hpos).cutAll pos ss).length ∧ t.1.descNum ≠ 0 ∧ t.1.len = total ss ∧
      t.2.1 = { req with sgIdx := req.sgIdx + ss.length, offset := req.offset + total ss } ∧
      t.2.2.descIdx = (r.descIdx + t.1.descNum) % e.descMax ∧
      (fetched e t.2.2.desc t.1).flatten.map Desc.move = ((req.window b hpos).cutAll pos ss).map (asked e.dir) := by
  let xs := (req.window b hpos).cutAll pos ss
  have hring := r.idx_lt
  obtain ⟨g, hfill, hsets, hgoff, hgoffset, hglen⟩ := apertureFill_eq hpos hlt hfits hsg hss hoff hstart hroom hend htotal
  have hlen : ∀ x ∈ xs, x.len < 2 ^ 32 := by
    intro x hx
    have hle := Move.len_le_count hx
    have hcount : Move.count xs = total ss := (req.window b hpos).count_cutAll pos ss
    omega
  have hxs : 0 < xs.length := (req.window b hpos).length_cutAll_pos pos hss hne
  have hnum : (apertureInit b req r).1.descNum = xs.length := by
    change (apertureFill b req r).2.sets.length = _
    rw [hfill, hsets]
  have hdesc : (apertureInit b req r).2.2.desc =
      fillAdjacent r.descIdx xs.length (linkDescs e r.descIdx xs.length (setDescs e r.descIdx xs r.desc)) := by
    change fillAdjacent r.descIdx (apertureFill b req r).2.sets.length (linkDescs e r.descIdx
      (apertureFill b req r).2.sets.length (setDescs e r.descIdx (apertureFill b req r).2.sets r.desc)) = _
    rw [hfill, hsets]
  have hend : r.descIdx + xs.length ≤ e.descMax := by
    have hroom : xs.length ≤ e.descMax - r.descIdx := hroom
    omega
  have hfetched := fetched_linkDescs r.desc hxs hend hlen (apertureInit b req r).1 rfl hnum hnum
  rw [← hdesc] at hfetched
  refine ⟨hnum, hnum.trans_ne hxs.ne', ?_, ?_, rfl, hfetched⟩
  · change (apertureFill b req r).2.len = _
    rw [hfill, hglen]
  · change { req with
      sgIdx := (apertureFill b req r).1
      sgOffset := (apertureFill b req r).2.sgOffset
      offset := (apertureFill b req r).2.offset } = _
    rw [hfill, hgoffset, hgoff, ← hoff]

end Step

end EmbeddedAccelerator.Xdma
