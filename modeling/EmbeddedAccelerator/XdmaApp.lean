import EmbeddedAccelerator.Clocked.BlockRam
import EmbeddedAccelerator.Clocked.Run

/-!
The way of a host burst to `Bram_A`, `Bram_B` or `Bram_C`. One controller drives the beats of all
bursts; the memory of a beat is chosen by the addresses that are on the address channels at the time.
-/

namespace EmbeddedAccelerator.XdmaApp

open Clocked (Mem)

/-- The address channels, and what the controller drives on the port of the memories. -/
structure Signals where
  awaddr : BitVec 64
  awlen : BitVec 8
  awvalid : Bool
  awready : Bool
  araddr : BitVec 64
  arlen : BitVec 8
  arvalid : Bool
  arready : Bool
  bramEn : Bool
  bramWe : BitVec 8
  bramAddr : BitVec 13
  bramWrdata : BitVec 64

def addrVal (addr : BitVec 64) : BitVec 2 := addr.extractLsb' 13 2

def waddrVal (i : Signals) : BitVec 2 := addrVal i.awaddr
def raddrVal (i : Signals) : BitVec 2 := addrVal i.araddr

/-- The net `bram_we` is not declared, so it is one bit wide. -/
def bramWe (i : Signals) : Bool := i.bramWe.getLsbD 0

def enFor (val : BitVec 2) (i : Signals) : Bool :=
  if raddrVal i = val ∨ waddrVal i = val then i.bramEn else false

def weFor (val : BitVec 2) (i : Signals) : Bool := if waddrVal i = val then bramWe i else false

def bramEnA : Signals → Bool := enFor 0#2
def bramEnB : Signals → Bool := enFor 1#2
def bramEnC : Signals → Bool := enFor 3#2

def bramWeA : Signals → Bool := weFor 0#2
def bramWeB : Signals → Bool := weFor 1#2
def bramWeC : Signals → Bool := weFor 3#2

def bramAddr1 (i : Signals) : ℕ := (i.bramAddr.extractLsb' 3 10).toNat

/-- A memory with the output register of its host port. -/
structure Bram where
  mem : Mem
  douta : BitVec 64

structure State where
  bramA : Bram
  bramB : Bram
  bramC : Bram

/-- The output of a port after a write, from the output, the old word and the new one. It depends
on the mode the memory is generated with. -/
abbrev WriteMode := BitVec 64 → BitVec 64 → BitVec 64 → BitVec 64

def Bram.clka (mode : WriteMode) (en we : Bool) (addr : ℕ) (din : BitVec 64) (m : Bram) : Bram :=
  if en then
    if we then ⟨m.mem.write addr 8 din, mode m.douta (m.mem.word addr 8) din⟩
    else ⟨m.mem, m.mem.word addr 8⟩
  else m

def step (mode : WriteMode) (i : Signals) (s : State) : State where
  bramA := s.bramA.clka mode (bramEnA i) (bramWeA i) (bramAddr1 i) i.bramWrdata
  bramB := s.bramB.clka mode (bramEnB i) (bramWeB i) (bramAddr1 i) i.bramWrdata
  bramC := s.bramC.clka mode (bramEnC i) (bramWeC i) (bramAddr1 i) i.bramWrdata

def bramRddata (i : Signals) (s : State) : BitVec 64 :=
  if raddrVal i = 0#2 then s.bramA.douta else if raddrVal i = 1#2 then s.bramB.douta else s.bramC.douta

inductive Region where
  | a | b | c
  deriving DecidableEq, Repr

namespace Region

def val : Region → BitVec 2
  | a => 0#2
  | b => 1#2
  | c => 3#2

def bram (s : State) : Region → Bram
  | a => s.bramA
  | b => s.bramB
  | c => s.bramC

theorem val_injective {r q : Region} (h : r.val = q.val) : r = q := by
  cases r <;> cases q <;> first | rfl | exact absurd h (by decide)

theorem bram_step (mode : WriteMode) (i : Signals) (s : State) (r : Region) :
    r.bram (step mode i s) =
      (r.bram s).clka mode (enFor r.val i) (weFor r.val i) (bramAddr1 i) i.bramWrdata := by
  cases r <;> rfl

end Region

open Region (bram bram_step)

/-- The memory whose output is on `bram_rddata`. -/
def selected (i : Signals) : Region :=
  if raddrVal i = 0#2 then .a else if raddrVal i = 1#2 then .b else .c

theorem bramRddata_eq (i : Signals) (s : State) : bramRddata i s = ((selected i).bram s).douta := by
  rw [bramRddata, selected]
  split_ifs <;> rfl

/-- A write beat changes its own memory only. -/
def WriteReaches (r : Region) (i : Signals) (s s' : State) : Prop :=
  ∀ q : Region, (q.bram s').mem =
    if q = r ∧ bramWe i = true then (q.bram s).mem.write (bramAddr1 i) 8 i.bramWrdata else (q.bram s).mem

/-- A read beat has the word of its own memory on `bram_rddata` in the cycle after it. -/
def ReadReaches (r : Region) (i i' : Signals) (s s' : State) : Prop :=
  bramRddata i' s' = (r.bram s).mem.word (bramAddr1 i) 8

/-- What has to be on the address channels for it. -/
def WriteLive (r : Region) (i : Signals) : Prop := bramWe i = true → waddrVal i = r.val

def ReadLive (r : Region) (i i' : Signals) : Prop :=
  (raddrVal i = r.val ∨ waddrVal i = r.val) ∧ selected i' = r

section Beat

variable (mode : WriteMode) {i : Signals} (hen : i.bramEn = true)
include hen

theorem mem_step (s : State) (q : Region) :
    (q.bram (step mode i s)).mem =
      if waddrVal i = q.val ∧ bramWe i = true then (q.bram s).mem.write (bramAddr1 i) 8 i.bramWrdata
      else (q.bram s).mem := by
  rw [bram_step, weFor, enFor, hen]
  by_cases hw : waddrVal i = q.val
  · cases hwe : bramWe i <;> simp [Bram.clka, hw]
  · simp only [Bram.clka, hw, or_false, false_and, if_false, Bool.false_eq_true]
    split_ifs <;> rfl

theorem douta_step (hwe : i.bramWe = 0) (s : State) (q : Region) :
    (q.bram (step mode i s)).douta =
      if raddrVal i = q.val ∨ waddrVal i = q.val then (q.bram s).mem.word (bramAddr1 i) 8
      else (q.bram s).douta := by
  have hw : weFor q.val i = false := by
    rw [weFor, bramWe, hwe]
    exact ite_self _
  rw [bram_step, hw, enFor, hen, Bram.clka, if_neg Bool.false_ne_true]
  by_cases hv : raddrVal i = q.val ∨ waddrVal i = q.val
  · simp only [if_pos hv, if_true]
  · simp only [if_neg hv, Bool.false_eq_true, if_false]

theorem writeReaches_iff (r : Region) : (∀ s, WriteReaches r i s (step mode i s)) ↔ WriteLive r i := by
  constructor
  · intro h hwe
    by_contra hr
    -- In a memory of other bytes the missing write shows.
    let m : Bram := ⟨fun _ => ~~~ Clocked.lane 8 i.bramWrdata 0, 0⟩
    have hq := h ⟨m, m, m⟩ r
    rw [mem_step mode hen, if_neg fun hc => hr hc.1, if_pos ⟨rfl, hwe⟩] at hq
    have hbyte := congrFun hq (8 * bramAddr1 i)
    have hm : ((r.bram ⟨m, m, m⟩).mem : Mem) = m.mem := by cases r <;> rfl
    rw [hm, Mem.write, if_pos (by omega), Nat.mul_mod_right] at hbyte
    exact absurd hbyte (by simp [m])
  · intro h s q
    rw [mem_step mode hen]
    refine if_congr (and_congr_left fun hwe => ?_) rfl rfl
    rw [h hwe]
    exact ⟨fun hv => (Region.val_injective hv).symm, fun hq => hq ▸ rfl⟩

theorem readReaches_iff (hwe : i.bramWe = 0) (r : Region) (i' : Signals) :
    (∀ s, ReadReaches r i i' s (step mode i s)) ↔ ReadLive r i i' := by
  constructor
  · intro h
    by_contra hn
    -- Only the own memory holds anything else than 0.
    let m (q : Region) : Bram := ⟨fun _ => if q = r then 1 else 0, 0⟩
    have hm (q : Region) : q.bram ⟨m .a, m .b, m .c⟩ = m q := by cases q <;> rfl
    have hread := h ⟨m .a, m .b, m .c⟩
    rw [ReadReaches, bramRddata_eq, douta_step mode hen hwe, hm, hm] at hread
    have hlane := congrArg (Clocked.lane 8 · 0) hread
    have hone : Clocked.lane 8 (Mem.word (m r).mem (bramAddr1 i) 8) 0 = 1 :=
      (Mem.lane_word (by decide)).trans (if_pos rfl)
    have hzero : Clocked.lane 8 (0 : BitVec 64) 0 = 0 := by decide
    by_cases hq : selected i' = r
    · rw [if_neg fun hval => hn ⟨hq ▸ hval, hq⟩] at hlane
      exact absurd (hzero.symm.trans (hlane.trans hone)) (by decide)
    · have hother : Clocked.lane 8 (Mem.word (m (selected i')).mem (bramAddr1 i) 8) 0 = 0 :=
        (Mem.lane_word (by decide)).trans (if_neg hq)
      split_ifs at hlane
      · exact absurd (hother.symm.trans (hlane.trans hone)) (by decide)
      · exact absurd (hzero.symm.trans (hlane.trans hone)) (by decide)
  · rintro ⟨hval, hsel⟩ s
    rw [ReadReaches, bramRddata_eq, hsel, douta_step mode hen hwe, if_pos hval]

end Beat

/-- A beat of the burst whose address handshake is in cycle `handshake`. -/
structure Beat where
  write : Bool
  handshake : ℕ
  index : ℕ

namespace Beat

variable (i : ℕ → Signals) (b : Beat)

def Handshake : Prop :=
  if b.write then (i b.handshake).awvalid = true ∧ (i b.handshake).awready = true
  else (i b.handshake).arvalid = true ∧ (i b.handshake).arready = true

def addr : BitVec 64 := if b.write then (i b.handshake).awaddr else (i b.handshake).araddr

def len : ℕ := if b.write then (i b.handshake).awlen.toNat else (i b.handshake).arlen.toNat

end Beat

/-- What the bus and the controller promise of the beats that are driven in each cycle. -/
structure Bursts (i : ℕ → Signals) (beat : ℕ → Option Beat) : Prop where
  aw_stable : ∀ t, (i t).awvalid = true → (i t).awready = false →
    (i (t + 1)).awvalid = true ∧ (i (t + 1)).awaddr = (i t).awaddr
  ar_stable : ∀ t, (i t).arvalid = true → (i t).arready = false →
    (i (t + 1)).arvalid = true ∧ (i (t + 1)).araddr = (i t).araddr
  later : ∀ t b, beat t = some b → b.Handshake i ∧ b.handshake < t ∧ b.index ≤ b.len i
  in_order : ∀ t t' b b', t < t' → beat t = some b → beat t' = some b' → b.write = b'.write →
    b.handshake < b'.handshake ∨ b.handshake = b'.handshake ∧ b.index < b'.index
  driven : ∀ t, (i t).bramEn = (beat t).isSome
  reads : ∀ t b, beat t = some b → b.write = false → (i t).bramWe = 0

/-- Every beat reaches the memory that the address of its own burst shows. -/
structure BeatsReach (i : ℕ → Signals) (beat : ℕ → Option Beat) (s : ℕ → State) : Prop where
  write : ∀ t b r, beat t = some b → b.write = true → addrVal (b.addr i) = r.val →
    WriteReaches r (i t) (s t) (s (t + 1))
  read : ∀ t b r, beat t = some b → b.write = false → addrVal (b.addr i) = r.val →
    ReadReaches r (i t) (i (t + 1)) (s t) (s (t + 1))

/-- The address channels still show the address of the burst when its beats are driven. -/
structure BeatsLive (i : ℕ → Signals) (beat : ℕ → Option Beat) : Prop where
  write : ∀ t b r, beat t = some b → b.write = true → addrVal (b.addr i) = r.val → WriteLive r (i t)
  read : ∀ t b r, beat t = some b → b.write = false → addrVal (b.addr i) = r.val →
    ReadLive r (i t) (i (t + 1))

/-- A beat finds its memory, whatever the memories hold, exactly if the live addresses show that
memory; where they do at every beat, every burst reaches its own memory. -/
theorem bursts_reach_iff (mode : WriteMode) :
    (∀ (i : Signals) (r : Region), i.bramEn = true →
      ((∀ s, WriteReaches r i s (step mode i s)) ↔ WriteLive r i)) ∧
    (∀ (i i' : Signals) (r : Region), i.bramEn = true → i.bramWe = 0 →
      ((∀ s, ReadReaches r i i' s (step mode i s)) ↔ ReadLive r i i')) ∧
    ∀ (i : ℕ → Signals) (beat : ℕ → Option Beat) (s : ℕ → State), Bursts i beat →
      Clocked.IsRun (step mode) i s → BeatsLive i beat → BeatsReach i beat s := by
  refine ⟨fun i r hen => writeReaches_iff mode hen r, fun i i' r hen hwe => readReaches_iff mode hen hwe r i',
    fun i beat s hb hs hl => ?_⟩
  have hen {t : ℕ} {b : Beat} (ht : beat t = some b) : (i t).bramEn = true := by
    rw [hb.driven, ht]
    rfl
  constructor
  · intro t b r ht hw hr
    rw [hs t]
    exact (writeReaches_iff mode (hen ht) r).mpr (hl.write t b r ht hw hr) (s t)
  · intro t b r ht hw hr
    rw [hs t]
    exact (readReaches_iff mode (hen ht) (hb.reads t b ht hw) r (i (t + 1))).mpr (hl.read t b r ht hw hr) (s t)

/-- A write of two words to `Bram_A` and, when it is over, a read of two words of `Bram_B`. -/
def twoBursts (t : ℕ) : Signals where
  awaddr := 0
  awlen := 1
  awvalid := t = 0
  awready := true
  araddr := 0x2000
  arlen := 1
  arvalid := t = 3
  arready := true
  bramEn := t = 1 ∨ t = 2 ∨ t = 4 ∨ t = 5
  bramWe := if t < 3 then 0xFF else 0
  bramAddr := if t = 2 ∨ t = 5 then 8 else 0
  bramWrdata := BitVec.ofNat 64 t

def twoBurstsBeat : ℕ → Option Beat
  | 1 => some ⟨true, 0, 0⟩
  | 2 => some ⟨true, 0, 1⟩
  | 4 => some ⟨false, 3, 0⟩
  | 5 => some ⟨false, 3, 1⟩
  | _ => none

theorem twoBurstsBeat_eq_some {t : ℕ} {b : Beat} (h : twoBurstsBeat t = some b) :
    t = 1 ∧ b = ⟨true, 0, 0⟩ ∨ t = 2 ∧ b = ⟨true, 0, 1⟩ ∨ t = 4 ∧ b = ⟨false, 3, 0⟩ ∨ t = 5 ∧ b = ⟨false, 3, 1⟩ := by
  rw [twoBurstsBeat.eq_def] at h
  split at h
  · exact .inl ⟨rfl, (Option.some.inj h).symm⟩
  · exact .inr (.inl ⟨rfl, (Option.some.inj h).symm⟩)
  · exact .inr (.inr (.inl ⟨rfl, (Option.some.inj h).symm⟩))
  · exact .inr (.inr (.inr ⟨rfl, (Option.some.inj h).symm⟩))
  · cases h

theorem bursts_twoBursts : Bursts twoBursts twoBurstsBeat where
  aw_stable t _ hr := absurd hr (by simp [twoBursts])
  ar_stable t _ hr := absurd hr (by simp [twoBursts])
  later t b h := by
    obtain ⟨rfl, rfl⟩ | ⟨rfl, rfl⟩ | ⟨rfl, rfl⟩ | ⟨rfl, rfl⟩ := twoBurstsBeat_eq_some h <;>
      exact ⟨⟨rfl, rfl⟩, by decide, by decide⟩
  in_order t t' b b' htt h h' hw := by
    obtain ⟨rfl, rfl⟩ | ⟨rfl, rfl⟩ | ⟨rfl, rfl⟩ | ⟨rfl, rfl⟩ := twoBurstsBeat_eq_some h <;>
      obtain ⟨rfl, rfl⟩ | ⟨rfl, rfl⟩ | ⟨rfl, rfl⟩ | ⟨rfl, rfl⟩ := twoBurstsBeat_eq_some h' <;>
        simp_all
  driven t := by
    rw [twoBurstsBeat.eq_def]
    split <;> simp_all [twoBursts]
  reads t b h hw := by
    obtain ⟨rfl, rfl⟩ | ⟨rfl, rfl⟩ | ⟨rfl, rfl⟩ | ⟨rfl, rfl⟩ := twoBurstsBeat_eq_some h
    · cases hw
    · cases hw
    · rfl
    · rfl

theorem beatsLive_twoBursts : BeatsLive twoBursts twoBurstsBeat where
  write t b r h hw hr := by
    obtain ⟨rfl, rfl⟩ | ⟨rfl, rfl⟩ | ⟨rfl, rfl⟩ | ⟨rfl, rfl⟩ := twoBurstsBeat_eq_some h
    · exact fun _ => hr
    · exact fun _ => hr
    · cases hw
    · cases hw
  read t b r h hw hr := by
    obtain ⟨rfl, rfl⟩ | ⟨rfl, rfl⟩ | ⟨rfl, rfl⟩ | ⟨rfl, rfl⟩ := twoBurstsBeat_eq_some h
    · cases hw
    · cases hw
    · exact ⟨.inl hr, Region.val_injective hr⟩
    · exact ⟨.inl hr, Region.val_injective hr⟩

theorem bursts_reach_twoBursts :
    let s := Clocked.run (step fun douta _ _ => douta) ⟨⟨fun _ => 0, 0⟩, ⟨fun _ => 5, 0⟩, ⟨fun _ => 0, 0⟩⟩ twoBursts
    BeatsReach twoBursts twoBurstsBeat s ∧ (s 6).bramA.mem 8 = 2 ∧ bramRddata (twoBursts 6) (s 6) = 0x0505050505050505 := by
  intro s
  obtain ⟨-, -, hreach⟩ := bursts_reach_iff fun douta _ _ => douta
  exact ⟨hreach _ _ s bursts_twoBursts (Clocked.isRun_run _ _ _) beatsLive_twoBursts, by decide, by decide⟩

/-- A burst of one beat to `Bram_A` in cycle 1, after whose handshake the address shows `Bram_B`. -/
def nextAddress (t : ℕ) : Signals where
  awaddr := if t = 0 then 0 else 0x2000
  awlen := 0
  awvalid := t = 0
  awready := true
  araddr := 0
  arlen := 0
  arvalid := false
  arready := false
  bramEn := t = 1
  bramWe := if t = 1 then 0xFF else 0
  bramAddr := 0
  bramWrdata := 1

def nextAddressBeat (t : ℕ) : Option Beat := if t = 1 then some ⟨true, 0, 0⟩ else none

theorem bursts_nextAddress : Bursts nextAddress nextAddressBeat := by
  have only {t : ℕ} {b : Beat} (h : nextAddressBeat t = some b) : t = 1 ∧ b = ⟨true, 0, 0⟩ := by
    rw [nextAddressBeat] at h
    split_ifs at h with ht
    exact ⟨ht, (Option.some.inj h).symm⟩
  constructor
  · exact fun t _ hr => absurd hr (by simp [nextAddress])
  · exact fun t hv _ => absurd hv (by simp [nextAddress])
  · intro t b h
    obtain ⟨rfl, rfl⟩ := only h
    exact ⟨⟨rfl, rfl⟩, Nat.one_pos, le_rfl⟩
  · intro t t' b b' htt h h' _
    have := (only h).1
    have := (only h').1
    omega
  · intro t
    by_cases ht : t = 1 <;> simp [nextAddress, nextAddressBeat, ht]
  · intro t b h hw
    rw [(only h).2] at hw
    cases hw

theorem nextAddress_misses :
    ¬ ∀ (mode : WriteMode) (i : ℕ → Signals) (beat : ℕ → Option Beat) (s : ℕ → State), Bursts i beat →
      Clocked.IsRun (step mode) i s → BeatsReach i beat s := by
  intro hall
  let mode : WriteMode := fun douta _ _ => douta
  let m : Bram := ⟨fun _ => 0, 0⟩
  have h := (hall mode nextAddress nextAddressBeat (Clocked.run (step mode) ⟨m, m, m⟩ nextAddress)
    bursts_nextAddress (Clocked.isRun_run _ _ _)).write 1 ⟨true, 0, 0⟩ .a rfl rfl rfl .b
  rw [if_neg (by decide)] at h
  have hbyte : (1 : BitVec 8) = 0 := congrFun h 0
  exact absurd hbyte (by decide)

end EmbeddedAccelerator.XdmaApp
