import EmbeddedAccelerator.Datapath.Blocks
import EmbeddedAccelerator.Datapath.Result

/-!
`scatter_b`, `Bram_B` and the array on their own: load pulses may come at any time in `WAITING`. The
weights stay while the next block is fetched.
-/

namespace EmbeddedAccelerator.Loading

open Clocked (Mem)
open MatrixMultiply (blockAt passCount aligned)
open ScatterB (Cursor Load Main loadAt)

variable {P : Params}

/-- The output register of `Bram_B` is between `scatter_b` and its input. -/
structure State where
  scatterB : ScatterB.State 8
  bramRddataB : BitVec 128
  peArray : PEArray.Weights 8

def step (P : Params) (bramB : Mem) (load : Bool) (x : State) : State where
  scatterB := ScatterB.step P false load x.bramRddataB x.scatterB
  bramRddataB := bramB.word (ScatterB.bramAddrB P x.scatterB.main) N
  peArray := PEArray.step false x.scatterB.main.stationaryCtrl x.scatterB.bIns x.peArray

/-- The part of the machine that loads. -/
def ofMachine (m : Machine P) : State := ⟨m.mm.scatterB, m.bramRddataB, m.mm.peArray⟩

theorem step_ofMachine {i : Machine.Input} (hi : i.rst = false) (m : Machine P) :
    ofMachine (Machine.step i m) = step P i.bramB m.mm.computeControl.bLoad (ofMachine m) := by
  have hrst : (m.ports i).rst = false := hi
  simp only [ofMachine, step, Machine.step, MatrixMultiply.step, hrst]
  rfl

def main (x : ℕ → State) (u : ℕ) : Main := (x u).scatterB.main

/-- Cycle 0 is an idle cycle, the first pulse is in cycle `T`, and all others meet `WAITING`. `Final`
is low in `IDLE` after a power-on and after the last block. -/
structure Schedule (load : ℕ → Bool) (x : ℕ → State) (T : ℕ) : Prop where
  idle : (main x 0).state = .idle
  final : (main x 0).final = false
  pos : 0 < T
  before : ∀ u < T, load u = false
  first : load T = true
  later : ∀ u, T < u → load u = true → (main x u).state = .waiting

/-- The counters behind the fetch of block `p`: they point to block `p + 1`, or `Final` is set. -/
def fetched (P : Params) (p : ℕ) : Cursor :=
  Cursor.advance P ⟨(blockAt P p).row, (blockAt P p).col, false⟩

/-- Row `j` and column `i` of block `p`. -/
def blockByte (P : Params) (bramB : Mem) (p : ℕ) (j i : Fin N) : BitVec 8 :=
  bramB (((blockAt P p).row * N + j) * P.dataBSizeX + ((blockAt P p).col * N + i))

/-- The `load_done` cycles before cycle `u`, without cycle 0. -/
def loadDones (x : ℕ → State) (u : ℕ) : ℕ := Nat.count (fun v => 0 < v ∧ (main x v).loadDone = true) u

/-- Block `p` is loaded from cycle `L + 1` on, and cycle `u` comes before the next load. -/
structure Loads (P : Params) (bramB : Mem) (x : ℕ → State) (T p L u : ℕ) : Prop where
  started : T < L
  valid : p < passCount P
  after : L < u
  main : ∀ v, L < v → v ≤ u → main x v = loadAt P (fetched P p) (v - L)
  buffer : ∀ j i, (x (L + 1)).scatterB.bufferB j i = blockByte P bramB p j i
  count : loadDones x (L + 1) = p

section Cursor

variable (hP : P.Fits) (hsq : P.Square)
include hP hsq

theorem fetched_last {p : ℕ} (hp : p + 1 = passCount P) : (fetched P p).final = true :=
  MatrixMultiply.advance_of_last hP hsq
    ((MatrixMultiply.aligned_blockAt_isLast hP hsq (by omega)).mpr hp)

theorem fetched_not_last {p : ℕ} (hp : p + 1 < passCount P) :
    fetched P p = ⟨(blockAt P (p + 1)).row, (blockAt P (p + 1)).col, false⟩ := by
  apply MatrixMultiply.advance_of_not_last hP hsq
  rw [MatrixMultiply.aligned_blockAt_isLast hP hsq (by omega)]
  omega

end Cursor

section Run

variable {bramB : Mem} {load : ℕ → Bool} {x : ℕ → State} {T : ℕ} (hP : P.Fits) (hsq : P.Square)
  (h : Clocked.IsRun (step P bramB) load x) (hs : Schedule load x T)
include h

theorem main_run : Clocked.IsRun (ScatterB.mainProcess P false) load (main x) := by
  intro u
  change (x (u + 1)).scatterB.main = _
  rw [h, step]
  rfl

theorem scatterB_run :
    ScatterB.Run P load (fun u => (x u).bramRddataB) (fun u => (x u).scatterB) := by
  intro u
  change (x (u + 1)).scatterB = _
  rw [h, step]

theorem drives : ScatterB.Drives (fun u => (x u).scatterB) (fun u => (x u).peArray) := by
  intro u
  change (x (u + 1)).peArray = _
  rw [h, step]

theorem buffer_fetched (hP : P.Fits) (hsq : P.Square) {V p : ℕ} (first : Bool) (done : ℕ → Bool)
    (hp : ∀ k ≤ N + 1, main x (V + k) =
      ScatterB.preparingAt ⟨(blockAt P p).row, (blockAt P p).col, false⟩ k first (done k)) (j i : Fin N) :
    (x (V + (N + 2))).scatterB.bufferB j i = blockByte P bramB p j i := by
  have hb := ScatterB.bufferB_fetched (scatterB_run h) (T := V) (fun k hk => by
    have hk' : (x (V + k)).scatterB.main = _ := hp k hk
    rw [hk']
    exact ⟨rfl, rfl⟩) j i
  have haddr := MatrixMultiply.pointer_preparing hP hsq (MatrixMultiply.blockAt_valid hP p) j.isLt first (done j)
  have hj : (x (V + j)).scatterB.main = _ := hp j (by omega)
  rw [← hj, Machine.row_aligned hP.dvd_bx] at haddr
  have hword : ScatterB.bramAddrB P (x (V + j)).scatterB.main =
      ((blockAt P p).row * N + j) * (P.dataBSizeX / N) + (blockAt P p).col := by
    rw [ScatterB.bramAddrB, haddr]
    exact Nat.mul_div_cancel_left _ (by decide)
  rw [hb, ← Nat.add_assoc, h, step, hword, blockByte, ← Nat.add_assoc (_ * P.dataBSizeX),
    Machine.row_aligned hP.dvd_bx]
  exact Mem.lane_word i.isLt

omit h in
theorem loadDones_succ {u : ℕ} (hu : (main x u).loadDone = false) : loadDones x (u + 1) = loadDones x u := by
  rw [loadDones, Nat.count_succ, if_neg, Nat.add_zero]
  · rfl
  · rw [hu]
    simp

theorem buffer_waiting {u : ℕ} (hu : (main x u).state = .waiting) :
    (x (u + 1)).scatterB.bufferB = (x u).scatterB.bufferB := by
  apply ScatterB.bufferB_hold (scatterB_run h) (T := u) (d := 1)
  intro v hv
  obtain rfl : v = 0 := by omega
  intro hp
  have hw : (x u).scatterB.main.state = .waiting := hu
  rw [Nat.add_zero, hw] at hp
  cases hp

include hs

theorem main_idle {u : ℕ} (hu0 : 0 < u) (hu : u ≤ T) : main x u = ScatterB.quiet false := by
  induction u, hu0 using Nat.le_induction with
  | base =>
    have hi := hs.idle
    have hf := hs.final
    rw [main_run h, hs.before 0 hs.pos]
    simp [ScatterB.mainProcess, ScatterB.quiet, hi, hf]
  | succ u _ ih =>
    rw [main_run h, hs.before u (by omega), ih (by omega), ScatterB.main_quiet]
    rfl

theorem main_first {k : ℕ} (hk : k ≤ N + 3) : main x (T + k) = (Load.cold false).state P k := by
  induction k with
  | zero => exact main_idle h hs hs.pos le_rfl
  | succ k ih =>
    have hm := ih (by omega)
    have hpulse : load (T + k) = decide (k = 0) := by
      cases k with
      | zero => exact hs.first
      | succ k =>
        rw [decide_eq_false k.succ_ne_zero]
        apply Bool.eq_false_iff.mpr
        intro hp
        have hw := hs.later _ (by omega) hp
        rw [hm, Load.state_fetching P false (by omega)] at hw
        cases hw
    rw [← Nat.add_assoc, main_run h, hm, hpulse]
    exact Load.state_step P _ k

theorem loadDones_first : loadDones x (T + (N + 3)) = 0 := by
  apply Clocked.count_eq_zero
  rintro v hv ⟨hv0, hd⟩
  obtain hlt | ⟨k, rfl⟩ : v ≤ T ∨ ∃ k, v = T + k := by
    obtain hlt | hle := Nat.le_total v T
    · exact .inl hlt
    · exact .inr ⟨v - T, by omega⟩
  · rw [main_idle h hs hv0 hlt] at hd
    cases hd
  · rw [main_first h hs (by omega), Load.loadDone_state, decide_eq_true_eq, Load.lead] at hd
    omega

include hP hsq

theorem loads_first : Loads P bramB x T 0 (T + (N + 3)) (T + (N + 3) + 1) := by
  have hwait : main x (T + (N + 3)) = ScatterB.waitingAt (fetched P 0) true := by
    rw [main_first h hs le_rfl]
    exact Load.state_fetched P false
  refine ⟨by omega, MatrixMultiply.passCount_pos hP, by omega, fun v h1 h2 => ?_, fun j i => ?_, ?_⟩
  · obtain rfl : v = T + (N + 3) + 1 := by omega
    rw [main_run h, hwait, ScatterB.main_waiting, Bool.or_true, if_pos rfl, Nat.add_sub_cancel_left]
    exact (ScatterB.loadAt_loading P (by decide)).symm
  · have hb := buffer_fetched h hP hsq (V := T + 1) (p := 0) true (fun _ => false) (fun k hk => by
      rw [Nat.add_assoc, Nat.add_comm 1 k, main_first h hs (by omega)]
      exact Load.state_fetching P false hk) j i
    rw [buffer_waiting h (by rw [hwait]; rfl), ← hb]
    congr 3
  · rw [loadDones_succ (by rw [hwait]; rfl), loadDones_first h hs]

omit hs in
theorem buffer_next {p L u : ℕ} (hl : Loads P bramB x T p L u) (hp : p + 1 < passCount P)
    (hu : L + (2 * N + 3) ≤ u) (j i : Fin N) :
    (x (u + 1)).scatterB.bufferB j i = blockByte P bramB (p + 1) j i := by
  have hf := fetched_not_last hP hsq hp
  have hN : N = 16 := rfl
  have hb := buffer_fetched h hP hsq (V := L + (N + 1)) (p := p + 1) false (fun k => k = 0) (fun k hk => by
    rw [hl.main _ (by omega) (by omega), show L + (N + 1) + k - L = N + 1 + k by omega, hf]
    exact ScatterB.loadAt_preparing P rfl hk) j i
  have hh := ScatterB.bufferB_hold (scatterB_run h) (T := L + (N + 1) + (N + 2))
    (d := u + 1 - (L + (2 * N + 3))) (fun v hv => by
      have hm := hl.main (L + (N + 1) + (N + 2) + v) (by omega) (by omega)
      rw [hf, ScatterB.loadAt_waiting P rfl (by omega)] at hm
      have hm' : (x (L + (N + 1) + (N + 2) + v)).scatterB.main = _ := hm
      rw [hm']
      simp [ScatterB.waitingAt])
  rw [show L + (N + 1) + (N + 2) + (u + 1 - (L + (2 * N + 3))) = u + 1 by omega] at hh
  rw [hh, hb]

omit hP hsq h hs in
theorem loadDones_within {p L u : ℕ} (hl : Loads P bramB x T p L u) :
    loadDones x u = p + if L + (N + 1) < u then 1 else 0 := by
  have hau := hl.after
  have hc := @Clocked.count_pulse (fun v => 0 < v ∧ (main x v).loadDone = true) _ (L + 1) (u - (L + 1)) N
    (u - (L + 1)) (fun v hv => by
      rw [hl.main _ (by omega) (by omega), ScatterB.loadDone_loadAt, decide_eq_true_eq]
      omega) le_rfl
  rw [Nat.add_sub_cancel' hau] at hc
  have hcount := hl.count
  rw [loadDones] at hcount ⊢
  rw [hc, hcount]
  congr 1
  exact if_congr (by omega) rfl rfl

theorem loads_next {p L u : ℕ} (hl : Loads P bramB x T p L u) (hpulse : load u = true) :
    Loads P bramB x T (p + 1) u (u + 1) := by
  have hau := hl.after
  have hst := hl.started
  have hmu := hl.main u hau le_rfl
  have hw := hs.later u (by omega) hpulse
  rw [hmu] at hw
  obtain h0 | ⟨hf, hk⟩ := ScatterB.loadAt_waiting_cases hw
  · omega
  have hp : p + 1 < passCount P := by
    have hv := hl.valid
    by_contra hge
    rw [fetched_last hP hsq (by omega)] at hf
    cases hf
  have hwait : main x u = ScatterB.waitingAt (fetched P (p + 1)) false := by
    rw [hmu, ScatterB.loadAt_waiting P hf hk, fetched_not_last hP hsq hp, fetched]
  refine ⟨by omega, hp, by omega, fun v h1 h2 => ?_, buffer_next hP hsq h hl hp (by omega), ?_⟩
  · obtain rfl : v = u + 1 := by omega
    rw [main_run h, hwait, hpulse, ScatterB.main_waiting, Bool.true_or, if_pos rfl, Nat.add_sub_cancel_left]
    exact (ScatterB.loadAt_loading P (by decide)).symm
  · rw [loadDones_succ (by rw [hwait]; rfl), loadDones_within hl, if_pos]
    simp only [N] at *
    omega

omit hP hsq hs in
theorem loads_succ {p L u : ℕ} (hl : Loads P bramB x T p L u) (hpulse : load u = false) :
    Loads P bramB x T p L (u + 1) := by
  have hau := hl.after
  refine { hl with after := by omega, main := fun v h1 h2 => ?_ }
  obtain hv | rfl : v ≤ u ∨ v = u + 1 := by omega
  · exact hl.main v h1 hv
  · have hstep := ScatterB.loadAt_step P (fetched P p) (u - L)
    rw [decide_eq_false (by omega)] at hstep
    rw [main_run h, hpulse, hl.main u hau le_rfl, hstep]
    congr 1
    omega

theorem loads_after {u : ℕ} (hu : T + (N + 3) < u) : ∃ p L, Loads P bramB x T p L u := by
  induction u, hu using Nat.le_induction with
  | base => exact ⟨0, _, loads_first hP hsq h hs⟩
  | succ u _ ih =>
    obtain ⟨p, L, hl⟩ := ih
    cases hpulse : load u
    · exact ⟨p, L, loads_succ h hl hpulse⟩
    · exact ⟨p + 1, u, loads_next hP hsq h hs hl hpulse⟩

omit hP hsq in
theorem ctrl_before {u : ℕ} (hu0 : 0 < u) (hu : u ≤ T + (N + 3)) :
    (main x u).stationaryCtrl = false ∧ (main x u).loadDone = false := by
  obtain hlt | hle := Nat.le_total u T
  · rw [main_idle h hs hu0 hlt]
    exact ⟨rfl, rfl⟩
  · obtain ⟨k, rfl⟩ : ∃ k, u = T + k := ⟨u - T, by omega⟩
    rw [main_first h hs (by omega)]
    exact Load.ctrl_fetching P false (by omega)

theorem loadDone_loads {d : ℕ} (hd0 : 0 < d) (hd : (main x d).loadDone = true) :
    ∃ p L, Loads P bramB x T p L d ∧ d = L + (N + 1) := by
  obtain hle | hlt := Nat.lt_or_ge (T + (N + 3)) d
  · obtain ⟨p, L, hl⟩ := loads_after hP hsq h hs hle
    have hau := hl.after
    rw [hl.main d hau le_rfl, ScatterB.loadDone_loadAt, decide_eq_true_eq] at hd
    exact ⟨p, L, hl, by omega⟩
  · rw [(ctrl_before h hs hd0 hlt).2] at hd
    cases hd

theorem stationaryCtrl_cases {u : ℕ} (hu0 : 0 < u) (hu : (main x u).stationaryCtrl = true) :
    (main x u).state = .loading ∨ (main x (u - 1)).state = .loading := by
  obtain hle | hlt := Nat.lt_or_ge (T + (N + 3)) u
  · obtain ⟨p, L, hl⟩ := loads_after hP hsq h hs hle
    have hau := hl.after
    have hm := hl.main u hau le_rfl
    rw [hm, ScatterB.stationaryCtrl_loadAt, decide_eq_true_eq] at hu
    obtain hN | hN : u - L ≤ N ∨ u - 1 - L = N := by omega
    · apply Or.inl
      rw [hm]
      exact (ScatterB.loadAt_loading_iff P _ _).mpr ⟨hu.1, hN⟩
    · apply Or.inr
      have hpos : 0 < u - 1 - L := by rw [hN]; decide
      rw [hl.main (u - 1) (by omega) (by omega)]
      exact (ScatterB.loadAt_loading_iff P _ _).mpr ⟨hpos, hN.le⟩
  · rw [(ctrl_before h hs hu0 hlt).1] at hu
    cases hu

omit hP hsq hs in
theorem weights_loadDone {p L u : ℕ} (hl : Loads P bramB x T p L u) (hu : L + (N + 1) ≤ u) (i j : Fin N) :
    (x (L + (N + 1) + 1)).peArray i j = blockByte P bramB p j i.rev := by
  have hm (l : ℕ) (hle : l ≤ N) : (x (L + 1 + l)).scatterB.main = loadAt P (fetched P p) (l + 1) := by
    have hml := hl.main (L + 1 + l) (by omega) (by omega)
    rw [show L + 1 + l - L = l + 1 by omega] at hml
    exact hml
  have hw := ScatterB.weights_loadAt (scatterB_run h) (drives h) hm i j
  rw [show L + 1 + (N + 1) = L + (N + 1) + 1 by omega] at hw
  rw [hw]
  exact hl.buffer j i.rev

theorem weights_until {d u : ℕ} (hd0 : 0 < d) (hd : (main x d).loadDone = true) (hu : d < u)
    (hnext : ∀ v, d < v → v < u → (main x v).state ≠ .loading) : (x u).peArray = (x (d + 1)).peArray := by
  have hhold := ScatterB.weights_hold (drives h) (T := d + 1) (d := u - (d + 1)) (fun v hv => by
    apply Bool.eq_false_iff.mpr
    intro hc
    obtain hload | hload := stationaryCtrl_cases hP hsq h hs (u := d + 1 + v) (by omega) hc
    · exact hnext _ (by omega) (by omega) hload
    · by_cases hv0 : v = 0
      · subst hv0
        obtain ⟨p, L, hl, rfl⟩ := loadDone_loads hP hsq h hs hd0 hd
        rw [Nat.add_zero, Nat.add_sub_cancel, hl.main _ hl.after le_rfl, ScatterB.loadAt_loading_iff] at hload
        omega
      · exact hnext _ (by omega) (by omega) hload)
  rwa [Nat.add_sub_cancel' hu] at hhold

theorem idle_last {p L : ℕ} (hl : Loads P bramB x T p L (L + (N + 1))) (hp : p + 1 = passCount P) (n : ℕ) :
    main x (L + (N + 1) + n) = loadAt P (fetched P p) (N + 1 + n) := by
  have hf := fetched_last hP hsq hp
  have hst := hl.started
  induction n with
  | zero =>
    rw [Nat.add_zero, hl.main _ hl.after le_rfl, Nat.add_sub_cancel_left]
  | succ n ih =>
    have hpulse : load (L + (N + 1) + n) = false := by
      apply Bool.eq_false_iff.mpr
      intro hc
      have hw := hs.later _ (by omega) hc
      rw [ih] at hw
      obtain h0 | ⟨hnf, _⟩ := ScatterB.loadAt_waiting_cases hw
      · omega
      · rw [hf] at hnf
        cases hnf
    have hstep := ScatterB.loadAt_step P (fetched P p) (N + 1 + n)
    rw [decide_eq_false (by omega)] at hstep
    rw [← Nat.add_assoc, main_run h, ih, hpulse, hstep, Nat.add_assoc (N + 1)]

omit hP hsq in
theorem loads_through {p L : ℕ} (hl : Loads P bramB x T p L (L + 1)) :
    Loads P bramB x T p L (L + (N + 1)) := by
  have hst := hl.started
  have hgo (n : ℕ) (hn : n ≤ N) : Loads P bramB x T p L (L + 1 + n) := by
    induction n with
    | zero => exact hl
    | succ n ih =>
      have hi := ih (by omega)
      apply loads_succ h hi
      apply Bool.eq_false_iff.mpr
      intro hc
      have hw := hs.later _ (by omega) hc
      rw [hi.main _ hi.after le_rfl] at hw
      obtain h0 | ⟨_, hlt⟩ := ScatterB.loadAt_waiting_cases hw
      · omega
      · omega
  have hlast := hgo N le_rfl
  rwa [show L + 1 + N = L + (N + 1) by omega] at hlast

omit h hs hP hsq in
theorem loadDone_of_loads {p L : ℕ} (hl : Loads P bramB x T p L (L + (N + 1))) :
    (main x (L + (N + 1))).loadDone = true := by
  rw [hl.main _ hl.after le_rfl, ScatterB.loadDone_loadAt, Nat.add_sub_cancel_left]
  rfl

/-- Every pulse is answered, the first one behind the fetch of its block. A pulse in the one cycle
in which `WAITING` needs none is answered together with the first. -/
theorem loadDone_answers {u : ℕ} (hu : load u = true) :
    (main x (u + ((if u = T then N + 3 else 0) + (N + 1)))).loadDone = true := by
  split_ifs with hT
  · subst hT
    rw [← Nat.add_assoc]
    exact loadDone_of_loads (loads_through h hs (loads_first hP hsq h hs))
  · have hlt : T < u := by
      by_contra hle
      rw [hs.before u (by omega)] at hu
      cases hu
    obtain hfirst | hafter := Nat.lt_or_ge (T + (N + 3)) u
    · obtain ⟨p, L, hl⟩ := loads_after hP hsq h hs hfirst
      rw [Nat.zero_add]
      exact loadDone_of_loads (loads_through h hs (loads_next hP hsq h hs hl hu))
    · obtain ⟨k, rfl⟩ : ∃ k, u = T + (k + 1) := ⟨u - (T + 1), by omega⟩
      have hw := hs.later _ hlt hu
      rw [main_first h hs (by omega)] at hw
      obtain rfl | hk : k = N + 2 ∨ k ≤ N + 1 := by omega
      · rw [Nat.zero_add]
        exact loadDone_of_loads (loads_through h hs (loads_first hP hsq h hs))
      · rw [Load.state_fetching P false hk] at hw
        cases hw

end Run

/-- `PE (i, j)` has row `j` and column `π i` of the block of the last `load_done`, until the next block
is loaded, and the last block leaves `scatter_b` in `IDLE`. -/
structure Exact (P : Params) (bramB : Mem) (load : ℕ → Bool) (x : ℕ → State) (T : ℕ)
    (π : Equiv.Perm (Fin N)) : Prop where
  weights : ∀ d p, 0 < d → (main x d).loadDone = true → loadDones x d = p →
    p < ScatterB.rowCount P * ScatterB.colCount P ∧
      ∀ u, d < u → (∀ v, d < v → v < u → (main x v).state ≠ .loading) → ∀ i j,
        (x u).peArray i j = bramB ((p % ScatterB.rowCount P * N + j) * P.dataBSizeX +
          (p / ScatterB.rowCount P * N + π i))
  answered : ∀ u, load u = true →
    (main x (u + ((if u = T then N + 3 else 0) + (N + 1)))).loadDone = true
  last : ∀ d, 0 < d → (main x d).loadDone = true →
    loadDones x d + 1 = ScatterB.rowCount P * ScatterB.colCount P →
      ∀ u, d ≤ u → (main x u).state = .idle ∧ (main x u).final = false

section Exact

variable {bramB : Mem} {load : ℕ → Bool} {x : ℕ → State} {T : ℕ} (hP : P.Fits) (hsq : P.Square)
include hP hsq

theorem counts_eq : ScatterB.rowCount P = GatherC.rowCount P ∧ ScatterB.colCount P = GatherC.colCount P := by
  constructor
  · rw [ScatterB.rowCount, GatherC.rowCount, hP.inner, hsq.1]
  · rw [ScatterB.colCount, GatherC.colCount, hsq.2]

theorem exact_of_schedule (h : Clocked.IsRun (step P bramB) load x) (hs : Schedule load x T) :
    Exact P bramB load x T Fin.revPerm where
  weights d p hd0 hd hp := by
    obtain ⟨hR, hC⟩ := counts_eq hP hsq
    obtain ⟨q, L, hl, rfl⟩ := loadDone_loads hP hsq h hs hd0 hd
    obtain rfl : q = p := by
      rw [loadDones_within hl, if_neg (lt_irrefl _)] at hp
      exact hp
    rw [hR, hC]
    refine ⟨hl.valid, fun u hu hnext i j => ?_⟩
    rw [weights_until hP hsq h hs hd0 hd hu hnext, weights_loadDone h hl le_rfl, blockByte,
      MatrixMultiply.blockAt_eq hP hl.valid]
    rfl
  answered u hu := loadDone_answers hP hsq h hs hu
  last d hd0 hd hp u hu := by
    obtain ⟨hR, hC⟩ := counts_eq hP hsq
    obtain ⟨q, L, hl, rfl⟩ := loadDone_loads hP hsq h hs hd0 hd
    rw [loadDones_within hl, if_neg (lt_irrefl _), hR, hC] at hp
    obtain ⟨n, rfl⟩ : ∃ n, u = L + (N + 1) + n := ⟨u - (L + (N + 1)), by omega⟩
    have hf := fetched_last hP hsq hp
    rw [idle_last hP hsq h hs hl hp n]
    cases n with
    | zero =>
      rw [Nat.add_zero, ScatterB.loadAt_finishing P hf]
      exact ⟨rfl, rfl⟩
    | succ n =>
      rw [ScatterB.loadAt_quiet P hf (by omega)]
      exact ⟨rfl, rfl⟩

end Exact

/-- One permutation for all blocks, contents and schedules. -/
theorem exact_shipped : ∃ π : Equiv.Perm (Fin N),
    ∀ (bramB : Mem) (load : ℕ → Bool) (x : ℕ → State) (T : ℕ),
      Clocked.IsRun (step shipped bramB) load x → Schedule load x T → Exact shipped bramB load x T π :=
  ⟨Fin.revPerm, fun _ _ _ _ h hs => exact_of_schedule shipped_fits shipped_square h hs⟩

/-- The second pulse comes when the second block has long been fetched. -/
def twoLoads (u : ℕ) : Bool := u = 1 || u = 80

def twoLoadRun (bramB : Mem) : ℕ → State :=
  Clocked.run (step shipped bramB) ⟨(MatrixMultiply.powerOn shipped).scatterB, 0, fun _ _ => 0⟩ twoLoads

theorem main_twoLoadRun (bramB : Mem) (u : ℕ) : main (twoLoadRun bramB) u =
    Clocked.run (ScatterB.mainProcess shipped false) (MatrixMultiply.powerOn shipped).scatterB.main twoLoads u := by
  induction u with
  | zero => rfl
  | succ u ih =>
    have hrun : Clocked.IsRun (step shipped bramB) twoLoads (twoLoadRun bramB) := Clocked.isRun_run _ _ _
    rw [main_run hrun, ih, Clocked.run]

theorem schedule_twoLoads (bramB : Mem) : Schedule twoLoads (twoLoadRun bramB) 1 where
  idle := rfl
  final := rfl
  pos := Nat.one_pos
  before u hu := by
    obtain rfl : u = 0 := by omega
    rfl
  first := rfl
  later u hu hp := by
    obtain rfl : u = 80 := by
      simp only [twoLoads, Bool.or_eq_true, decide_eq_true_eq] at hp
      omega
    rw [main_twoLoadRun]
    decide +kernel

theorem exact_twoLoads : ∃ π, Exact shipped (fun a => BitVec.ofNat 8 a) twoLoads
    (twoLoadRun fun a => BitVec.ofNat 8 a) 1 π := by
  obtain ⟨π, h⟩ := exact_shipped
  exact ⟨π, h _ _ _ _ (Clocked.isRun_run _ _ _) (schedule_twoLoads _)⟩

end EmbeddedAccelerator.Loading
