import EmbeddedAccelerator.Datapath.Result
import EmbeddedAccelerator.Handshakes

namespace EmbeddedAccelerator

namespace MatrixMultiply

variable {P : Params}

theorem computeRow_pos (hP : P.Fits) : 0 < ComputeControl.rowCount P :=
  Nat.div_pos hP.le_ay (by decide)

theorem computeCol_pos (hP : P.Fits) : 0 < ComputeControl.colCount P :=
  Nat.div_pos hP.le_bx (by decide)

theorem nthPass_row_succ (P : Params) (p : ℕ) :
    (nthPass P (p + 1)).row = ComputeControl.nextRow P (nthPass P p).row := rfl

theorem nthPass_col_succ (P : Params) (p : ℕ) :
    (nthPass P (p + 1)).col = ComputeControl.nextCol P (nthPass P p).row (nthPass P p).col := rfl

theorem nthPass_le (hP : P.Fits) (p : ℕ) :
    (nthPass P p).col * ComputeControl.rowCount P + (nthPass P p).row ≤ p := by
  have hm := computeRow_pos hP
  induction p with
  | zero => exact Nat.le_of_eq (Nat.zero_mul _)
  | succ p ih =>
    rw [nthPass_row_succ, nthPass_col_succ, ComputeControl.nextRow, ComputeControl.nextCol]
    by_cases hr : (nthPass P p).row = ComputeControl.rowCount P - 1
    · rw [if_pos hr, if_pos hr]
      by_cases hc : (nthPass P p).col = ComputeControl.colCount P - 1
      · rw [if_pos hc, Nat.zero_mul]
        omega
      · have hmod := Nat.mod_le ((nthPass P p).col + 1) (2 ^ (P.dataBSizeX / N))
        have hmul := Nat.mul_le_mul_right (ComputeControl.rowCount P) hmod
        rw [Nat.succ_mul] at hmul
        rw [if_neg hc]
        omega
    · have hmod := Nat.mod_le ((nthPass P p).row + 1) (2 ^ (P.dataBSizeY / N))
      rw [if_neg hr, if_neg hr]
      omega

theorem nthPass_eq_divMod (hP : P.Fits) (hle : P.dataASizeY ≤ P.dataASizeX) {p : ℕ}
    (hp : p < ComputeControl.rowCount P * ComputeControl.colCount P) :
    (nthPass P p).row = p % ComputeControl.rowCount P ∧ (nthPass P p).col = p / ComputeControl.rowCount P := by
  have hm := computeRow_pos hP
  induction p with
  | zero => exact ⟨(Nat.zero_mod _).symm, (Nat.zero_div _).symm⟩
  | succ p ih =>
    obtain ⟨hrow, hcol⟩ := ih (by omega)
    have hlt : (p + 1) / ComputeControl.rowCount P < ComputeControl.colCount P := Nat.div_lt_of_lt_mul hp
    have hwide : ComputeControl.rowCount P < 2 ^ (P.dataBSizeY / N) := by
      have h1 : ComputeControl.rowCount P ≤ P.dataBSizeY / N := by
        rw [hP.inner]
        exact Nat.div_le_div_right hle
      have h2 : P.dataBSizeY / N < 2 ^ (P.dataBSizeY / N) := Nat.lt_two_pow_self
      omega
    have hwide' : ComputeControl.colCount P < 2 ^ (P.dataBSizeX / N) := Nat.lt_two_pow_self
    have hmod := Nat.mod_lt p hm
    rw [nthPass_row_succ, nthPass_col_succ, ComputeControl.nextRow, ComputeControl.nextCol, hrow, hcol]
    by_cases h : p % ComputeControl.rowCount P = ComputeControl.rowCount P - 1
    · obtain ⟨hd, hm'⟩ := succ_divMod_of_last hm h
      rw [hd] at hlt
      rw [if_pos h, if_pos h, if_neg (by omega), hd, hm', Nat.mod_eq_of_lt (by omega)]
      exact ⟨rfl, rfl⟩
    · obtain ⟨hd, hm'⟩ := succ_divMod_of_not_last hm h
      rw [if_neg h, if_neg h, hd, hm', Nat.mod_eq_of_lt (by omega)]
      exact ⟨rfl, rfl⟩

theorem dataASizeY_eq_of_isLast (hP : P.Fits) {q : ℕ} (hg : GoesOn P q) (hl : (nthPass P q).IsLast P)
    (hq : q + 1 = P.dataBSizeY / N * (P.dataBSizeX / N)) : P.dataASizeY = P.dataASizeX := by
  have hm := computeRow_pos hP
  have hn := computeCol_pos hP
  have hay : P.dataASizeY = ComputeControl.rowCount P * N := (Nat.div_mul_cancel hP.dvd_ay).symm
  have hax : P.dataASizeX = P.dataBSizeY / N * N := by
    rw [hP.inner]
    exact (Nat.div_mul_cancel hP.dvd_ax).symm
  obtain ⟨hrow, hcol⟩ := hl
  have hle : ComputeControl.rowCount P ≤ P.dataBSizeY / N := by
    have h := nthPass_le hP q
    have hmul := Nat.succ_mul (ComputeControl.colCount P - 1) (ComputeControl.rowCount P)
    rw [Nat.succ_eq_add_one, Nat.sub_add_cancel hn] at hmul
    rw [hrow, hcol] at h
    refine Nat.le_of_mul_le_mul_left (c := ComputeControl.colCount P) ?_ hn
    rw [Nat.mul_comm _ (P.dataBSizeY / N)]
    show _ ≤ P.dataBSizeY / N * (P.dataBSizeX / N)
    omega
  obtain ⟨p, hp⟩ : ∃ p, p + 1 = ComputeControl.rowCount P * ComputeControl.colCount P :=
    ⟨_, Nat.sub_add_cancel (Nat.mul_pos hm hn)⟩
  obtain ⟨hr, hd⟩ := divMod_of_succ_eq_mul hm hp
  have hay_le : P.dataASizeY ≤ P.dataASizeX := by
    rw [hay, hax]
    exact Nat.mul_le_mul_right N hle
  obtain ⟨hrow', hcol'⟩ := nthPass_eq_divMod hP hay_le (p := p) (by omega)
  have hqp : q ≤ p := Nat.le_of_not_lt fun hlt => hg p hlt ⟨hrow'.trans hr, hcol'.trans hd⟩
  have hge : P.dataBSizeY / N ≤ ComputeControl.rowCount P := by
    refine Nat.le_of_mul_le_mul_right (c := ComputeControl.colCount P) ?_ hn
    show P.dataBSizeY / N * (P.dataBSizeX / N) ≤ _
    omega
  rw [hay, hax, Nat.le_antisymm hle hge]

end MatrixMultiply

namespace Machine

open Clocked (Mem)
open GatherC (Cursor)
open MatrixMultiply (Control Pass Loaded GoesOn aligned blockAt nthBegin nthPass passAt idleAt passCount
  passTime runTime startCals loadDones)

variable {P : Params}

/-- The controllers in every cycle. -/
abbrev control (m : ℕ → Machine P) (t : ℕ) : Control := (m t).mm.control

/-- The block of pass `p` of a product, and the block that fetch `p` brings. -/
def block (P : Params) (p : ℕ) : Cursor := ⟨p % (P.dataBSizeY / N), p / (P.dataBSizeY / N)⟩

/-- The first run of the machine, which ends in cycle `F`, visits the blocks of the product. -/
structure VisitsBlocks (inputs : ℕ → Input) (m : ℕ → Machine P) (F : ℕ) : Prop where
  finish : (m F).finish = true
  first : ∀ t < F, (m t).finish = false
  passes : startCals (control m) F = P.dataBSizeY / N * (P.dataBSizeX / N)
  /-- Pass `p` streams column block `p mod (DATA_A_SIZE_X / N)`, row by row. -/
  streams : ∀ t < F, (m t).mm.computeControl.startCal = true → ∀ i < P.dataASizeY,
    ScatterA.bramAddrPointer P (m (t + 1 + i)).mm.scatterA =
        i * P.dataASizeX + startCals (control m) t % (P.dataASizeX / N) * N ∧
      (m (t + 2 + i)).mm.scatterA.outputEnable = true
  /-- Fetch `p` reads row `i` of its block where that row is. -/
  fetches : ∀ t < F, (m t).mm.scatterB.main.state = .preparing → ∀ i < N,
    (m t).mm.scatterB.main.inBlockCnt = i →
    ScatterB.bramAddrPointer P (m t).mm.scatterB.main =
      ((block P (loadDones (control m) (t + 1))).row * N + i) * P.dataBSizeX +
        (block P (loadDones (control m) (t + 1))).col * N
  /-- Pass `p` computes with the block of fetch `p`. -/
  loads : ∀ t < F, (m t).mm.computeControl.startCal = true →
    loadDones (control m) t = startCals (control m) t + 1 ∧
      Loaded P (fun t => (m t).ports (inputs t)) (fun t => (m t).mm) (block P (startCals (control m) t)) t
  /-- A group begins with cleared rows. -/
  clears : ∀ t < F, (m t).mm.computeControl.startCal = true →
    (block P (startCals (control m) t)).row = 0 → (m (t + 1)).mm.gatherC.buffer = fun _ _ => 0
  /-- A pass adds its sample to every row. -/
  adds : ∀ t < F, (m t).mm.computeControl.startCal = true → ∀ r j,
    (m (t + (P.dataASizeY + 3))).mm.gatherC.buffer r j = (m (t + 1)).mm.gatherC.buffer r j +
      MatrixMultiply.cOuts ((m (t + (r + 2))).ports (inputs (t + (r + 2)))) (m (t + (r + 2))).mm j
  /-- Within a group the next pass goes on with the sums. -/
  keeps : ∀ t t', t < t' → t' < F → (m t).mm.computeControl.startCal = true →
    (m t').mm.computeControl.startCal = true → startCals (control m) t' = startCals (control m) t + 1 →
    (block P (startCals (control m) t')).row ≠ 0 →
    (m (t' + 1)).mm.gatherC.buffer = (m (t + (P.dataASizeY + 3))).mm.gatherC.buffer

/-- The inputs of a machine that is started for the first time in cycle `t₀`. -/
structure FirstStart (inputs : ℕ → Input) (t₀ : ℕ) : Prop where
  noReset : ∀ t, (inputs t).rst = false
  start : (inputs t₀).start = true
  before : ∀ t < t₀, (inputs t).start = false

section Run

variable {inputs : ℕ → Input} {m : ℕ → Machine P} {t₀ : ℕ} (hf : FirstStart inputs t₀)
  (h : Run inputs m) (h0 : control m 0 = (MatrixMultiply.powerOn P).control)
include hf h h0

omit hf h0 in
theorem control_succ (t : ℕ) :
    control m (t + 1) = MatrixMultiply.controlStep P false (inputs t).start (control m t) := h.mm.control t

theorem control_before {t : ℕ} (ht : t ≤ t₀) :
    control m t = (MatrixMultiply.powerOn P).control ∨ control m t = idleAt P Pass.start false := by
  induction t with
  | zero => exact .inl h0
  | succ t ih =>
    rw [control_succ h, hf.before t (by omega)]
    rcases ih (by omega) with hc | hc
    · rw [hc, MatrixMultiply.powerOn_step]
      exact .inr rfl
    · rw [hc, MatrixMultiply.idleAt_step _ _ ⟨rfl, rfl⟩]
      exact .inr rfl

theorem control_start : control m (t₀ + 1) = passAt P Pass.start false 0 := by
  rw [control_succ h, hf.start]
  rcases control_before hf h h0 le_rfl with hc | hc
  · rw [hc, MatrixMultiply.powerOn_step]
    rfl
  · rw [hc, MatrixMultiply.idleAt_step _ _ ⟨rfl, rfl⟩]
    rfl

theorem idle_before {t : ℕ} (ht : t < t₀ + 1) :
    (m t).finish = false ∧ (m t).mm.computeControl.startCal = false ∧
      (m t).mm.scatterB.main.loadDone = false ∧ (m t).mm.scatterB.main.state = .idle := by
  have hfields (c : Control) (hc : c = (MatrixMultiply.powerOn P).control ∨ c = idleAt P Pass.start false) :
      c.computeControl.finish = false ∧ c.computeControl.startCal = false ∧
        c.scatterB.loadDone = false ∧ c.scatterB.state = .idle := by
    rcases hc with rfl | rfl
    · exact ⟨rfl, rfl, rfl, rfl⟩
    · exact ⟨rfl, rfl, rfl, rfl⟩
  exact hfields _ (control_before hf h h0 (by omega))

theorem startCals_start : startCals (control m) (t₀ + 1) = 0 :=
  Clocked.count_eq_zero fun u hu hs => by
    have hi := (idle_before hf h h0 hu).2.1
    exact Bool.false_ne_true (hi.symm.trans hs)

theorem loadDones_start : loadDones (control m) (t₀ + 1) = 0 :=
  Clocked.count_eq_zero fun u hu hs => by
    have hi := (idle_before hf h h0 hu).2.2.1
    exact Bool.false_ne_true (hi.symm.trans hs)

theorem exists_isLast (hP : P.Fits) {F : ℕ} (hF : (m F).finish = true) (hfirst : ∀ t < F, (m t).finish = false) :
    ∃ q, GoesOn P q ∧ (nthPass P q).IsLast P ∧ F = t₀ + 1 + nthBegin P (q + 1) := by
  have hT := control_start hf h h0
  have hlow {q : ℕ} (hg : GoesOn P q) {u : ℕ} (hu : u < nthBegin P (q + 1)) :
      (m (t₀ + 1 + u)).finish = false := MatrixMultiply.finish_low hP h.mm.control hT hg hu
  have hle : t₀ + 1 ≤ F := by
    by_contra hlt
    have hi := (idle_before hf h h0 (t := F) (by omega)).1
    exact Bool.false_ne_true (hi.symm.trans hF)
  obtain ⟨u, rfl⟩ : ∃ u, F = t₀ + 1 + u := ⟨F - (t₀ + 1), by omega⟩
  have hlast : ∃ q, (nthPass P q).IsLast P := by
    by_contra hn
    push Not at hn
    have hu := MatrixMultiply.le_nthBegin (P := P) (u + 1)
    rw [hlow (q := u) (fun q _ => hn q) (by omega)] at hF
    cases hF
  have hg : GoesOn P (Nat.find hlast) := fun q hq => Nat.find_min hlast hq
  have hend : (m (t₀ + 1 + nthBegin P (Nat.find hlast + 1))).finish = true := by
    have hc := MatrixMultiply.run_finish hP h.mm.control hT hg (Nat.find_spec hlast)
    exact congrArg (fun c : Control => c.computeControl.finish) hc
  refine ⟨Nat.find hlast, hg, Nat.find_spec hlast, ?_⟩
  rcases Nat.lt_trichotomy u (nthBegin P (Nat.find hlast + 1)) with hlt | heq | hgt
  · rw [hlow hg hlt] at hF
    cases hF
  · rw [heq]
  · rw [hfirst _ (by omega)] at hend
    cases hend

omit hf h h0 in
theorem pointer_second_row (hP : P.Fits) :
    ScatterB.bramAddrPointer P (ScatterB.preparingAt ⟨0, 0, false⟩ 1 true false) = P.dataASizeX := by
  have hax := Nat.mul_le_mul_left P.dataASizeX hP.le_ay
  have ha := hP.a_fits
  have hN : N = 16 := rfl
  rw [hN] at hax
  simp only [ScatterB.bramAddrPointer, ScatterB.preparingAt, Nat.zero_mul, Nat.zero_add, Nat.one_mul]
  exact Nat.mod_eq_of_lt (by omega)

theorem dataBSizeX_eq (hP : P.Fits) {F : ℕ} (hF : t₀ + 3 < F) (hv : VisitsBlocks inputs m F) :
    P.dataBSizeX = P.dataASizeX := by
  have hT := control_start hf h h0
  have hg : GoesOn P 0 := fun q hq => absurd hq (Nat.not_lt_zero q)
  have hs : (nthPass P 0).startTime = N + 3 + (N + 2) := rfl
  have he := MatrixMultiply.startTime_lt_endTime P (nthPass P 0)
  have hmain : (m (t₀ + 3)).mm.scatterB.main = ScatterB.preparingAt ⟨0, 0, false⟩ 1 true false := by
    have hc := MatrixMultiply.run_low hP h.mm.control hT hg (u := 2) (by omega)
    exact (congrArg Control.scatterB hc).trans (ScatterB.Load.state_fetching P false (k := 1) (by decide))
  have hcount : loadDones (control m) (t₀ + 3 + 1) = 0 := by
    have hl := MatrixMultiply.loadDones_within hP h.mm.control hT hg (loadDones_start hf h h0) (u := 3)
      (by omega)
    rw [if_neg (by omega)] at hl
    exact hl
  have hrow := hv.fetches (t₀ + 3) hF (by rw [hmain]; rfl) 1 (by decide) (by rw [hmain]; rfl)
  rw [hmain, pointer_second_row hP, hcount] at hrow
  simp only [block, Nat.zero_mod, Nat.zero_div, Nat.zero_mul, Nat.zero_add, Nat.one_mul, Nat.add_zero] at hrow
  exact hrow.symm

theorem square_of_visitsBlocks (hP : P.Fits) {F : ℕ} (hv : VisitsBlocks inputs m F) : P.Square := by
  have hT := control_start hf h h0
  obtain ⟨q, hg, hl, rfl⟩ := exists_isLast hf h h0 hP hv.finish hv.first
  have hend : (nthPass P q).startTime < (nthPass P q).endTime P + 1 := by
    have hs := MatrixMultiply.startTime_lt_endTime P (nthPass P q)
    omega
  have hcount := MatrixMultiply.startCals_within hP h.mm.control hT hg (startCals_start hf h h0) le_rfl
  rw [if_pos hend, Nat.add_assoc] at hcount
  have hq : q + 1 = P.dataBSizeY / N * (P.dataBSizeX / N) := hcount.symm.trans hv.passes
  refine ⟨MatrixMultiply.dataASizeY_eq_of_isLast hP hg hl hq, dataBSizeX_eq hf h h0 hP ?_ hv⟩
  have hs : N + 2 ≤ (nthPass P q).startTime := Nat.le_add_left _ _
  have hN : N = 16 := rfl
  rw [nthBegin]
  omega

section Square

variable (hP : P.Fits) (hsq : P.Square)
include hP hsq

theorem begin_pass {p : ℕ} (hp : p < passCount P) :
    (m (t₀ + 1 + passTime P p)).mm.control = passAt P (aligned (blockAt P p)) false 0 := by
  have hc := MatrixMultiply.timeline_pass hP hsq h.mm.control (control_start hf h h0) hp
  rwa [Bool.false_and] at hc

theorem startCals_pass {p : ℕ} (hp : p < passCount P) {u : ℕ}
    (hu : u ≤ (aligned (blockAt P p)).endTime P + 1) :
    startCals (control m) (t₀ + 1 + passTime P p + u) =
      p + if (aligned (blockAt P p)).startTime < u then 1 else 0 := by
  rw [← MatrixMultiply.nthBegin_eq hP hsq, ← MatrixMultiply.nthPass_eq hP hsq]
  rw [← MatrixMultiply.nthPass_eq hP hsq] at hu
  exact MatrixMultiply.startCals_within hP h.mm.control (control_start hf h h0)
    (MatrixMultiply.goesOn_of_lt hP hsq hp) (startCals_start hf h h0) hu

theorem loadDones_pass {p : ℕ} (hp : p < passCount P) {u : ℕ}
    (hu : u ≤ (aligned (blockAt P p)).endTime P + 1) :
    loadDones (control m) (t₀ + 1 + passTime P p + u) =
      p + if (aligned (blockAt P p)).startTime ≤ u then 1 else 0 := by
  rw [← MatrixMultiply.nthBegin_eq hP hsq, ← MatrixMultiply.nthPass_eq hP hsq]
  rw [← MatrixMultiply.nthPass_eq hP hsq] at hu
  exact MatrixMultiply.loadDones_within hP h.mm.control (control_start hf h h0)
    (MatrixMultiply.goesOn_of_lt hP hsq hp) (loadDones_start hf h h0) hu

theorem startCal_pass {t : ℕ} (ht : t < t₀ + 1 + runTime P) (hs : (m t).mm.computeControl.startCal = true) :
    startCals (control m) t < passCount P ∧
      t = t₀ + 1 + passTime P (startCals (control m) t) +
        (aligned (blockAt P (startCals (control m) t))).startTime := by
  have hle : t₀ + 1 ≤ t := by
    by_contra hlt
    have hi := (idle_before hf h h0 (t := t) (by omega)).2.1
    exact Bool.false_ne_true (hi.symm.trans hs)
  obtain ⟨u, rfl⟩ : ∃ u, t = t₀ + 1 + u := ⟨t - (t₀ + 1), by omega⟩
  obtain ⟨p, hp, v, hv, rfl⟩ := MatrixMultiply.exists_pass hP hsq (q := passCount P) (u := u)
    (by rw [runTime] at ht; omega)
  rw [← Nat.add_assoc] at hs ⊢
  have hcal : (m (t₀ + 1 + passTime P p + v)).mm.control.computeControl.startCal = true := hs
  rw [MatrixMultiply.pass_control hP h.mm (MatrixMultiply.blockAt_valid hP p) (begin_pass hf h h0 hP hsq hp) hv,
    MatrixMultiply.passAt_startCal, decide_eq_true_eq] at hcal
  subst hcal
  have hcount := startCals_pass hf h h0 hP hsq hp (u := (aligned (blockAt P p)).startTime) (by omega)
  rw [if_neg (Nat.lt_irrefl _), Nat.add_zero] at hcount
  rw [hcount]
  exact ⟨hp, rfl⟩

omit hf h h0 hsq in
theorem block_eq {p : ℕ} (hp : p < passCount P) : block P p = blockAt P p :=
  (MatrixMultiply.blockAt_eq hP hp).symm

theorem streams_pass {p : ℕ} (hp : p < passCount P) {i : ℕ} (hi : i < P.dataASizeY) :
    let t := t₀ + 1 + passTime P p + (aligned (blockAt P p)).startTime
    ScatterA.bramAddrPointer P (m (t + 1 + i)).mm.scatterA =
        i * P.dataASizeX + p % (P.dataASizeX / N) * N ∧
      (m (t + 2 + i)).mm.scatterA.outputEnable = true := by
  intro t
  have hb := MatrixMultiply.blockAt_valid hP p
  have hs := MatrixMultiply.startTime_lt_endTime P (aligned (blockAt P p))
  have hstream (k : ℕ) (hk : k ≤ P.dataASizeY + 1) :
      (m (t + k)).mm.scatterA = ScatterA.streamAt P (blockAt P p).row k := by
    have hc := congrArg Control.scatterA (pass_control hP h hb (begin_pass hf h h0 hP hsq hp)
      (u := (aligned (blockAt P p)).startTime + k) (by omega))
    rwa [passAt, Nat.add_sub_cancel_left, ← Nat.add_assoc] at hc
  have hrow : (blockAt P p).row = p % (P.dataASizeX / N) := by
    rw [MatrixMultiply.blockAt_eq hP hp, ← hP.inner]
    rfl
  constructor
  · rw [Nat.add_assoc, Nat.add_comm 1 i, hstream (i + 1) (by omega), ScatterA.streamAt_calculating P _ hi,
      pointer_calculating (c := (blockAt P p).row) hP (MatrixMultiply.aligned_valid hP hb).1 hi,
      ← row_aligned hP.dvd_ax, hrow]
  · rw [Nat.add_assoc, Nat.add_comm 2 i, hstream (i + 2) (by omega),
      ScatterA.outputEnable_streamAt P _ hP.ay_pos, decide_eq_true (by omega)]

theorem buffer_start {p : ℕ} (hp : p < passCount P) :
    (m (t₀ + 1 + passTime P p + (aligned (blockAt P p)).startTime + 1)).mm.gatherC.buffer =
      if blockAt P p = ⟨0, 0⟩ then fun _ _ => 0 else (m (t₀ + 1 + passTime P p)).mm.gatherC.buffer := by
  rw [Nat.add_assoc _ (aligned (blockAt P p)).startTime]
  exact buffer_startTime hP h (MatrixMultiply.blockAt_valid hP p) (begin_pass hf h h0 hP hsq hp) hsq

theorem buffer_succ {p : ℕ} (hp : p < passCount P) :
    (m (t₀ + 1 + passTime P (p + 1))).mm.gatherC.buffer =
      if (blockAt P p).Last P then fun _ _ => 0 else
        (m (t₀ + 1 + passTime P p + (aligned (blockAt P p)).startTime + (P.dataASizeY + 3))).mm.gatherC.buffer := by
  have hb := MatrixMultiply.blockAt_valid hP p
  have hT := begin_pass hf h h0 hP hsq hp
  have hheld : (m (t₀ + 1 + passTime P p + (aligned (blockAt P p)).endTime P)).mm.gatherC.buffer =
      (m (t₀ + 1 + passTime P p + (aligned (blockAt P p)).startTime + (P.dataASizeY + 3))).mm.gatherC.buffer := by
    funext r j
    rw [Nat.add_assoc _ (aligned (blockAt P p)).startTime, buffer_endTime hP h hb hT,
      buffer_sampled hP h hb hT le_rfl GatherC.le_doneTime]
  rw [passTime, ← Nat.add_assoc, buffer_next hP h hb hT hsq, hheld]

theorem clears_pass {p : ℕ} (hp : p < passCount P) (hrow : (block P p).row = 0) :
    (m (t₀ + 1 + passTime P p + (aligned (blockAt P p)).startTime + 1)).mm.gatherC.buffer =
      fun _ _ => 0 := by
  rw [buffer_start hf h h0 hP hsq hp]
  cases p with
  | zero => exact if_pos rfl
  | succ p =>
    have hlast : (blockAt P p).Last P := by
      by_contra hn
      rw [GatherC.Cursor.Last, ← block_eq hP (by omega)] at hn
      have hm := (MatrixMultiply.succ_divMod_of_not_last (MatrixMultiply.rowCount_pos hP) hn).2
      exact Nat.succ_ne_zero _ (hm.symm.trans hrow)
    rw [buffer_succ hf h h0 hP hsq (by omega), if_pos hlast, ite_self]

theorem keeps_pass {p : ℕ} (hp : p + 1 < passCount P) (hrow : (block P (p + 1)).row ≠ 0) :
    (m (t₀ + 1 + passTime P (p + 1) + (aligned (blockAt P (p + 1))).startTime + 1)).mm.gatherC.buffer =
      (m (t₀ + 1 + passTime P p + (aligned (blockAt P p)).startTime + (P.dataASizeY + 3))).mm.gatherC.buffer := by
  have hne : blockAt P (p + 1) ≠ ⟨0, 0⟩ := fun hb => hrow (by rw [block_eq hP hp, hb])
  have hlast : ¬ (blockAt P p).Last P := fun hl => by
    rw [GatherC.Cursor.Last, ← block_eq hP (by omega)] at hl
    exact hrow (MatrixMultiply.succ_divMod_of_last (MatrixMultiply.rowCount_pos hP) hl).2
  rw [buffer_start hf h h0 hP hsq hp, if_neg hne, buffer_succ hf h h0 hP hsq (by omega), if_neg hlast]

theorem adds_pass {p : ℕ} (hp : p < passCount P) (r : Fin P.dataASizeY) (j : Fin N) :
    let t := t₀ + 1 + passTime P p + (aligned (blockAt P p)).startTime
    (m (t + (P.dataASizeY + 3))).mm.gatherC.buffer r j = (m (t + 1)).mm.gatherC.buffer r j +
      MatrixMultiply.cOuts ((m (t + (r + 2))).ports (inputs (t + (r + 2)))) (m (t + (r + 2))).mm j := by
  intro t
  have hb := MatrixMultiply.blockAt_valid hP p
  have hT := begin_pass hf h h0 hP hsq hp
  have he := buffer_sampled hP h hb hT le_rfl GatherC.le_doneTime r j
  simp only [← Nat.add_assoc _ (aligned (blockAt P p)).startTime] at he
  exact he

theorem fetch_pass {p : ℕ} (hp : p < passCount P) {u : ℕ} (hu : u ≤ (aligned (blockAt P p)).endTime P)
    (hprep : (m (t₀ + 1 + passTime P p + u)).mm.scatterB.main.state = .preparing) :
    ∃ f < passCount P, loadDones (control m) (t₀ + 1 + passTime P p + u + 1) = f ∧
      ∃ k first done, (m (t₀ + 1 + passTime P p + u)).mm.scatterB.main =
        ScatterB.preparingAt ⟨(blockAt P f).row, (blockAt P f).col, false⟩ k first done := by
  have hb := MatrixMultiply.blockAt_valid hP p
  have hT := begin_pass hf h h0 hP hsq hp
  have hst : (aligned (blockAt P p)).startTime = (MatrixMultiply.loadOf (blockAt P p)).lead + (N + 2) := rfl
  have hcount := loadDones_pass hf h h0 hP hsq hp (u := u + 1) (by omega)
  have hmain : (m (t₀ + 1 + passTime P p + u)).mm.scatterB.main =
    (MatrixMultiply.loadOf (blockAt P p)).state P u := MatrixMultiply.pass_scatterB hP h.mm hb hT hu
  rw [hmain] at hprep ⊢
  rw [← Nat.add_assoc] at hcount
  rcases ScatterB.Load.preparing_cases hprep with ⟨final, k, hl, hk, rfl⟩ | ⟨k, hk, rfl, hfin⟩
  · have hb0 : blockAt P p = ⟨0, 0⟩ := by
      by_contra hne
      rw [MatrixMultiply.loadOf, if_neg hne] at hl
      cases hl
    have hlead : (MatrixMultiply.loadOf (blockAt P p)).lead = N + 3 := by rw [hl]; rfl
    rw [if_neg (by omega), Nat.add_zero] at hcount
    refine ⟨p, hp, hcount, k, true, false, ?_⟩
    rw [hb0]
    exact ScatterB.Load.state_fetching P false hk
  · rw [MatrixMultiply.loadOf_block] at hfin
    have hnot : ¬ (aligned (blockAt P p)).IsLast P := fun hl =>
      Bool.false_ne_true (hfin.symm.trans (MatrixMultiply.advance_of_last hP hsq hl))
    have hne : p + 1 ≠ passCount P := fun he =>
      hnot ((MatrixMultiply.aligned_blockAt_isLast hP hsq hp).mpr he)
    rw [if_pos (by omega)] at hcount
    refine ⟨p + 1, by omega, hcount, k, false, decide (k = 0), ?_⟩
    rw [ScatterB.Load.state_lead P _ (by omega), MatrixMultiply.loadOf_block,
      MatrixMultiply.advance_of_not_last hP hsq hnot, ScatterB.loadAt_preparing P rfl hk, blockAt]

theorem loadDones_startCal {t : ℕ} (ht : t < t₀ + 1 + runTime P)
    (hs : (m t).mm.computeControl.startCal = true) :
    loadDones (control m) t = startCals (control m) t + 1 := by
  obtain ⟨hp, he⟩ := startCal_pass hf h h0 hP hsq ht hs
  have hc := loadDones_pass hf h h0 hP hsq hp (u := (aligned (blockAt P (startCals (control m) t))).startTime)
    (Nat.le_succ_of_le (Nat.le_add_right _ _))
  rw [if_pos le_rfl, ← he] at hc
  exact hc

theorem loaded_startCal {t : ℕ} (ht : t < t₀ + 1 + runTime P)
    (hs : (m t).mm.computeControl.startCal = true) :
    Loaded P (fun t => (m t).ports (inputs t)) (fun t => (m t).mm) (block P (startCals (control m) t)) t := by
  obtain ⟨hp, he⟩ := startCal_pass hf h h0 hP hsq ht hs
  have hb := MatrixMultiply.blockAt_valid hP (startCals (control m) t)
  have hc := pass_control hP h hb (begin_pass hf h h0 hP hsq hp)
    (u := (aligned (blockAt P (startCals (control m) t))).startTime) (Nat.le_add_right _ _)
  rw [← he] at hc
  have hblock : (m t).mm.control.block = blockAt P (startCals (control m) t) := by
    rw [hc]
    simp only [MatrixMultiply.Control.block, passAt, ComputeControl.passAt]
    split_ifs <;> rfl
  rw [block_eq hP hp, ← hblock]
  exact (h.mm.blocksAgree hP hsq h0 hs).loaded

theorem visitsBlocks_of_square : VisitsBlocks inputs m (t₀ + 1 + runTime P) where
  finish := by
    have hc := MatrixMultiply.timeline_finish hP hsq h.mm.control (control_start hf h h0)
    exact congrArg (fun c : Control => c.computeControl.finish) hc
  first t ht := by
    by_cases hlt : t < t₀ + 1
    · exact (idle_before hf h h0 hlt).1
    · have hb := MatrixMultiply.timeline_busy hP hsq h.mm.control (control_start hf h h0)
        (u := t - (t₀ + 1)) (by omega)
      rw [Nat.add_sub_cancel' (by omega)] at hb
      exact hb.2
  passes := by
    obtain ⟨p, hp⟩ : ∃ p, p + 1 = passCount P := ⟨_, Nat.sub_add_cancel (MatrixMultiply.passCount_pos hP)⟩
    have hs := MatrixMultiply.startTime_lt_endTime P (aligned (blockAt P p))
    have hc := startCals_pass hf h h0 hP hsq (p := p) (by omega) le_rfl
    have hrun : runTime P = passTime P p + ((aligned (blockAt P p)).endTime P + 1) := by
      rw [runTime, ← hp, passTime]
    rw [if_pos (by omega), hp, Nat.add_assoc, ← hrun] at hc
    exact hc
  streams t ht hs i hi := by
    obtain ⟨hp, he⟩ := startCal_pass hf h h0 hP hsq ht hs
    have hstream := streams_pass hf h h0 hP hsq hp hi
    rw [← he] at hstream
    exact hstream
  fetches t ht hprep i hi hcnt := by
    have hle : t₀ + 1 ≤ t := by
      by_contra hlt
      rw [(idle_before hf h h0 (t := t) (by omega)).2.2.2] at hprep
      cases hprep
    obtain ⟨u, rfl⟩ : ∃ u, t = t₀ + 1 + u := ⟨t - (t₀ + 1), by omega⟩
    obtain ⟨p, hp, v, hv, rfl⟩ := MatrixMultiply.exists_pass hP hsq (q := passCount P) (u := u)
      (by rw [runTime] at ht; omega)
    rw [← Nat.add_assoc] at hprep hcnt ⊢
    obtain ⟨f, hfp, hcount, k, first, done, hmain⟩ := fetch_pass hf h h0 hP hsq hp hv hprep
    rw [hmain] at hcnt ⊢
    obtain rfl : k = i := hcnt
    rw [hcount, block_eq hP hfp]
    exact MatrixMultiply.pointer_preparing hP hsq (MatrixMultiply.blockAt_valid hP f) hi first done
  loads t ht hs :=
    ⟨loadDones_startCal hf h h0 hP hsq ht hs, loaded_startCal hf h h0 hP hsq ht hs⟩
  clears t ht hs hrow := by
    obtain ⟨hp, he⟩ := startCal_pass hf h h0 hP hsq ht hs
    have hclear := clears_pass hf h h0 hP hsq hp hrow
    rw [← he] at hclear
    exact hclear
  adds t ht hs r j := by
    obtain ⟨hp, he⟩ := startCal_pass hf h h0 hP hsq ht hs
    have hadd := adds_pass hf h h0 hP hsq hp r j
    rw [← he] at hadd
    exact hadd
  keeps t t' htt ht' hs hs' hn hrow := by
    obtain ⟨hp, he⟩ := startCal_pass hf h h0 hP hsq (htt.trans ht') hs
    obtain ⟨hp', he'⟩ := startCal_pass hf h h0 hP hsq ht' hs'
    rw [hn] at hp' he' hrow
    have hkeep := keeps_pass hf h h0 hP hsq hp' hrow
    rw [← he, ← he'] at hkeep
    exact hkeep

end Square

end Run

/-- The first run of the machine from power-on, with any operands and any further start pulses. -/
def firstRun (P : Params) (bramC : Mem) (inputs : ℕ → Input) : ℕ → Machine P :=
  Clocked.run step (powerOn P bramC) inputs

theorem run_firstRun {inputs : ℕ → Input} {t₀ : ℕ} (hf : FirstStart inputs t₀) (bramC : Mem) :
    Run inputs (firstRun P bramC inputs) := ⟨Clocked.isRun_run _ _ _, hf.noReset⟩

/-- A run visits the blocks of the product exactly if the four sizes are equal. -/
theorem visitsBlocks_iff (P : Params) (hP : P.Fits) (bramC : Mem) (inputs : ℕ → Input) (t₀ : ℕ)
    (hf : FirstStart inputs t₀) :
    (∃ F, VisitsBlocks inputs (firstRun P bramC inputs) F) ↔
      P.dataASizeY = P.dataASizeX ∧ P.dataBSizeX = P.dataASizeX :=
  ⟨fun ⟨_, hv⟩ => square_of_visitsBlocks hf (run_firstRun hf bramC) rfl hP hv,
    fun hsq => ⟨_, visitsBlocks_of_square hf (run_firstRun hf bramC) rfl hP hsq⟩⟩

/-- A start pulse of one cycle, with cleared memories. -/
def startOnce (t : ℕ) : Input := ⟨false, t = 0, fun _ => 0, fun _ => 0⟩

theorem firstStart_startOnce : FirstStart startOnce 0 :=
  ⟨fun _ => rfl, rfl, fun t ht => absurd ht (Nat.not_lt_zero t)⟩

theorem visitsBlocks_shipped : ∃ F, VisitsBlocks startOnce (firstRun shipped (fun _ => 0) startOnce) F :=
  (visitsBlocks_iff shipped shipped_fits (fun _ => 0) startOnce 0 firstStart_startOnce).mpr ⟨rfl, rfl⟩

/-- A 64 x 64 matrix times a 64 x 32 matrix. -/
def narrow : Params := ⟨64, 64, 32, 64⟩

theorem narrow_fits : narrow.Fits := by
  constructor <;> decide

theorem narrow_misses :
    ¬ ∀ P : Params, P.Fits → ∀ (bramC : Mem) (inputs : ℕ → Input) (t₀ : ℕ), FirstStart inputs t₀ →
      ∃ F, VisitsBlocks inputs (firstRun P bramC inputs) F := by
  intro hall
  obtain ⟨F, hv⟩ := hall narrow narrow_fits (fun _ => 0) startOnce 0 firstStart_startOnce
  have hsq := square_of_visitsBlocks firstStart_startOnce (run_firstRun firstStart_startOnce _) rfl
    narrow_fits hv
  exact absurd hsq.2 (by decide)

end Machine

end EmbeddedAccelerator
