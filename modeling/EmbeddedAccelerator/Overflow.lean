import EmbeddedAccelerator.Clocked.Sums
import EmbeddedAccelerator.EndToEnd
import EmbeddedAccelerator.Reuse

/-!
Which 16-bit operations of a run leave the range. The products never do; the sums are kept modulo
`2 ^ 16`, with no saturation and no flag.
-/

namespace EmbeddedAccelerator

open Clocked (Mem Fits BlockFits node signed)

namespace PEArray

theorem adderTree_eq_node {n : ℕ} (c : Fin N → BitVec n) :
    adderTree c = node (fun k => c (Fin.ofNat N k)) 4 0 := rfl

end PEArray

namespace Machine

open GatherC (Cursor)
open Host (Matrix matrixSize flattenMatrixRowMajor convertToInt16Array)
open MatrixMultiply (Control Fetched aligned blockAt idleAt passAt passTime passCount runTime)

variable {P : Params}

def bIn (m : Machine P) : Fin N → BitVec 8 := ScatterA.aIn m.mm.scatterA m.bramRddataA

/-- The products that row `i` of the array feeds into its adder tree. -/
def leaves (m : Machine P) (i : Fin N) (k : ℕ) : BitVec 16 :=
  PEArray.cOuts m.mm.peArray m.bIn i (Fin.ofNat N k)

/-- Every 16-bit operation in this cycle gives the exact result: the products, the additions in the
trees, and the additions to the selected row of `buffer`. -/
structure NoOverflow (m : Machine P) : Prop where
  product : ∀ i j : Fin N, Fits 16 ((m.mm.peArray i j).toInt * (m.bIn j).toInt)
  tree : ∀ (i : Fin N) l e, l < 4 → 2 ^ (l + 1) * (e + 1) ≤ 2 ^ 4 →
    Fits 16 ((node (m.leaves i) l (2 * e)).toInt + (node (m.leaves i) l (2 * e + 1)).toInt)
  buffer : m.mm.gatherC.control.gather.state = .gathering →
    m.mm.gatherC.control.bram.bramState ≠ .cleaning → ∀ (r : Fin P.dataASizeY) (i : Fin N),
      r.val = pred32 m.mm.gatherC.control.gather.inBlockCnt →
        Fits 16 ((m.mm.gatherC.buffer r i).toInt + (PEArray.cOut m.mm.peArray m.bIn i).toInt)

theorem product_fits (m : Machine P) (i j : Fin N) :
    Fits 16 ((m.mm.peArray i j).toInt * (m.bIn j).toInt) :=
  Clocked.fits_mul (Clocked.fits_toInt _) (Clocked.fits_toInt _)

theorem noOverflow_of_zero {m : Machine P} (h : ∀ j, m.bIn j = 0) : NoOverflow m := by
  have hleaf (i : Fin N) : m.leaves i = fun _ => 0 := by
    funext k
    rw [leaves, PEArray.cOuts, PE.cOut, h]
    simp
  have hnode (i : Fin N) (l e : ℕ) : node (m.leaves i) l e = 0 := by
    rw [hleaf, Clocked.node_eq_sum]
    exact Finset.sum_const_zero
  refine ⟨m.product_fits, fun i l e _ _ => ?_, fun _ _ r i _ => ?_⟩
  · rw [hnode, hnode]
    decide
  · have hout : PEArray.cOut m.mm.peArray m.bIn i = 0 := by
      rw [PEArray.cOut, PEArray.adderTree_eq_node]
      exact hnode i 4 0
    rw [hout, BitVec.ofNat_eq_ofNat, BitVec.toInt_zero, add_zero]
    exact Clocked.fits_toInt _

/-- The `k`-th product of row `r` of `A` and column `c` of `B`. -/
def term (P : Params) (A B : Mem) (r c k : ℕ) : BitVec 16 :=
  (A (r * P.dataASizeX + k)).signExtend 16 * (B (k * P.dataBSizeX + c)).signExtend 16

theorem signed_term (A B : Mem) (r c k : ℕ) :
    signed (term P A B r c) k = (A (r * P.dataASizeX + k)).toInt * (B (k * P.dataBSizeX + c)).toInt := by
  rw [signed, term, Clocked.signExtend_mul_signExtend]
  exact (Clocked.toInt_ofInt_iff _).mpr (Clocked.fits_mul (Clocked.fits_toInt _) (Clocked.fits_toInt _))

section Pass

variable {inputs : ℕ → Input} {m : ℕ → Machine P} {A B : Mem} {n T : ℕ} {b : Cursor} {fin : Bool}
  (hP : P.Fits) (hsq : P.Square) (h : Run inputs m) (ho : Operands inputs A B n) (hb : b.Valid P)
  (hT : (m T).mm.control = passAt P (aligned b) fin 0) (hn : T + (aligned b).endTime P < n)
include hP h hb hT

theorem bIn_pass {u : ℕ} (hu : u ≤ (aligned b).endTime P) :
    (∃ r < P.dataASizeY, u = (aligned b).startTime + (r + 2)) ∨ ∀ j, (m (T + u)).bIn j = 0 := by
  have hc : (m (T + u)).mm.scatterA = ScatterA.streamAt P b.row (u - (aligned b).startTime) :=
    congrArg Control.scatterA (pass_control hP h hb hT hu)
  by_cases hrow : 1 < u - (aligned b).startTime ∧ u - (aligned b).startTime ≤ P.dataASizeY + 1
  · exact .inl ⟨u - (aligned b).startTime - 2, by omega, by omega⟩
  · apply Or.inr
    intro j
    rw [bIn, ScatterA.aIn, hc, ScatterA.outputEnable_streamAt P _ hP.ay_pos, decide_eq_false hrow]
    rfl

include hsq

theorem buffer_row {r : ℕ} (hr : r < P.dataASizeY) (hsum : b ≠ ⟨0, 0⟩ → ∀ r j,
    (m T).mm.gatherC.buffer r j = partialProduct P A B (b.row * N) r (b.col * N + j.rev)) (i : Fin N) :
    (m (T + ((aligned b).startTime + (r + 2)))).mm.gatherC.buffer ⟨r, hr⟩ i =
      ∑ k ∈ Finset.range (2 ^ 4 * b.row), term P A B r (b.col * N + i.rev) k := by
  have hay := hP.ay_le
  have hg := GatherC.buffer_sampling h.mm.gatherC (gatherC_during hP h hb hT) (by omega) ⟨r, hr⟩ i
    (k := r + 1) (by omega)
  rw [if_neg (lt_irrefl _), Nat.add_assoc, Nat.add_assoc T] at hg
  refine hg.trans ?_
  rw [buffer_startTime hP h hb hT hsq]
  by_cases hb0 : b = ⟨0, 0⟩
  · rw [if_pos hb0, hb0]
    rfl
  · rw [if_neg hb0, hsum hb0, partialProduct, Nat.mul_comm b.row]
    rfl

include ho hn

variable (hQ : b ≠ ⟨0, 0⟩ → Fetched P (fun t => (m t).ports (inputs t)) (fun t => (m t).mm) b T) {r : ℕ}
  (hr : r < P.dataASizeY)
include hQ hr

theorem node_leaves (i : Fin N) {l e : ℕ} (hl : l ≤ 4) (he : 2 ^ l * (e + 1) ≤ 2 ^ 4) :
    node ((m (T + ((aligned b).startTime + (r + 2)))).leaves i) l e =
      node (term P A B r (b.col * N + i.rev)) l (2 ^ (4 - l) * b.row + e) := by
  have hs := MatrixMultiply.startTime_lt_endTime P (aligned b)
  rw [← Clocked.node_shift, Nat.add_sub_cancel' hl]
  apply Clocked.node_congr
  intro k hk
  have hmod : (Fin.ofNat N k).val = k := Nat.mod_eq_of_lt (lt_of_lt_of_le hk he)
  have hw := weights_pass hP hsq h ho hb hT hn hQ (k := r + 2) (by omega) i (Fin.ofNat N k)
  have ha := aIn_pass hP h ho hb hT hn hr (Fin.ofNat N k)
  rw [hmod] at hw ha
  rw [leaves, PEArray.cOuts, PE.cOut, hw, bIn, ha, term, mul_comm, Nat.mul_comm b.row]
  rfl

theorem cOut_row (i : Fin N) :
    PEArray.cOut (m (T + ((aligned b).startTime + (r + 2)))).mm.peArray
        (m (T + ((aligned b).startTime + (r + 2)))).bIn i =
      node (term P A B r (b.col * N + i.rev)) 4 b.row := by
  have hnode := node_leaves hP hsq h ho hb hT hn hQ hr i (l := 4) (e := 0) le_rfl le_rfl
  rw [Nat.sub_self, pow_zero, Nat.one_mul] at hnode
  rw [PEArray.cOut, PEArray.adderTree_eq_node]
  exact hnode

theorem noOverflow_row (hsum : b ≠ ⟨0, 0⟩ → ∀ r j,
    (m T).mm.gatherC.buffer r j = partialProduct P A B (b.row * N) r (b.col * N + j.rev)) :
    NoOverflow (m (T + ((aligned b).startTime + (r + 2)))) ↔
      ∀ i : Fin N, BlockFits 16 (term P A B r (b.col * N + i.rev)) 4 b.row := by
  have hs := MatrixMultiply.startTime_lt_endTime P (aligned b)
  have hay := hP.ay_le
  have hnode (i : Fin N) {l e : ℕ} := node_leaves hP hsq h ho hb hT hn hQ hr i (l := l) (e := e)
  have hout := cOut_row hP hsq h ho hb hT hn hQ hr
  have hbuf := buffer_row hP hsq h hb hT hr hsum
  have hgather := gatherC_pass hP h hb hT (k := r + 1 + 1) (by omega)
  rw [GatherC.gatherAt_gathering P b (by omega)] at hgather
  have hindex {l : ℕ} (hl : l < 4) (e : ℕ) :
      2 ^ (4 - l) * b.row + 2 * e = 2 * (2 ^ (4 - (l + 1)) * b.row + e) := by
    have hpow : 2 ^ (4 - l) = 2 * 2 ^ (4 - (l + 1)) := by rw [← pow_succ', Nat.sub_add_eq, Nat.sub_add_cancel (by omega)]
    rw [hpow, Nat.mul_add, Nat.mul_assoc]
  have htree (i : Fin N) {l e : ℕ} (hl : l < 4) (he : 2 ^ (l + 1) * (e + 1) ≤ 2 ^ 4) :
      node ((m (T + ((aligned b).startTime + (r + 2)))).leaves i) l (2 * e) =
          node (term P A B r (b.col * N + i.rev)) l (2 * (2 ^ (4 - (l + 1)) * b.row + e)) ∧
        node ((m (T + ((aligned b).startTime + (r + 2)))).leaves i) l (2 * e + 1) =
          node (term P A B r (b.col * N + i.rev)) l (2 * (2 ^ (4 - (l + 1)) * b.row + e) + 1) := by
    obtain ⟨he0, he1⟩ := Clocked.children_le he
    rw [hnode i hl.le he0, hnode i hl.le he1, ← Nat.add_assoc, hindex hl]
    exact ⟨rfl, rfl⟩
  constructor
  · intro hno i
    constructor
    · intro l e hl he
      obtain ⟨h0, h1⟩ := htree i hl he
      rw [← h0, ← h1]
      exact hno.tree i l e hl he
    · rw [← hbuf, ← hout]
      apply hno.buffer
      · rw [hgather]
        rfl
      · rw [hgather]
        simp [GatherC.gatheringAt]
      · rw [hgather]
        exact (pred32_succ (by omega)).symm
  · intro hfit
    refine ⟨product_fits _, fun i l e hl he => ?_, fun _ _ r' i hr' => ?_⟩
    · obtain ⟨h0, h1⟩ := htree i hl he
      rw [h0, h1]
      exact (hfit i).tree l e hl he
    · rw [hgather] at hr'
      obtain rfl : r' = ⟨r, hr⟩ := Fin.ext (hr'.trans (pred32_succ (by omega)))
      rw [hbuf, hout]
      exact (hfit i).accumulate

end Pass

section WholeRun

variable {inputs : ℕ → Input} {m : ℕ → Machine P} {A B : Mem} {T : ℕ} {fin : Bool} (hP : P.Fits)
  (hsq : P.Square) (h : Run inputs m) (hT : (m T).mm.control = passAt P (aligned ⟨0, 0⟩) fin 0)
  (ho : Operands inputs A B (T + runTime P))
include hP hsq h hT ho

theorem noOverflow_run :
    (∀ u < runTime P, NoOverflow (m (T + u))) ↔
      ∀ r < P.dataASizeY, ∀ c < P.dataBSizeX, ∀ q < GatherC.rowCount P,
        BlockFits 16 (term P A B r c) 4 q := by
  have hR := MatrixMultiply.rowCount_pos hP
  have hpass {p : ℕ} (hp : p < passCount P) {r : ℕ} (hr : r < P.dataASizeY) :
      NoOverflow (m (T + passTime P p + ((aligned (blockAt P p)).startTime + (r + 2)))) ↔
        ∀ i : Fin N, BlockFits 16 (term P A B r ((blockAt P p).col * N + i.rev)) 4 (blockAt P p).row := by
    have hprog := progress hP hsq h hT ho hp.le
    have hle : passTime P (p + 1) ≤ runTime P := MatrixMultiply.passTime_mono hp
    rw [passTime] at hle
    exact noOverflow_row hP hsq h ho (MatrixMultiply.blockAt_valid hP p)
      (MatrixMultiply.timeline_pass hP hsq h.mm.control hT hp) (by omega) (hprog.fetched hp) hr (hprog.sums hp)
  constructor
  · intro hall r hr c hc q hq
    have hcol : c / N < GatherC.colCount P := Nat.div_lt_div_of_lt_of_dvd hP.dvd_bx hc
    have hp : GatherC.rowCount P * (c / N) + q < passCount P := by
      have hmul := Nat.mul_le_mul_left (GatherC.rowCount P) hcol
      rw [Nat.mul_succ] at hmul
      rw [passCount]
      omega
    have hblock := MatrixMultiply.blockAt_eq hP hp
    rw [Nat.mul_add_mod, Nat.mod_eq_of_lt hq, Nat.mul_add_div hR, Nat.div_eq_of_lt hq, Nat.add_zero] at hblock
    have hs := MatrixMultiply.startTime_lt_endTime P (aligned (blockAt P (GatherC.rowCount P * (c / N) + q)))
    have hle : passTime P (GatherC.rowCount P * (c / N) + q + 1) ≤ runTime P := MatrixMultiply.passTime_mono hp
    rw [passTime] at hle
    have hno := hall (passTime P (GatherC.rowCount P * (c / N) + q) +
      ((aligned (blockAt P (GatherC.rowCount P * (c / N) + q))).startTime + (r + 2))) (by omega)
    rw [← Nat.add_assoc, hpass hp hr, hblock] at hno
    have hfit := hno (Fin.rev (Fin.ofNat N c))
    have hc' : c / N * N + (Fin.ofNat N c).val = c := Nat.div_add_mod' c N
    rwa [Fin.rev_rev, hc'] at hfit
  · intro hall u hu
    obtain ⟨p, hp, v, hv, rfl⟩ := MatrixMultiply.exists_pass hP hsq hu
    have hvalid := MatrixMultiply.blockAt_valid hP p
    have hT' := MatrixMultiply.timeline_pass hP hsq h.mm.control hT hp
    rw [← Nat.add_assoc]
    obtain ⟨r, hr, rfl⟩ | hzero := bIn_pass hP h hvalid hT' hv
    · rw [hpass hp hr]
      intro i
      have hcol : (blockAt P p).col * N + i.rev < P.dataBSizeX := by
        have hmul := Nat.mul_le_mul_right N hvalid.2
        rw [Nat.succ_mul, GatherC.colCount, Nat.div_mul_cancel hP.dvd_bx] at hmul
        have hi := i.rev.isLt
        omega
      exact hall r hr _ hcol _ hvalid.1
    · exact noOverflow_of_zero hzero

end WholeRun

theorem noOverflow_of_idle {m : Machine P} {x : MatrixMultiply.Pass} {fin : Bool}
    (h : m.mm.control = idleAt P x fin) : NoOverflow m := by
  have hc : m.mm.scatterA = ScatterA.ready x.column := congrArg Control.scatterA h
  apply noOverflow_of_zero
  intro j
  rw [bIn, ScatterA.aIn, hc]
  rfl

theorem noOverflow_job (hP : P.Fits) (hsq : P.Square) {j : Job} {m : ℕ → Machine P} (h : Run j.inputs m)
    (h0 : Rests (m 0)) :
    (∀ t ≤ j.idle + cycles P, NoOverflow (m t)) ↔
      ∀ r < P.dataASizeY, ∀ c < P.dataBSizeX, ∀ q < GatherC.rowCount P,
        BlockFits 16 (term P j.bramA j.bramB r c) 4 q := by
  rw [← noOverflow_run hP hsq h (control_pulsed hsq h h0) ⟨fun _ _ => rfl, fun _ _ => rfl⟩]
  constructor
  · intro hall u hu
    apply hall
    rw [cycles]
    omega
  · intro hall t ht
    obtain hidle | ⟨u, hu, rfl⟩ | rfl | rfl : t ≤ j.idle ∨ (∃ u < runTime P, t = j.idle + 1 + u) ∨
        t = j.idle + 1 + runTime P ∨ t = j.idle + cycles P := by
      simp only [cycles] at *
      by_cases hlt : t ≤ j.idle
      · exact .inl hlt
      by_cases hrun : t < j.idle + 1 + runTime P
      · exact .inr (.inl ⟨t - (j.idle + 1), by omega, by omega⟩)
      · omega
    · exact noOverflow_of_idle (rests_before hsq h h0 hidle).control
    · exact hall u hu
    · exact noOverflow_of_idle (control_finished hP hsq h h0)
    · exact noOverflow_of_idle (rests_after hP hsq h h0).control

section Matrices

theorem mod_lt_matrixSize (k : ℕ) : k % matrixSize < matrixSize := Nat.mod_lt k (by decide)

variable (A B : Matrix) (i c : Fin matrixSize)

/-- The product of the `k`-th entries of row `i` and column `c`. -/
def exactTerm (k : ℕ) : ℤ :=
  let k : Fin matrixSize := ⟨k % matrixSize, mod_lt_matrixSize k⟩
  (A i k).toInt * (B k c).toInt

def exactProduct : ℤ := ∑ k, (A i k).toInt * (B k c).toInt

/-- The sums of 2, 4, 8 and 16 terms that the trees form, and those of 16, 32, 48 and 64 terms that
`buffer` holds, are 16-bit numbers. -/
structure PartialSumsFit : Prop where
  node : ∀ l e, l < 4 → 2 ^ (l + 1) * (e + 1) ≤ matrixSize →
    Fits 16 (∑ k ∈ Finset.range (2 ^ (l + 1)), exactTerm A B i c (2 ^ (l + 1) * e + k))
  running : ∀ q < 4, Fits 16 (∑ k ∈ Finset.range (16 * (q + 1)), exactTerm A B i c k)

theorem signed_term_flatten (oldA oldB : Mem) {k : ℕ} (hk : k < matrixSize) :
    signed (term shipped (flattenMatrixRowMajor A oldA) (flattenMatrixRowMajor B oldB) i c) k =
      exactTerm A B i c k := by
  have hmod : (⟨k % matrixSize, mod_lt_matrixSize k⟩ : Fin matrixSize) = ⟨k, hk⟩ :=
    Fin.ext (Nat.mod_eq_of_lt hk)
  rw [signed_term, exactTerm, hmod, ← Host.flattenMatrixRowMajor_apply A oldA,
    ← Host.flattenMatrixRowMajor_apply B oldB]
  rfl

theorem blockFits_flatten (oldA oldB : Mem) :
    (∀ q < 4, BlockFits 16 (term shipped (flattenMatrixRowMajor A oldA) (flattenMatrixRowMajor B oldB) i c) 4 q) ↔
      PartialSumsFit A B i c := by
  have hsigned {k : ℕ} (hk : k < matrixSize) := signed_term_flatten A B i c oldA oldB hk
  have hnode {l e : ℕ} (he : 2 ^ (l + 1) * (e + 1) ≤ matrixSize) :
      node (signed (term shipped (flattenMatrixRowMajor A oldA) (flattenMatrixRowMajor B oldB) i c)) (l + 1) e =
        ∑ k ∈ Finset.range (2 ^ (l + 1)), exactTerm A B i c (2 ^ (l + 1) * e + k) := by
    rw [Clocked.node_eq_sum]
    apply Finset.sum_congr rfl
    intro k hk
    rw [Finset.mem_range] at hk
    rw [Nat.mul_succ] at he
    exact hsigned (by omega)
  have hsum {q : ℕ} (hq : q < 4) :
      ∑ k ∈ Finset.range (16 * (q + 1)),
          signed (term shipped (flattenMatrixRowMajor A oldA) (flattenMatrixRowMajor B oldB) i c) k =
        ∑ k ∈ Finset.range (16 * (q + 1)), exactTerm A B i c k := by
    apply Finset.sum_congr rfl
    intro k hk
    rw [Finset.mem_range] at hk
    exact hsigned (lt_of_lt_of_le hk (by simp only [matrixSize]; omega))
  rw [Clocked.blockFits_iff]
  constructor
  · rintro ⟨h1, h2⟩
    exact ⟨fun l e hl he => hnode he ▸ h1 l e hl he, fun q hq => hsum hq ▸ h2 q hq⟩
  · rintro ⟨h1, h2⟩
    exact ⟨fun l e hl he => (hnode he).symm ▸ h1 l e hl he, fun q hq => (hsum hq).symm ▸ h2 q hq⟩

theorem partialProduct_eq_ofInt (oldA oldB : Mem) :
    partialProduct shipped (flattenMatrixRowMajor A oldA) (flattenMatrixRowMajor B oldB) matrixSize i c =
      BitVec.ofInt 16 (exactProduct A B i c) := by
  rw [exactProduct, Clocked.ofInt_sum, partialProduct, Finset.sum_range]
  apply Finset.sum_congr rfl
  intro k _
  rw [← Clocked.signExtend_mul_signExtend, ← Host.flattenMatrixRowMajor_apply A oldA,
    ← Host.flattenMatrixRowMajor_apply B oldB]
  rfl

end Matrices

/-- The columns of every block of 16 in reverse order. -/
def mirrorPerm : Equiv.Perm (Fin matrixSize) :=
  Function.Involutive.toPerm (fun c => ⟨mirrored c, mirrored_lt_matrixSize c⟩) fun c => by
    apply Fin.ext
    simp only [mirrored, N]
    omega

/-- Whatever the machine has done before, a job with the matrices `A` and `B` forms no product
outside the range, and no sum outside it exactly when the partial sums of all rows and columns fit.
Every entry of `C` is a sum modulo `2 ^ 16`, and exact when that sum fits. -/
theorem noOverflow_iff : ∃ π : Equiv.Perm (Fin matrixSize),
    ∀ (bramA bramB bramC : Mem) (r i : ℕ) (jobs : List Job) (A B : Matrix) (oldA oldB : Mem) (idle : ℕ)
      (longPulse : Bool),
    let s := Clocked.run step (jobs.foldl perform (afterReset bramA bramB bramC r i))
      (Job.inputs ⟨idle, longPulse, flattenMatrixRowMajor A oldA, flattenMatrixRowMajor B oldB⟩)
    let entry (i' c : Fin matrixSize) : ℤ :=
      (convertToInt16Array (s (idle + cycles shipped)).bramC (i' * matrixSize + c)).toInt
    (∀ t, ∀ k l : Fin N, Fits 16 (((s t).mm.peArray k l).toInt * ((s t).bIn l).toInt)) ∧
      ((∀ t ≤ idle + cycles shipped, NoOverflow (s t)) ↔ ∀ i' c, PartialSumsFit A B i' c) ∧
      ∀ i' c, entry i' c ≡ exactProduct A B i' (π c) [ZMOD 2 ^ 16] ∧
        (entry i' c = exactProduct A B i' (π c) ↔ Fits 16 (exactProduct A B i' (π c))) := by
  refine ⟨mirrorPerm, fun bramA bramB bramC r i jobs A B oldA oldB idle longPulse => ?_⟩
  intro s entry
  have hrests : Rests (jobs.foldl perform (afterReset bramA bramB bramC r i)) :=
    rests_foldl_perform shipped_fits shipped_square jobs (rests_afterReset bramA bramB bramC r i)
  have hrun := run_job (jobs.foldl perform (afterReset bramA bramB bramC r i))
    ⟨idle, longPulse, flattenMatrixRowMajor A oldA, flattenMatrixRowMajor B oldB⟩
  have hentry (i' c : Fin matrixSize) : entry i' c = (BitVec.ofInt 16 (exactProduct A B i' (mirrorPerm c))).toInt := by
    rw [← partialProduct_eq_ofInt A B i' (mirrorPerm c) oldA oldB]
    change (convertToInt16Array _ _).toInt = _
    rw [Host.convertToInt16Array_eq_half]
    exact congrArg BitVec.toInt
      (half_bramC_cycles shipped_fits shipped_square hrun hrests (r := i') (c := c) i'.isLt c.isLt)
  refine ⟨fun t => (s t).product_fits, ?_, fun i' c => ?_⟩
  · refine (noOverflow_job shipped_fits shipped_square hrun hrests).trans ?_
    constructor
    · intro h i' c
      exact (blockFits_flatten A B i' c oldA oldB).mp (h i' i'.isLt c c.isLt)
    · intro h i' hi c hc
      exact (blockFits_flatten A B ⟨i', hi⟩ ⟨c, hc⟩ oldA oldB).mpr (h _ _)
  · rw [hentry]
    exact ⟨Clocked.toInt_ofInt_modEq _, Clocked.toInt_ofInt_iff _⟩

/-- Every entry is -128. -/
def lowest : Matrix := fun _ _ => BitVec.intMin 8

/-- Two products of -128 and -128 already make 32768. -/
theorem lowest_overflows :
    let s := Clocked.run step (afterReset 0 0 0 0 0)
      (Job.inputs ⟨0, false, flattenMatrixRowMajor lowest 0, flattenMatrixRowMajor lowest 0⟩)
    ¬ (∀ t ≤ cycles shipped, NoOverflow (s t)) ∧ ∀ i c : Fin matrixSize,
      (convertToInt16Array (s (cycles shipped)).bramC (i * matrixSize + c)).toInt ≠
        exactProduct lowest lowest i c := by
  intro s
  have hrun := run_job (afterReset 0 0 0 0 0)
    ⟨0, false, flattenMatrixRowMajor lowest 0, flattenMatrixRowMajor lowest 0⟩
  have hjob := noOverflow_job shipped_fits shipped_square hrun (rests_afterReset 0 0 0 0 0)
  rw [Nat.zero_add] at hjob
  constructor
  · intro hall
    have hfit := (blockFits_flatten lowest lowest 0 0 0 0).mp
      (hjob.mp hall 0 (by decide) 0 (by decide))
    exact absurd (hfit.node 0 0 (by decide) (by decide)) (by decide)
  · intro i c hc
    have hterm (k : Fin matrixSize) : (lowest i k).toInt * (lowest k c).toInt = 2 ^ 14 := rfl
    have hexact : exactProduct lowest lowest i c = 2 ^ 20 := by
      rw [exactProduct, Finset.sum_congr rfl fun k _ => hterm k, Finset.sum_const, Finset.card_univ,
        Fintype.card_fin]
      rfl
    have hfit := Clocked.fits_toInt (convertToInt16Array (s (cycles shipped)).bramC (i * matrixSize + c))
    rw [hc, hexact] at hfit
    exact absurd hfit (by decide)

end Machine

end EmbeddedAccelerator
