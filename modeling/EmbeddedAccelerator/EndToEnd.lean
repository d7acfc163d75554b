import EmbeddedAccelerator.Datapath.Progress
import EmbeddedAccelerator.Host
import EmbeddedAccelerator.Reset

namespace EmbeddedAccelerator.Machine

open Clocked (Mem)
open Host (Matrix matrixSize flattenMatrixRowMajor convertToInt16Array matrixMultiply)
open MatrixMultiply (rest released passAt idleAt aligned blockAt passTime passCount runTime)

/-- `Finish` is high for the first time in cycle `t`. -/
structure FinishRises {P : Params} (m : ℕ → Machine P) (t : ℕ) : Prop where
  high : (m t).finish = true
  low : ∀ u < t, (m u).finish = false

theorem FinishRises.unique {P : Params} {m : ℕ → Machine P} {t t' : ℕ} (h : FinishRises m t)
    (h' : FinishRises m t') : t = t' := by
  by_contra hne
  rcases Nat.lt_or_gt_of_ne hne with hlt | hlt
  · exact Bool.false_ne_true ((h'.low t hlt).symm.trans h.high)
  · exact Bool.false_ne_true ((h.low t' hlt).symm.trans h'.high)

section Finish

variable {P : Params} {inputs : ℕ → Input} {m : ℕ → Machine P} {T : ℕ} (hP : P.Fits) (hsq : P.Square)
  (h : Run inputs m) (hT : (m T).mm.control = passAt P (aligned ⟨0, 0⟩) false 0)
include hP hsq h hT

theorem finish_low {u : ℕ} (hu : u < runTime P) : (m (T + u)).finish = false :=
  (MatrixMultiply.timeline_busy hP hsq h.mm.control hT hu).2

theorem finish_high : (m (T + runTime P)).finish = true :=
  congrArg (fun c : MatrixMultiply.Control => c.computeControl.finish)
    (MatrixMultiply.timeline_finish hP hsq h.mm.control hT)

end Finish

section FirstRun

variable {P : Params} {A B : Mem} {r i : ℕ} {m : ℕ → Machine P}

theorem run_released (h : Clocked.IsRun step (resetInputs A B r i) m) :
    Run (fun t => resetInputs A B r i (r + 1 + t)) (fun t => m (r + 1 + t)) :=
  ⟨h.shift (r + 1), fun _ => decide_eq_false (by omega)⟩

theorem operands_released (A B : Mem) (r i n : ℕ) :
    Operands (fun t => resetInputs A B r i (r + 1 + t)) A B n := ⟨fun _ _ => rfl, fun _ _ => rfl⟩

variable (hle : P.dataASizeY ≤ P.dataASizeX) (h : Clocked.IsRun step (resetInputs A B r i) m)
  (h0 : (m 0).mm = MatrixMultiply.powerOn P)
include hle h h0

theorem control_started :
    (m (r + 1 + (i + 2))).mm.control = passAt P (aligned ⟨0, 0⟩) false 0 := by
  have hr : released (m 0).mm = rest P := by rw [h0, MatrixMultiply.released_powerOn]
  have hc : (m (r + 2 + i)).mm.control = idleAt P (aligned ⟨0, 0⟩) false := by
    rw [mm_rest hle h hr le_rfl, MatrixMultiply.control_rest]
  have hrst : (resetInputs A B r i (r + 2 + i)).rst = false := decide_eq_false (by omega)
  have hstart : (resetInputs A B r i (r + 2 + i)).start = true := decide_eq_true (by omega)
  rw [show r + 1 + (i + 2) = r + 2 + i + 1 by omega, h, step, MatrixMultiply.control_step, hc, ports, hrst,
    hstart]
  exact MatrixMultiply.idleAt_step true _ ⟨rfl, rfl⟩ false

theorem finish_low_before {t : ℕ} (ht : t < r + 1 + (i + 2)) : (m t).finish = false := by
  have hr : released (m 0).mm = rest P := by rw [h0, MatrixMultiply.released_powerOn]
  obtain rfl | ⟨u, hu, rfl⟩ | ⟨u, hu, rfl⟩ :
      t = 0 ∨ (∃ u ≤ r, t = u + 1) ∨ ∃ u ≤ i, t = r + 2 + u := by
    by_cases h1 : t = 0
    · exact .inl h1
    by_cases h2 : t ≤ r + 1
    · exact .inr (.inl ⟨t - 1, by omega, by omega⟩)
    · exact .inr (.inr ⟨t - (r + 2), by omega, by omega⟩)
  · rw [finish, h0]
    rfl
  · rw [finish, mm_reset hle h hu]
    rfl
  · rw [finish, mm_rest hle h hr hu]
    rfl

end FirstRun

theorem mirrored_lt_matrixSize (j : Fin matrixSize) : mirrored j < matrixSize := by
  have hj := j.isLt
  simp only [mirrored, matrixSize, N] at *
  omega

/-- `B` with the columns of every block of 16 in reverse order. -/
def mirrorColumns (B : Matrix) : Matrix := fun k j => B k ⟨mirrored j, mirrored_lt_matrixSize j⟩

theorem partialProduct_flatten (A B : Matrix) (oldA oldB : Mem) (i j : Fin matrixSize) :
    partialProduct shipped (flattenMatrixRowMajor A oldA) (flattenMatrixRowMajor B oldB) matrixSize i
      (mirrored j) = matrixMultiply A (mirrorColumns B) i j := by
  rw [Host.matrixMultiply_eq_sum, partialProduct, Finset.sum_range]
  refine Finset.sum_congr rfl fun k _ => ?_
  rw [← Host.flattenMatrixRowMajor_apply A oldA, mirrorColumns, ← Host.flattenMatrixRowMajor_apply B oldB]
  rfl

theorem firstRun_result (A B : Matrix) (oldA oldB bramC : Mem) (r i : ℕ) :
    let m := Clocked.run step (powerOn shipped bramC)
      (resetInputs (flattenMatrixRowMajor A oldA) (flattenMatrixRowMajor B oldB) r i)
    FinishRises m (r + i + 1658) ∧ ∀ i' j : Fin matrixSize,
      convertToInt16Array (m (r + i + 1658)).bramC (i' * matrixSize + j) =
        matrixMultiply A (mirrorColumns B) i' j := by
  intro m
  have h : Clocked.IsRun step
      (resetInputs (flattenMatrixRowMajor A oldA) (flattenMatrixRowMajor B oldB) r i) m :=
    Clocked.isRun_run _ _ _
  have hle := shipped_square.1.le
  have hT := control_started hle h rfl
  have htime : r + i + 1658 = r + 1 + (i + 2 + runTime shipped) := by
    rw [MatrixMultiply.runTime_shipped]
    omega
  rw [htime]
  refine ⟨⟨?_, fun u hu => ?_⟩, fun i' j => ?_⟩
  · exact finish_high (m := fun t => m (r + 1 + t)) shipped_fits shipped_square (run_released h) hT
  · by_cases hlt : u < r + 1 + (i + 2)
    · exact finish_low_before hle h rfl hlt
    · have hf := finish_low (m := fun t => m (r + 1 + t)) shipped_fits shipped_square (run_released h) hT
        (u := u - (r + 1 + (i + 2))) (by omega)
      rwa [show r + 1 + (i + 2 + (u - (r + 1 + (i + 2)))) = u by omega] at hf
  · have hc := half_bramC_runTime (m := fun t => m (r + 1 + t)) shipped_fits shipped_square
      (run_released h) hT (operands_released _ _ r i _) i'.isLt j.isLt
    rw [Host.convertToInt16Array_eq_half, ← partialProduct_flatten A B oldA oldB]
    exact hc

/-- In the cycle in which `Finish` rises, the host decodes from `Bram_C` what `matrix_multiply`
computes. -/
def AgreesWithHost (A B : Matrix) (oldA oldB bramC : Mem) (r i : ℕ) : Prop :=
  let m := Clocked.run step (powerOn shipped bramC)
    (resetInputs (flattenMatrixRowMajor A oldA) (flattenMatrixRowMajor B oldB) r i)
  ∃ t, FinishRises m t ∧ ∀ i' j : Fin matrixSize,
    convertToInt16Array (m t).bramC (i' * matrixSize + j) = matrixMultiply A B i' j

/-- The products agree exactly when mirroring the columns of `B` does not change the product. -/
theorem agreesWithHost_iff (A B : Matrix) (oldA oldB bramC : Mem) (r i : ℕ) :
    AgreesWithHost A B oldA oldB bramC r i ↔ ∀ i' j : Fin matrixSize,
      ∑ k, (A i' k).signExtend 16 *
        ((B k j).signExtend 16 - (mirrorColumns B k j).signExtend 16) = 0 := by
  obtain ⟨hf, hr⟩ := firstRun_result A B oldA oldB bramC r i
  have hdiff (i' j : Fin matrixSize) :
      matrixMultiply A (mirrorColumns B) i' j = matrixMultiply A B i' j ↔
        ∑ k, (A i' k).signExtend 16 *
          ((B k j).signExtend 16 - (mirrorColumns B k j).signExtend 16) = 0 := by
    simp only [mul_sub, Finset.sum_sub_distrib, ← Host.matrixMultiply_eq_sum]
    rw [sub_eq_zero, eq_comm]
  constructor
  · rintro ⟨t, ht, hagree⟩ i' j
    rw [← hdiff, ← hr, ← hagree, hf.unique ht]
  · intro hzero
    exact ⟨_, hf, fun i' j => (hr i' j).trans ((hdiff i' j).mpr (hzero i' j))⟩

/-- The matrix whose only nonzero entry is a 1 in the first column of the first row. -/
def unitMatrix : Matrix := fun i j => if i = 0 ∧ j = 0 then 1 else 0

theorem unitMatrix_disagrees : ¬ AgreesWithHost unitMatrix unitMatrix 0 0 0 0 0 := by
  rintro ⟨t, ht, hagree⟩
  obtain ⟨hf, hr⟩ := firstRun_result unitMatrix unitMatrix 0 0 0 0 0
  have h := hagree 0 0
  rw [← hf.unique ht, hr 0 0, Host.matrixMultiply_eq_sum, Host.matrixMultiply_eq_sum] at h
  have hleft (k : Fin matrixSize) : mirrorColumns unitMatrix k 0 = 0 := if_neg fun hk => by
    exact absurd (congrArg Fin.val hk.2) (by decide)
  have hright (k : Fin matrixSize) (hk : k ≠ 0) : unitMatrix k 0 = 0 := if_neg fun h0 => hk h0.1
  rw [Finset.sum_eq_zero (fun k _ => by rw [hleft]; simp),
    Finset.sum_eq_single 0 (fun k _ hk => by rw [hright k hk]; simp) (by simp)] at h
  exact absurd h (by decide)

end EmbeddedAccelerator.Machine
