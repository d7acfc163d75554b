import EmbeddedAccelerator.Datapath.Blocks
import EmbeddedAccelerator.Machine
import EmbeddedAccelerator.Schedule.Timeline

/-!
What one pass contributes to the product. The trace begins with the run, so that the operands stay
the same from cycle 0 on.
-/

namespace EmbeddedAccelerator.Machine

open Clocked (Mem)
open GatherC (Cursor)
open MatrixMultiply (Control Fetched Loaded aligned loadOf passAt)

variable {P : Params}

/-- The machine in every cycle, `rst` staying low. -/
structure Run (inputs : ℕ → Input) (m : ℕ → Machine P) : Prop where
  isRun : Clocked.IsRun step inputs m
  noReset : ∀ t, (inputs t).rst = false

/-- For `n` cycles the host leaves the operands in the memories. -/
structure Operands (inputs : ℕ → Input) (A B : Mem) (n : ℕ) : Prop where
  bramA : ∀ t < n, (inputs t).bramA = A
  bramB : ∀ t < n, (inputs t).bramB = B

variable {inputs : ℕ → Input} {m : ℕ → Machine P} {A B : Mem} {n : ℕ}

theorem Run.mm (h : Run inputs m) :
    MatrixMultiply.Run P (fun t => (m t).ports (inputs t)) (fun t => (m t).mm) where
  isRun t := by
    show (m (t + 1)).mm = _
    rw [h.isRun t, step]
  noReset := h.noReset

section Ports

variable (h : Run inputs m) (ho : Operands inputs A B n) {t : ℕ} (ht : t < n) (j : Fin N)
include h ho ht

theorem bramRddataA_lane {a : ℕ} (ha : ScatterA.bramAddrPointer P (m t).mm.scatterA = N * a) :
    Clocked.lane 8 (m (t + 1)).bramRddataA j = A (N * a + j) := by
  have haddr : (m t).bramAddrA = a := by
    rw [bramAddrA, ScatterA.bramAddrA, ha]
    exact Nat.mul_div_cancel_left a (by decide)
  rw [h.isRun t, step, ho.bramA t ht, haddr]
  exact Clocked.Mem.lane_word j.isLt

theorem bramRddataB_lane {a : ℕ} (ha : ScatterB.bramAddrPointer P (m t).mm.scatterB.main = N * a) :
    Clocked.lane 8 (m (t + 1)).bramRddataB j = B (N * a + j) := by
  have haddr : (m t).bramAddrB = a := by
    rw [bramAddrB, ScatterB.bramAddrB, ha]
    exact Nat.mul_div_cancel_left a (by decide)
  rw [h.isRun t, step, ho.bramB t ht, haddr]
  exact Clocked.Mem.lane_word j.isLt

end Ports

theorem row_aligned {x : ℕ} (hx : N ∣ x) (r c : ℕ) : r * x + c * N = N * (r * (x / N) + c) := by
  obtain ⟨k, rfl⟩ := hx
  rw [Nat.mul_div_cancel_left k (by decide), Nat.mul_add, Nat.mul_left_comm, Nat.mul_comm c N]

theorem pointer_calculating (hP : P.Fits) {c r : ℕ} (hc : c < ScatterA.colCount P)
    (hr : r < P.dataASizeY) :
    ScatterA.bramAddrPointer P (ScatterA.calculating c r) = N * (r * (P.dataASizeX / N) + c) := by
  have hcol : c * N + N ≤ P.dataASizeX := by
    have h1 := Nat.div_mul_le_self P.dataASizeX N
    have h2 : (c + 1) * N ≤ P.dataASizeX / N * N := Nat.mul_le_mul_right N hc
    rw [Nat.succ_mul] at h2
    omega
  have hlt : r * P.dataASizeX + c * N < 2 ^ 13 := by
    have h1 : (r + 1) * P.dataASizeX ≤ P.dataASizeY * P.dataASizeX := Nat.mul_le_mul_right _ hr
    have h2 := hP.a_fits
    rw [Nat.succ_mul] at h1
    rw [Nat.mul_comm] at h2
    simp only [N] at *
    omega
  rw [ScatterA.bramAddrPointer, ScatterA.calculating, Nat.mod_eq_of_lt hlt, row_aligned hP.dvd_ax]

section Pass

variable (hP : P.Fits) (hsq : P.Square) (h : Run inputs m) (ho : Operands inputs A B n) {T : ℕ}
  {b : Cursor} {fin : Bool} (hb : b.Valid P) (hT : (m T).mm.control = passAt P (aligned b) fin 0)
  (hn : T + (aligned b).endTime P < n)
include hP h hb hT

theorem pass_control {u : ℕ} (hu : u ≤ (aligned b).endTime P) :
    (m (T + u)).mm.control = passAt P (aligned b) fin u :=
  MatrixMultiply.pass_control hP h.mm hb hT hu

include hsq ho hn

theorem weights_pass (hQ : b ≠ ⟨0, 0⟩ → Fetched P (fun t => (m t).ports (inputs t)) (fun t => (m t).mm) b T)
    {k : ℕ} (hk : (aligned b).startTime + k ≤ (aligned b).endTime P) (i j : Fin N) :
    (m (T + ((aligned b).startTime + k))).mm.peArray i j =
      B ((b.row * N + j) * P.dataBSizeX + (b.col * N + i.rev)) := by
  have hst : (aligned b).startTime = (loadOf b).lead + (N + 2) := rfl
  have hhold : (m (T + (aligned b).startTime + k)).mm.peArray = _ :=
    ScatterB.weights_hold h.mm.drives (fun u hu => by
      show (m (T + (aligned b).startTime + u)).mm.scatterB.main.stationaryCtrl = false
      rw [Nat.add_assoc, hst, Nat.add_assoc]
      rw [show (m (T + ((loadOf b).lead + (N + 2 + u)))).mm.scatterB.main = _ from
        MatrixMultiply.pass_loadAt hP h.mm hb hT (by omega) (by omega),
        ScatterB.stationaryCtrl_loadAt, decide_eq_false (by omega)])
  obtain ⟨u, hu, hj⟩ := MatrixMultiply.loaded_startTime hP h.mm hb hT hQ hsq
  have hs := MatrixMultiply.startTime_lt_endTime P (aligned b)
  obtain ⟨hp, hd⟩ := hj j
  rw [row_aligned hP.dvd_bx] at hp
  rw [← Nat.add_assoc, hhold]
  show (m (T + (aligned b).startTime)).mm.peArray i j = _
  rw [hd i]
  show Clocked.lane 8 (m (u + (j + 1))).bramRddataB i.rev = _
  rw [← Nat.add_assoc u, bramRddataB_lane h ho (by omega) i.rev hp, ← row_aligned hP.dvd_bx, Nat.add_assoc]

omit hsq in
theorem aIn_pass {r : ℕ} (hr : r < P.dataASizeY) (j : Fin N) :
    ScatterA.aIn (m (T + ((aligned b).startTime + (r + 2)))).mm.scatterA
        (m (T + ((aligned b).startTime + (r + 2)))).bramRddataA j =
      A (r * P.dataASizeX + (b.row * N + j)) := by
  have hs := MatrixMultiply.startTime_lt_endTime P (aligned b)
  have hstream (k : ℕ) (hk : k ≤ P.dataASizeY + 1) :
      (m (T + ((aligned b).startTime + k))).mm.scatterA = ScatterA.streamAt P b.row k := by
    have hc := congrArg Control.scatterA (pass_control hP h hb hT (u := (aligned b).startTime + k) (by omega))
    rwa [passAt, Nat.add_sub_cancel_left] at hc
  have hp := pointer_calculating (c := b.row) hP (MatrixMultiply.aligned_valid hP hb).1 hr
  rw [← ScatterA.streamAt_calculating P b.row hr, ← hstream (r + 1) (by omega)] at hp
  rw [ScatterA.aIn, hstream (r + 2) (by omega), ScatterA.outputEnable_streamAt P _ hP.ay_pos,
    if_pos (decide_eq_true (by omega))]
  have hl := bramRddataA_lane h ho (by omega) j hp
  rw [← row_aligned hP.dvd_ax, Nat.add_assoc T] at hl
  exact hl.trans (congrArg A (Nat.add_assoc _ _ _))

theorem cOuts_pass (hQ : b ≠ ⟨0, 0⟩ → Fetched P (fun t => (m t).ports (inputs t)) (fun t => (m t).mm) b T)
    {r : ℕ} (hr : r < P.dataASizeY) (j : Fin N) :
    MatrixMultiply.cOuts ((m (T + ((aligned b).startTime + (r + 2)))).ports
        (inputs (T + ((aligned b).startTime + (r + 2)))))
        (m (T + ((aligned b).startTime + (r + 2)))).mm j =
      ∑ k : Fin N, (A (r * P.dataASizeX + (b.row * N + k))).signExtend 16 *
        (B ((b.row * N + k) * P.dataBSizeX + (b.col * N + j.rev))).signExtend 16 := by
  have hs := MatrixMultiply.startTime_lt_endTime P (aligned b)
  rw [MatrixMultiply.cOuts, PEArray.cOut_eq_sum]
  refine Finset.sum_congr rfl fun k _ => ?_
  rw [weights_pass hP hsq h ho hb hT hn hQ (by omega), mul_comm]
  congr 2
  exact aIn_pass hP h ho hb hT hn hr k

end Pass

end EmbeddedAccelerator.Machine
