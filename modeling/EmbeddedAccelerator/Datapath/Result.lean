import Mathlib.Algebra.BigOperators.Intervals
import Mathlib.Tactic.Ring
import EmbeddedAccelerator.Datapath.Product

namespace EmbeddedAccelerator.Machine

open Clocked (Mem)
open GatherC (Cursor)
open MatrixMultiply (Control Fetched aligned loadOf passAt)

variable {P : Params}

/-- The first `n` terms of row `r` of `A` times column `c` of `B`. -/
def partialProduct (P : Params) (A B : Mem) (n r c : ℕ) : BitVec 16 :=
  ∑ k ∈ Finset.range n,
    (A (r * P.dataASizeX + k)).signExtend 16 * (B (k * P.dataBSizeX + c)).signExtend 16

theorem partialProduct_zero (A B : Mem) (r c : ℕ) : partialProduct P A B 0 r c = 0 := rfl

theorem partialProduct_add (A B : Mem) (n r c : ℕ) :
    partialProduct P A B (n + N) r c = partialProduct P A B n r c +
      ∑ k : Fin N, (A (r * P.dataASizeX + (n + k))).signExtend 16 *
        (B ((n + k) * P.dataBSizeX + c)).signExtend 16 := by
  rw [partialProduct, Finset.sum_range_add, Finset.sum_range (n := N)]
  rfl

variable {inputs : ℕ → Input} {m : ℕ → Machine P} {A B : Mem} {n : ℕ}

section Pass

variable (hP : P.Fits) (hsq : P.Square) (h : Run inputs m) {T : ℕ} {b : Cursor} {fin : Bool}
  (hb : b.Valid P) (hT : (m T).mm.control = passAt P (aligned b) fin 0)
include hP h hb hT

theorem gatherC_pass {k : ℕ} (hk : (aligned b).startTime + k ≤ (aligned b).endTime P) :
    (m (T + ((aligned b).startTime + k))).mm.gatherC.control = GatherC.gatherAt P b k := by
  have hc := congrArg Control.gatherC (pass_control hP h hb hT hk)
  rwa [passAt, Nat.add_sub_cancel_left] at hc

theorem gatherC_during (k : ℕ) (_ : 0 < k) (hk : k ≤ GatherC.doneTime P b) :
    (m (T + (aligned b).startTime + k)).mm.gatherC.control = GatherC.gatherAt P b k := by
  rw [Nat.add_assoc]
  exact gatherC_pass hP h hb hT (Nat.add_le_add_left hk _)

theorem buffer_startTime (hsq : P.Square) :
    (m (T + ((aligned b).startTime + 1))).mm.gatherC.buffer =
      if b = ⟨0, 0⟩ then fun _ _ => 0 else (m T).mm.gatherC.buffer := by
  have hs := MatrixMultiply.startTime_lt_endTime P (aligned b)
  have hready (u : ℕ) (hu : u ≤ (aligned b).startTime) :
      (m (T + u)).mm.gatherC.control = GatherC.ready b := by
    have hc := congrArg Control.gatherC (pass_control hP h hb hT (u := u) (by omega))
    rwa [passAt, Nat.sub_eq_zero_of_le hu] at hc
  by_cases hb0 : b = ⟨0, 0⟩
  · rw [if_pos hb0, ← Nat.add_assoc]
    refine GatherC.buffer_cleared h.mm.gatherC hsq.1.le (.inl ?_)
    rw [hready _ le_rfl, hb0]
    rfl
  · rw [if_neg hb0]
    refine GatherC.buffer_hold h.mm.gatherC fun u hu => ?_
    rw [hready u (by omega)]
    have hne : ¬ (b.row = 0 ∧ b.col = 0) := fun h0 => hb0 (congrArg₂ Cursor.mk h0.1 h0.2)
    simp [GatherC.ready, hne]

theorem buffer_sampled {k : ℕ} (hk : P.dataASizeY + 3 ≤ k) (hk' : k ≤ GatherC.doneTime P b)
    (r : Fin P.dataASizeY) (j : Fin N) :
    (m (T + ((aligned b).startTime + k))).mm.gatherC.buffer r j =
      (m (T + ((aligned b).startTime + 1))).mm.gatherC.buffer r j +
        MatrixMultiply.cOuts ((m (T + ((aligned b).startTime + (r + 2)))).ports
          (inputs (T + ((aligned b).startTime + (r + 2)))))
          (m (T + ((aligned b).startTime + (r + 2)))).mm j := by
  have hay := hP.ay_le
  have hg := GatherC.buffer_sampled h.mm.gatherC (gatherC_during hP h hb hT) (by omega) r j hk hk'
  simpa only [Nat.add_assoc] using hg

theorem buffer_endTime (r : Fin P.dataASizeY) (j : Fin N) :
    (m (T + (aligned b).endTime P)).mm.gatherC.buffer r j =
      (m (T + ((aligned b).startTime + 1))).mm.gatherC.buffer r j +
        MatrixMultiply.cOuts ((m (T + ((aligned b).startTime + (r + 2)))).ports
          (inputs (T + ((aligned b).startTime + (r + 2)))))
          (m (T + ((aligned b).startTime + (r + 2)))).mm j :=
  buffer_sampled hP h hb hT GatherC.le_doneTime le_rfl r j

theorem buffer_next (hsq : P.Square) :
    (m (T + ((aligned b).endTime P + 1))).mm.gatherC.buffer =
      if b.Last P then fun _ _ => 0 else (m (T + (aligned b).endTime P)).mm.gatherC.buffer := by
  have hend : (aligned b).endTime P = (aligned b).startTime + GatherC.doneTime P b := rfl
  have hg := GatherC.buffer_done h.mm.gatherC (gatherC_during hP h hb hT) hsq.1.le
  rw [hend]
  simpa only [Nat.add_assoc] using hg

end Pass

section Memory

theorem bramAddrC_writingAt (hP : P.Fits) {b : Cursor} (hc : b.col < GatherC.colCount P) {r : ℕ}
    (hr : r < P.dataASizeY) :
    GatherC.bramAddrC P (GatherC.writingAt b r) = r * (P.dataBSizeX / N) + b.col := by
  have hcol : b.col * N + N ≤ P.dataBSizeX := by
    have h1 := Nat.div_mul_le_self P.dataBSizeX N
    have h2 : (b.col + 1) * N ≤ P.dataBSizeX / N * N := Nat.mul_le_mul_right N hc
    rw [Nat.succ_mul] at h2
    omega
  have hptr : r * 2 * P.dataBSizeX + b.col * 2 * N = 2 * (r * P.dataBSizeX + b.col * N) := by ring
  have hlt : 2 * (r * P.dataBSizeX + b.col * N) < 2 ^ 13 := by
    have h1 : (r + 1) * P.dataBSizeX ≤ P.dataASizeY * P.dataBSizeX := Nat.mul_le_mul_right _ hr
    have h2 := hP.c_fits
    rw [Nat.succ_mul] at h1
    rw [Nat.mul_comm P.dataBSizeX] at h2
    simp only [N] at *
    omega
  simp only [GatherC.bramAddrC, GatherC.bramAddrPointer, GatherC.writingAt]
  rw [hptr, Nat.mod_eq_of_lt hlt, row_aligned hP.dvd_bx, ← Nat.mul_assoc]
  exact Nat.mul_div_cancel_left _ (by decide)

theorem bramC_hold (h : Run inputs m) {T d : ℕ} (hw : ∀ u < d, (m (T + u)).bramWeC = false) :
    (m (T + d)).bramC = (m T).bramC := by
  induction d with
  | zero => rfl
  | succ d ih =>
    rw [← ih (fun u hu => hw u (by omega)), ← Nat.add_assoc, h.isRun, step_bramC, hw d (by omega)]
    rfl

variable (hP : P.Fits) (hsq : P.Square) (h : Run inputs m) {T : ℕ} {b : Cursor} {fin : Bool}
  (hb : b.Valid P) (hT : (m T).mm.control = passAt P (aligned b) fin 0)
include hP h hb hT

theorem bramWeC_pass {u : ℕ} (hu : u ≤ (aligned b).endTime P) :
    (m (T + u)).bramWeC = decide (b.Last P ∧ (aligned b).startTime + P.dataASizeY + 4 ≤ u ∧
      u < (aligned b).endTime P) := by
  have hc : (m (T + u)).mm.gatherC.control = GatherC.gatherAt P b (u - (aligned b).startTime) :=
    congrArg Control.gatherC (pass_control hP h hb hT hu)
  rw [bramWeC, hc, GatherC.bramWeC_gatherAt]
  refine decide_eq_decide.mpr (and_congr_right fun hl => ?_)
  have hend : (aligned b).endTime P = (aligned b).startTime + GatherC.doneTime P b := rfl
  rw [GatherC.doneTime_eq hl] at hend
  omega

theorem bramC_of_not_last (hl : ¬ b.Last P) :
    (m (T + ((aligned b).endTime P + 1))).bramC = (m T).bramC :=
  bramC_hold h fun u hu => by rw [bramWeC_pass hP h hb hT (by omega), decide_eq_false (fun hw => hl hw.1)]

theorem bramC_writing (hl : b.Last P) {k : ℕ} (hk : k < P.dataASizeY) :
    (m (T + ((aligned b).startTime + (P.dataASizeY + 4 + (k + 1))))).bramC =
      Mem.write (m (T + ((aligned b).startTime + (P.dataASizeY + 4 + k)))).bramC
        (k * (P.dataBSizeX / N) + b.col) (2 * N) (Clocked.pack (fun j =>
          (m (T + (aligned b).endTime P)).mm.gatherC.buffer ⟨k, hk⟩ (Fin.ofNat N j)) N) := by
  have hend : (aligned b).endTime P = (aligned b).startTime + GatherC.doneTime P b := rfl
  have hd := GatherC.doneTime_eq hl
  have hg := gatherC_pass hP h hb hT (k := P.dataASizeY + 4 + k) (by omega)
  rw [GatherC.gatherAt_writing hl hk] at hg
  have hw : (m (T + ((aligned b).startTime + (P.dataASizeY + 4 + k)))).bramWeC = true := by
    rw [bramWeC, hg]
    rfl
  have haddr : (m (T + ((aligned b).startTime + (P.dataASizeY + 4 + k)))).bramAddrC =
      k * (P.dataBSizeX / N) + b.col := by
    rw [bramAddrC, hg, bramAddrC_writingAt hP hb.2 hk]
  have hdata : (m (T + ((aligned b).startTime + (P.dataASizeY + 4 + k)))).bramWrdataC =
      Clocked.pack (fun j =>
        (m (T + (aligned b).endTime P)).mm.gatherC.buffer ⟨k, hk⟩ (Fin.ofNat N j)) N := by
    rw [bramWrdataC]
    refine congrArg (fun f => Clocked.pack f N) (funext fun j => ?_)
    rw [GatherC.bramWrdataC_writing hg hk, buffer_sampled hP h hb hT (by omega) (by omega),
      buffer_endTime hP h hb hT]
  rw [show T + ((aligned b).startTime + (P.dataASizeY + 4 + (k + 1))) =
    T + ((aligned b).startTime + (P.dataASizeY + 4 + k)) + 1 by omega, h.isRun, step_bramC, hw, if_pos rfl,
    haddr, hdata]

theorem half_bramC_next (hl : b.Last P) {r c : ℕ} (hr : r < P.dataASizeY) (hc : c < P.dataBSizeX) :
    (m (T + ((aligned b).endTime P + 1))).bramC.half (r * P.dataBSizeX + c) =
      if c / N = b.col then
        (m (T + (aligned b).endTime P)).mm.gatherC.buffer ⟨r, hr⟩ (Fin.ofNat N (c % N))
      else (m T).bramC.half (r * P.dataBSizeX + c) := by
  have hend : (aligned b).endTime P = (aligned b).startTime + GatherC.doneTime P b := rfl
  rw [GatherC.doneTime_eq hl] at hend
  have hbefore := bramC_hold h (T := T) (d := (aligned b).startTime + (P.dataASizeY + 4)) (fun u hu => by
    rw [bramWeC_pass hP h hb hT (by omega), decide_eq_false (by omega)])
  have hafter := bramC_hold h (T := T + (aligned b).endTime P) (d := 1) (fun u hu => by
    obtain rfl : u = 0 := by omega
    rw [Nat.add_zero, bramWeC_pass hP h hb hT le_rfl, decide_eq_false (by omega)])
  have hrows := Mem.half_rows (L := P.dataASizeY) (n := N) (w := P.dataBSizeX / N) (c := b.col)
    (x := fun k => (m (T + ((aligned b).startTime + (P.dataASizeY + 4 + k)))).bramC)
    (f := fun k j => if hk : k < P.dataASizeY then
      (m (T + (aligned b).endTime P)).mm.gatherC.buffer ⟨k, hk⟩ (Fin.ofNat N j) else 0)
    hb.2 (fun k hk => by
      simp only [hk, ↓reduceDIte]
      exact bramC_writing hP h hb hT hl hk) r (e := c)
    (by rwa [Nat.mul_div_cancel' hP.dvd_bx]) le_rfl
  simp only [Nat.mul_div_cancel' hP.dvd_bx, hr, ↓reduceDIte, and_true, Nat.add_zero, hbefore] at hrows
  rw [← Nat.add_assoc, hafter, ← hrows]
  congr 3
  omega

end Memory

end EmbeddedAccelerator.Machine
