import EmbeddedAccelerator.Clocked.Run
import EmbeddedAccelerator.Schedule.Pass

namespace EmbeddedAccelerator

def Params.Square (P : Params) : Prop :=
  P.dataASizeY = P.dataASizeX ∧ P.dataBSizeX = P.dataASizeX

theorem shipped_square : shipped.Square := ⟨rfl, rfl⟩

namespace MatrixMultiply

open GatherC (Cursor)

/-- Only the first block of a run is fetched after the load pulse. -/
def loadOf (b : Cursor) : ScatterB.Load :=
  if b = ⟨0, 0⟩ then .cold false else .warm ⟨b.row, b.col, false⟩

theorem loadOf_block (b : Cursor) : (loadOf b).block = ⟨b.row, b.col, false⟩ := by
  by_cases h : b = ⟨0, 0⟩
  · rw [loadOf, if_pos h, h]
    rfl
  · rw [loadOf, if_neg h]
    rfl

/-- The pass for block `b` when all controllers agree on the block. -/
def aligned (b : Cursor) : Pass := ⟨loadOf b, b.row, b, b.row, b.col⟩

variable {P : Params}

theorem aligned_valid (hP : P.Fits) {b : Cursor} (hb : b.Valid P) : (aligned b).Valid P := by
  refine ⟨?_, hb⟩
  have h := hb.1
  rwa [GatherC.rowCount, hP.inner] at h

theorem zero_valid (hP : P.Fits) : (⟨0, 0⟩ : Cursor).Valid P := (Pass.start_valid hP).2

theorem aligned_isLast (hP : P.Fits) (hsq : P.Square) (b : Cursor) :
    (aligned b).IsLast P ↔ b.Last P ∧ b.col = GatherC.colCount P - 1 := by
  simp only [Pass.IsLast, aligned, Cursor.Last, GatherC.rowCount, GatherC.colCount,
    ComputeControl.rowCount, ComputeControl.colCount, hP.inner, hsq.1]

theorem aligned_next (hP : P.Fits) (hsq : P.Square) {b : Cursor} (hb : b.Valid P) :
    (aligned b).next P = aligned (b.advance P) := by
  obtain ⟨hr, hc⟩ := hb
  have hrow : b.row + 1 < 2 ^ (P.dataASizeX / N) ∨ b.row = P.dataASizeX / N - 1 := by
    have : P.dataASizeX / N < 2 ^ (P.dataASizeX / N) := Nat.lt_two_pow_self
    rw [GatherC.rowCount, hP.inner] at hr
    omega
  have hcol : b.col + 1 < 2 ^ (P.dataASizeX / N) ∨ b.col = P.dataASizeX / N - 1 := by
    have : P.dataASizeX / N < 2 ^ (P.dataASizeX / N) := Nat.lt_two_pow_self
    rw [GatherC.colCount, hsq.2] at hc
    omega
  simp only [Pass.next, ScatterB.Load.next, ScatterA.nextCol, ComputeControl.nextRow,
    ComputeControl.nextCol, Cursor.advance, ScatterB.Cursor.advance, GatherC.rowCount, GatherC.colCount,
    ScatterB.rowCount, ScatterB.colCount, ScatterA.colCount, ComputeControl.rowCount,
    ComputeControl.colCount, hP.inner, hsq.1, hsq.2, aligned, loadOf_block]
  by_cases h : b.row = P.dataASizeX / N - 1
  · by_cases h' : b.col = P.dataASizeX / N - 1
    · simp [h, h', loadOf]
    · have hmod := Nat.mod_eq_of_lt (hcol.resolve_right h')
      simp [h, h', hmod, loadOf]
  · have hmod := Nat.mod_eq_of_lt (hrow.resolve_right h)
    simp [h, hmod, loadOf]

end MatrixMultiply

end EmbeddedAccelerator
