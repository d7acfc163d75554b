import EmbeddedAccelerator.Datapath.Result

namespace EmbeddedAccelerator.Machine

open Clocked (Mem)
open GatherC (Cursor)
open MatrixMultiply (Control Fetched aligned passAt blockAt passTime passCount runTime)

variable {P : Params}

/-- The column of `B` that column `c` of `Bram_C` is about: the columns of a block come out in
reverse order, because the first column shifted into the array ends up deepest. -/
def mirrored (c : ℕ) : ℕ := c / N * N + (N - 1 - c % N)

/-- The state of the product in cycle `t`, when pass `p` begins. -/
structure Progress (P : Params) (inputs : ℕ → Input) (m : ℕ → Machine P) (A B : Mem) (p t : ℕ) :
    Prop where
  fetched : p < passCount P → blockAt P p ≠ ⟨0, 0⟩ →
    Fetched P (fun t => (m t).ports (inputs t)) (fun t => (m t).mm) (blockAt P p) t
  sums : p < passCount P → blockAt P p ≠ ⟨0, 0⟩ → ∀ r j, (m t).mm.gatherC.buffer r j =
    partialProduct P A B ((blockAt P p).row * N) r ((blockAt P p).col * N + j.rev)
  written : ∀ r < P.dataASizeY, ∀ c < P.dataBSizeX, c / N < p / GatherC.rowCount P →
    (m t).bramC.half (r * P.dataBSizeX + c) = partialProduct P A B P.dataBSizeY r (mirrored c)

variable {inputs : ℕ → Input} {m : ℕ → Machine P} {A B : Mem} {n T p : ℕ}

section Pass

variable (hP : P.Fits) (hsq : P.Square) (h : Run inputs m) (ho : Operands inputs A B n) {fin : Bool}
  (hp : p < passCount P) (hT : (m T).mm.control = passAt P (aligned (blockAt P p)) fin 0)
  (hn : T + (aligned (blockAt P p)).endTime P < n) (hpr : Progress P inputs m A B p T)
include hP hsq h ho hp hT hn hpr

theorem sums_endTime (r : Fin P.dataASizeY) (j : Fin N) :
    (m (T + (aligned (blockAt P p)).endTime P)).mm.gatherC.buffer r j =
      partialProduct P A B ((blockAt P p).row * N + N) r ((blockAt P p).col * N + j.rev) := by
  have hb := MatrixMultiply.blockAt_valid hP p
  rw [buffer_endTime hP h hb hT, cOuts_pass hP hsq h ho hb hT hn (hpr.fetched hp) r.isLt,
    buffer_startTime hP h hb hT hsq, partialProduct_add]
  by_cases hb0 : blockAt P p = ⟨0, 0⟩
  · rw [if_pos hb0, hb0, Nat.zero_mul, partialProduct_zero]
  · rw [if_neg hb0, hpr.sums hp hb0]

theorem written_next {r c : ℕ} (hr : r < P.dataASizeY) (hc : c < P.dataBSizeX)
    (hcol : c / N < (p + 1) / GatherC.rowCount P) :
    (m (T + ((aligned (blockAt P p)).endTime P + 1))).bramC.half (r * P.dataBSizeX + c) =
      partialProduct P A B P.dataBSizeY r (mirrored c) := by
  have hb := MatrixMultiply.blockAt_valid hP p
  have hR := MatrixMultiply.rowCount_pos hP
  have hbp := MatrixMultiply.blockAt_eq hP hp
  by_cases hl : (blockAt P p).Last P
  · have hl' : p % GatherC.rowCount P = GatherC.rowCount P - 1 := by rwa [Cursor.Last, hbp] at hl
    rw [(MatrixMultiply.succ_divMod_of_last hR hl').1] at hcol
    rw [half_bramC_next hP h hb hT hl hr hc]
    by_cases hcb : c / N = (blockAt P p).col
    · have hrows : (blockAt P p).row * N + N = P.dataBSizeY := by
        have hdvd : N ∣ P.dataBSizeY := hP.inner ▸ hP.dvd_ax
        rw [hl, ← Nat.succ_mul, Nat.succ_eq_add_one, Nat.sub_add_cancel hR]
        exact Nat.div_mul_cancel hdvd
      have hlane : (Fin.ofNat N (c % N)).rev.val = N - 1 - c % N := by
        rw [Fin.val_rev, Fin.val_ofNat, Nat.mod_mod]
        omega
      rw [if_pos hcb, sums_endTime hP hsq h ho hp hT hn hpr, hrows, mirrored, hcb, hlane]
    · rw [if_neg hcb]
      refine hpr.written r hr c hc ?_
      rw [hbp] at hcb
      exact lt_of_le_of_ne (Nat.lt_succ_iff.mp hcol) hcb
  · have hl' : p % GatherC.rowCount P ≠ GatherC.rowCount P - 1 := by rwa [Cursor.Last, hbp] at hl
    rw [(MatrixMultiply.succ_divMod_of_not_last hR hl').1] at hcol
    rw [bramC_of_not_last hP h hb hT hl]
    exact hpr.written r hr c hc hcol

theorem Progress.next : Progress P inputs m A B (p + 1) (T + ((aligned (blockAt P p)).endTime P + 1)) where
  fetched hp' _ := by
    refine MatrixMultiply.fetched_next hP h.mm (MatrixMultiply.blockAt_valid hP p) hT hsq ?_
    rw [MatrixMultiply.aligned_blockAt_isLast hP hsq hp]
    omega
  sums hp' _ r j := by
    have hb := MatrixMultiply.blockAt_valid hP p
    have hR := MatrixMultiply.rowCount_pos hP
    have hbp := MatrixMultiply.blockAt_eq hP hp
    rw [buffer_next hP h hb hT hsq, MatrixMultiply.blockAt_eq hP hp']
    by_cases hl : (blockAt P p).Last P
    · have hl' : p % GatherC.rowCount P = GatherC.rowCount P - 1 := by rwa [Cursor.Last, hbp] at hl
      rw [if_pos hl, (MatrixMultiply.succ_divMod_of_last hR hl').2, Nat.zero_mul, partialProduct_zero]
    · have hl' : p % GatherC.rowCount P ≠ GatherC.rowCount P - 1 := by rwa [Cursor.Last, hbp] at hl
      obtain ⟨hd, hm⟩ := MatrixMultiply.succ_divMod_of_not_last hR hl'
      rw [if_neg hl, sums_endTime hP hsq h ho hp hT hn hpr, hd, hm, hbp,
        Nat.succ_mul (p % GatherC.rowCount P)]
  written r hr c hc hcol := written_next hP hsq h ho hp hT hn hpr hr hc hcol

end Pass

section WholeRun

variable (hP : P.Fits) (hsq : P.Square) (h : Run inputs m) {fin : Bool}
  (hT : (m T).mm.control = passAt P (aligned ⟨0, 0⟩) fin 0)
include hP hsq h hT

theorem progress (ho : Operands inputs A B (T + runTime P)) (hp : p ≤ passCount P) :
    Progress P inputs m A B p (T + passTime P p) := by
  induction p with
  | zero =>
    refine ⟨fun _ hb => absurd rfl hb, fun _ hb => absurd rfl hb, fun r hr c hc hcol => ?_⟩
    rw [Nat.zero_div] at hcol
    exact absurd hcol (Nat.not_lt_zero _)
  | succ p ih =>
    have hle : passTime P (p + 1) ≤ runTime P := MatrixMultiply.passTime_mono hp
    rw [passTime] at hle
    rw [passTime, ← Nat.add_assoc]
    have hc := MatrixMultiply.timeline_pass hP hsq h.mm.control hT (p := p) (by omega)
    exact (ih (by omega)).next hP hsq h ho (by omega) hc (by omega)

theorem half_bramC_runTime (ho : Operands inputs A B (T + runTime P)) {r c : ℕ}
    (hr : r < P.dataASizeY) (hc : c < P.dataBSizeX) :
    (m (T + runTime P)).bramC.half (r * P.dataBSizeX + c) =
      partialProduct P A B P.dataBSizeY r (mirrored c) := by
  refine (progress hP hsq h hT ho le_rfl).written r hr c hc ?_
  rw [passCount, Nat.mul_div_cancel_left _ (MatrixMultiply.rowCount_pos hP)]
  exact Nat.div_lt_div_of_lt_of_dvd hP.dvd_bx hc

end WholeRun

end EmbeddedAccelerator.Machine
