import EmbeddedAccelerator.Datapath.Accumulation
import EmbeddedAccelerator.Datapath.Weights
import EmbeddedAccelerator.Schedule.Located

namespace EmbeddedAccelerator.MatrixMultiply

open GatherC (Cursor)

variable {P : Params} {inputs : ℕ → Input} {s : ℕ → State P}

/-- The registers of the composed machine in every cycle, `rst` staying low. -/
structure Run (P : Params) (inputs : ℕ → Input) (s : ℕ → State P) : Prop where
  isRun : Clocked.IsRun step inputs s
  noReset : ∀ t, (inputs t).rst = false

namespace Run

variable (h : Run P inputs s)
include h

theorem control : ControlRun P (fun t => (inputs t).start) (fun t => (s t).control) := by
  intro t
  show (s (t + 1)).control = _
  rw [h.isRun t, control_step, h.noReset]

theorem scatterB :
    ScatterB.Run P (fun t => (s t).computeControl.bLoad) (fun t => (inputs t).bramRddataB)
      (fun t => (s t).scatterB) := by
  intro t
  show (s (t + 1)).scatterB = _
  rw [h.isRun t, step, h.noReset]

theorem drives : ScatterB.Drives (fun t => (s t).scatterB) (fun t => (s t).peArray) := by
  intro t
  show (s (t + 1)).peArray = _
  rw [h.isRun t, step, h.noReset]

theorem gatherC :
    GatherC.Run (fun t => (s t).computeControl.startCal) (fun t => cOuts (inputs t) (s t))
      (fun t => (s t).gatherC) := by
  intro t
  show (s (t + 1)).gatherC = _
  rw [h.isRun t, step, h.noReset]

end Run

/-- `buffer_B` holds block `b`: row `j` is the word that `bram_rddata_b` carried in the cycle after
the row's byte address was driven. -/
def Fetched (P : Params) (inputs : ℕ → Input) (s : ℕ → State P) (b : Cursor) (t : ℕ) : Prop :=
  ∃ u, u + N < t ∧ ∀ j : Fin N,
    ScatterB.bramAddrPointer P (s (u + j)).scatterB.main =
        (b.row * N + j) * P.dataBSizeX + b.col * N ∧
      ∀ i, (s t).scatterB.bufferB j i = Clocked.lane 8 (inputs (u + (j + 1))).bramRddataB i

/-- The array holds block `b`, fetched likewise: `PE (i, j)` has row `j`, column `N-1-i`. -/
def Loaded (P : Params) (inputs : ℕ → Input) (s : ℕ → State P) (b : Cursor) (t : ℕ) : Prop :=
  ∃ u, u + N < t ∧ ∀ j : Fin N,
    ScatterB.bramAddrPointer P (s (u + j)).scatterB.main =
        (b.row * N + j) * P.dataBSizeX + b.col * N ∧
      ∀ i, (s t).peArray i j = Clocked.lane 8 (inputs (u + (j + 1))).bramRddataB (Fin.rev i)

theorem pointer_preparing (hP : P.Fits) (hsq : P.Square) {b : Cursor} (hb : b.Valid P) {k : ℕ}
    (hk : k < N) (first done : Bool) :
    ScatterB.bramAddrPointer P (ScatterB.preparingAt ⟨b.row, b.col, false⟩ k first done) =
      (b.row * N + k) * P.dataBSizeX + b.col * N := by
  obtain ⟨hr, hc⟩ := hb
  have hrow : b.row * N + k + 1 ≤ P.dataBSizeY := by
    have h1 := Nat.div_mul_le_self P.dataBSizeY N
    have h2 : (b.row + 1) * N ≤ P.dataBSizeY / N * N := Nat.mul_le_mul_right N hr
    rw [Nat.succ_mul] at h2
    omega
  have hcol : b.col * N + N ≤ P.dataBSizeX := by
    have h1 := Nat.div_mul_le_self P.dataBSizeX N
    have h2 : (b.col + 1) * N ≤ P.dataBSizeX / N * N := Nat.mul_le_mul_right N hc
    rw [Nat.succ_mul] at h2
    omega
  have hlt : (b.row * N + k) * P.dataBSizeX + b.col * N < 2 ^ 13 := by
    have h1 := Nat.mul_le_mul_right P.dataBSizeX hrow
    have h2 := hP.b_fits
    rw [Nat.succ_mul] at h1
    rw [Nat.mul_comm] at h2
    simp only [N] at *
    omega
  simp only [ScatterB.bramAddrPointer, ScatterB.preparingAt]
  rw [← hsq.2, Nat.add_right_comm, ← Nat.add_mul, Nat.mod_eq_of_lt hlt]

theorem startTime_lt_endTime (P : Params) (x : Pass) : x.startTime + P.dataASizeY + 2 < x.endTime P := by
  have hd := GatherC.le_doneTime (P := P) (b := x.group)
  simp only [Pass.endTime]
  omega

theorem fetched_of_preparing (hP : P.Fits) (hsq : P.Square) (h : Run P inputs s) {V : ℕ} {d : Cursor}
    (hd : d.Valid P) (first : Bool) (done : ℕ → Bool)
    (hp : ∀ k ≤ N + 1,
      (s (V + k)).scatterB.main = ScatterB.preparingAt ⟨d.row, d.col, false⟩ k first (done k)) :
    Fetched P inputs s d (V + (N + 2)) := by
  refine ⟨V, by omega, fun j => ⟨?_, fun i => ?_⟩⟩
  · rw [hp j (by omega)]
    exact pointer_preparing hP hsq hd j.isLt first _
  · refine ScatterB.bufferB_fetched h.scatterB (fun k hk => ?_) j i
    rw [hp k hk]
    exact ⟨rfl, rfl⟩

theorem Fetched.hold (h : Run P inputs s) {d : Cursor} {V n : ℕ} (hf : Fetched P inputs s d V)
    (hp : ∀ u < n, (s (V + u)).scatterB.main.state ≠ .preparing) : Fetched P inputs s d (V + n) := by
  obtain ⟨u, hu, hj⟩ := hf
  rw [← ScatterB.bufferB_hold h.scatterB hp] at hj
  exact ⟨u, by omega, hj⟩

theorem advance_of_not_last (hP : P.Fits) (hsq : P.Square) {b : Cursor} (hl : ¬ (aligned b).IsLast P) :
    ScatterB.Cursor.advance P ⟨b.row, b.col, false⟩ = ⟨(b.advance P).row, (b.advance P).col, false⟩ := by
  rw [aligned_isLast hP hsq] at hl
  simp only [Cursor.Last, GatherC.rowCount, GatherC.colCount, hP.inner, hsq.2] at hl
  simp only [ScatterB.Cursor.advance, Cursor.advance, GatherC.rowCount, GatherC.colCount,
    ScatterB.rowCount, ScatterB.colCount, hP.inner, hsq.1, hsq.2]
  by_cases h : b.row = P.dataASizeX / N - 1 <;> by_cases h' : b.col = P.dataASizeX / N - 1 <;>
    simp [h, h'] at hl ⊢

theorem advance_of_last (hP : P.Fits) (hsq : P.Square) {b : Cursor} (hl : (aligned b).IsLast P) :
    (ScatterB.Cursor.advance P ⟨b.row, b.col, false⟩).final = true := by
  rw [aligned_isLast hP hsq] at hl
  simp only [Cursor.Last, GatherC.rowCount, GatherC.colCount, hP.inner, hsq.2] at hl
  simp [ScatterB.Cursor.advance, ScatterB.rowCount, ScatterB.colCount, hsq.1, hl]

section Pass

variable (hP : P.Fits) (hsq : P.Square) (h : Run P inputs s) {T : ℕ} {b : Cursor} {fin : Bool}
  (hb : b.Valid P) (hT : (s T).control = passAt P (aligned b) fin 0)
include hP h hb hT

theorem pass_control {u : ℕ} (hu : u ≤ (aligned b).endTime P) :
    (s (T + u)).control = passAt P (aligned b) fin u :=
  pass_schedule (c := fun t => (s t).control) hP h.control (aligned_valid hP hb) hT u hu

theorem pass_scatterB {u : ℕ} (hu : u ≤ (aligned b).endTime P) :
    (s (T + u)).scatterB.main = (loadOf b).state P u :=
  congrArg Control.scatterB (pass_control hP h hb hT hu)

theorem pass_loadAt {u : ℕ} (h0 : 0 < u) (hu : (loadOf b).lead + u ≤ (aligned b).endTime P) :
    (s (T + ((loadOf b).lead + u))).scatterB.main =
      ScatterB.loadAt P (ScatterB.Cursor.advance P ⟨b.row, b.col, false⟩) u := by
  rw [pass_scatterB hP h hb hT hu, ScatterB.Load.state_lead P _ h0, loadOf_block]

theorem fetched_lead (hQ : b ≠ ⟨0, 0⟩ → Fetched P inputs s b T) (hsq : P.Square) :
    Fetched P inputs s b (T + (loadOf b).lead) := by
  by_cases hb0 : b = ⟨0, 0⟩
  · subst hb0
    have hs := startTime_lt_endTime P (aligned ⟨0, 0⟩)
    have hlead : (aligned ⟨0, 0⟩).startTime = N + 3 + (N + 2) := rfl
    refine fetched_of_preparing hP hsq h (V := T + 1) hb true (fun _ => false) ?_
    intro k hk
    rw [Nat.add_assoc, Nat.add_comm 1 k, pass_scatterB hP h hb hT (by omega)]
    exact ScatterB.Load.state_fetching P false hk
  · simpa [loadOf, hb0, ScatterB.Load.lead] using hQ hb0

theorem loaded_startTime (hQ : b ≠ ⟨0, 0⟩ → Fetched P inputs s b T) (hsq : P.Square) :
    Loaded P inputs s b (T + (aligned b).startTime) := by
  obtain ⟨u, hu, hj⟩ := fetched_lead hP h hb hT hQ hsq
  have hs := startTime_lt_endTime P (aligned b)
  have hst : (aligned b).startTime = (loadOf b).lead + (N + 2) := rfl
  have hwait : (s (T + (loadOf b).lead)).scatterB.main.state ≠ .preparing := by
    obtain ⟨first, hw⟩ := ScatterB.Load.state_waiting P (loadOf b)
    rw [pass_scatterB hP h hb hT (by omega), hw]
    simp [ScatterB.waitingAt]
  have hload (l : ℕ) (hl : l ≤ N) : (s (T + (loadOf b).lead + 1 + l)).scatterB.main =
      ScatterB.loadAt P (ScatterB.Cursor.advance P ⟨b.row, b.col, false⟩) (l + 1) := by
    rw [Nat.add_assoc T, Nat.add_assoc T, Nat.add_assoc, Nat.add_comm 1 l]
    exact pass_loadAt hP h hb hT (by omega) (by omega)
  have hw := ScatterB.weights_loadAt h.scatterB h.drives hload
  have hbuf : (s (T + (loadOf b).lead + 1)).scatterB.bufferB = _ :=
    ScatterB.bufferB_hold h.scatterB (d := 1) (fun u hu => by
      obtain rfl : u = 0 := by omega
      exact hwait)
  refine ⟨u, by omega, fun j => ⟨(hj j).1, fun i => ?_⟩⟩
  have hi := hw i j
  rw [hbuf, (hj j).2] at hi
  rw [hst, show T + ((loadOf b).lead + (N + 2)) = T + (loadOf b).lead + 1 + (N + 1) by omega]
  exact hi

theorem fetched_next (hsq : P.Square) (hl : ¬ (aligned b).IsLast P) :
    Fetched P inputs s (b.advance P) (T + ((aligned b).endTime P + 1)) := by
  have hs := startTime_lt_endTime P (aligned b)
  have hay := hP.le_ay
  have hN : N = 16 := rfl
  have hst : (aligned b).startTime = (loadOf b).lead + (N + 2) := rfl
  have hadv := advance_of_not_last hP hsq hl
  have hload (k : ℕ) (hk : (loadOf b).lead + (N + 1 + k) ≤ (aligned b).endTime P) :
      (s (T + ((loadOf b).lead + (N + 1)) + k)).scatterB.main =
        ScatterB.loadAt P ⟨(b.advance P).row, (b.advance P).col, false⟩ (N + 1 + k) := by
    rw [Nat.add_assoc, Nat.add_assoc, pass_loadAt hP h hb hT (by omega) hk, hadv]
  have hf := fetched_of_preparing hP hsq h (V := T + ((loadOf b).lead + (N + 1)))
    (Cursor.advance_valid hb) false (fun k => k = 0) (fun k hk => by
      rw [hload k (by omega)]
      exact ScatterB.loadAt_preparing P rfl hk)
  have hh := hf.hold h (n := (aligned b).endTime P + 1 - ((loadOf b).lead + (2 * N + 3))) (fun u hu => by
    have hu' := hload (N + 2 + u) (by omega)
    rw [← Nat.add_assoc] at hu'
    rw [hu', ScatterB.loadAt_waiting P rfl (by omega)]
    simp [ScatterB.waitingAt])
  rwa [show T + ((loadOf b).lead + (N + 1)) + (N + 2) +
      ((aligned b).endTime P + 1 - ((loadOf b).lead + (2 * N + 3))) = T + ((aligned b).endTime P + 1) by
    omega] at hh

end Pass

end EmbeddedAccelerator.MatrixMultiply
