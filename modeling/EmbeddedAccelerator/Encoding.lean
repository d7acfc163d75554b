import EmbeddedAccelerator.Datapath.Result
import EmbeddedAccelerator.Host

/-!
What the host decodes is what `gather_c` encodes: the rows of its buffer, on their way through both
ports of `Bram_C`, and the bytes that the host puts together again.
-/

namespace EmbeddedAccelerator.Encoding

open Clocked (Mem)
open Host (matrixSize convertToInt16Array)

/-- An `int16` matrix. -/
abbrev Result := Fin matrixSize → Fin matrixSize → BitVec 16

/-- `gather_c` on its port of `Bram_C`. -/
structure Port where
  gatherC : GatherC.State shipped 8
  bramC : Mem

def wrdata (s : GatherC.State shipped 8) : BitVec (16 * N) :=
  Clocked.pack (fun j => GatherC.bramWrdataC s (Fin.ofNat N j)) N

/-- A cycle without `start_cal`. -/
def step (cOuts : Fin N → BitVec 16) (x : Port) : Port where
  gatherC := GatherC.step false false cOuts x.gatherC
  bramC :=
    if GatherC.bramWeC x.gatherC.control then
      x.bramC.write (GatherC.bramAddrC shipped x.gatherC.control) (2 * N) (wrdata x.gatherC)
    else x.bramC

theorem step_machine {i : Machine.Input} {m : Machine shipped} (hi : i.rst = false)
    (hc : m.mm.computeControl.startCal = false) :
    step (MatrixMultiply.cOuts (m.ports i) m.mm) ⟨m.mm.gatherC, m.bramC⟩ =
      ⟨(Machine.step i m).mm.gatherC, (Machine.step i m).bramC⟩ := by
  have hrst : (m.ports i).rst = false := hi
  simp only [step, Machine.step, MatrixMultiply.step, hrst, hc]
  rfl

abbrev groupCount : ℕ := GatherC.colCount shipped

theorem entry_lt (c : Fin groupCount) (j : Fin N) : N * c + j < matrixSize := by
  have hc := c.isLt
  have hj := j.isLt
  simp only [groupCount, GatherC.colCount, shipped, N, matrixSize] at *
  omega

/-- The last pass of group `c` at the beginning of its write-back, with the columns of that group in
the buffer. -/
def holding (M : Result) (c : Fin groupCount) : GatherC.State shipped 8 where
  control := GatherC.writingAt ⟨GatherC.rowCount shipped - 1, c⟩ 0
  buffer := fun r j => M r ⟨N * c + j, entry_lt c j⟩

/-- `Bram_C` after the write-back of group `c`. -/
def writeGroup (cOuts : ℕ → Fin N → BitVec 16) (M : Result) (bramC : Mem) (c : Fin groupCount) : Mem :=
  (Clocked.run step ⟨holding M c, bramC⟩ cOuts shipped.dataASizeY).bramC

/-- `Bram_C` after the write-back of all groups. -/
def encode (cOuts : Fin groupCount → ℕ → Fin N → BitVec 16) (M : Result) (bramC : Mem) : Mem :=
  (List.finRange groupCount).foldl (fun mem c => writeGroup (cOuts c) M mem c) bramC

/-- The buffer that the host fills with the 64-bit words of `Bram_C`, in the order of their
addresses. -/
def readBuffer (bramC : Mem) : Mem := fun a => Clocked.lane 8 (bramC.word (a / 8) 8) (a % 8)

def finalResult (bramC : Mem) (i : ℕ) : BitVec 16 := convertToInt16Array (readBuffer bramC) i

theorem readBuffer_eq (bramC : Mem) : readBuffer bramC = bramC := by
  funext a
  rw [readBuffer, Mem.lane_word (Nat.mod_lt a (by decide)), Nat.div_add_mod]

theorem finalResult_eq_half (bramC : Mem) (i : ℕ) : finalResult bramC i = bramC.half i := by
  rw [finalResult, readBuffer_eq, Host.convertToInt16Array_eq_half]

section Group

variable (cOuts : ℕ → Fin N → BitVec 16) (M : Result) (bramC : Mem) (c : Fin groupCount)

theorem run_holding {k : ℕ} (hk : k < shipped.dataASizeY) :
    (Clocked.run step ⟨holding M c, bramC⟩ cOuts k).gatherC =
      { holding M c with control := GatherC.writingAt ⟨GatherC.rowCount shipped - 1, c⟩ k } := by
  induction k with
  | zero => rfl
  | succ k ih =>
    rw [Clocked.run, step, ih (by omega), GatherC.step, GatherC.step_writing hk (by decide)]
    rfl

theorem half_writeGroup (r : Fin matrixSize) {e : ℕ} (he : e < matrixSize) :
    (writeGroup cOuts M bramC c).half (r * matrixSize + e) =
      if e / N = c then M r ⟨e, he⟩ else bramC.half (r * matrixSize + e) := by
  let x := Clocked.run step ⟨holding M c, bramC⟩ cOuts
  have hrun {k : ℕ} (hk : k < shipped.dataASizeY) : (x k).gatherC = _ := run_holding cOuts M bramC c hk
  have hwrite (k : ℕ) (hk : k < shipped.dataASizeY) :
      (x (k + 1)).bramC = Mem.write (x k).bramC (k * groupCount + c) (2 * N)
        (Clocked.pack (fun j => GatherC.bramWrdataC (x k).gatherC (Fin.ofNat N j)) N) := by
    have hstep : x (k + 1) = step (cOuts k) (x k) := rfl
    have haddr : GatherC.bramAddrC shipped (x k).gatherC.control = k * groupCount + c := by
      rw [hrun hk]
      exact Machine.bramAddrC_writingAt shipped_fits c.isLt hk
    have hwe : GatherC.bramWeC (x k).gatherC.control = true := by
      rw [hrun hk]
      rfl
    rw [hstep, step, haddr, hwe, if_pos rfl, wrdata]
  have hrows := Mem.half_rows (x := fun k => (x k).bramC) (n := N)
    (f := fun k j => GatherC.bramWrdataC (x k).gatherC (Fin.ofNat N j)) c.isLt hwrite r (e := e) he le_rfl
  rw [show N * groupCount = matrixSize from rfl] at hrows
  rw [writeGroup, hrows]
  have hr : r.val < shipped.dataASizeY := r.isLt
  by_cases hc : e / N = c
  · have hentry : N * c.val + (Fin.ofNat N (e % N)).val = e := by
      rw [Fin.val_ofNat, Nat.mod_mod, ← hc]
      exact Nat.div_add_mod e N
    rw [if_pos ⟨hc, hr⟩, if_pos hc, hrun hr, GatherC.bramWrdataC_writing rfl hr]
    exact congrArg (M r) (Fin.ext hentry)
  · rw [if_neg fun h => hc h.1, if_neg hc]
    rfl

end Group

theorem half_foldl_writeGroup (cOuts : Fin groupCount → ℕ → Fin N → BitVec 16) (M : Result)
    (groups : List (Fin groupCount)) (bramC : Mem) (r : Fin matrixSize) {e : ℕ} (he : e < matrixSize) :
    (groups.foldl (fun mem c => writeGroup (cOuts c) M mem c) bramC).half (r * matrixSize + e) =
      if ∃ c ∈ groups, e / N = c.val then M r ⟨e, he⟩ else bramC.half (r * matrixSize + e) := by
  induction groups generalizing bramC with
  | nil => simp
  | cons c groups ih =>
    rw [List.foldl_cons, ih, half_writeGroup (cOuts c) M bramC c r he]
    by_cases hc : e / N = c
    · simp [hc]
    · simp [hc]

theorem half_encode (cOuts : Fin groupCount → ℕ → Fin N → BitVec 16) (M : Result) (bramC : Mem)
    (r e : Fin matrixSize) : (encode cOuts M bramC).half (r * matrixSize + e) = M r e := by
  have hgroup : e.val / N < groupCount := Nat.div_lt_of_lt_mul e.isLt
  rw [encode, half_foldl_writeGroup cOuts M _ bramC r e.isLt, if_pos]
  exact ⟨⟨e / N, hgroup⟩, List.mem_finRange _, rfl⟩

/-- The matrix that the bytes of an image hold. -/
def decode (image : Mem) : Result := fun r e => image.half (r * matrixSize + e)

theorem encode_eq_iff (cOuts : Fin groupCount → ℕ → Fin N → BitVec 16) (M : Result) (bramC image : Mem) :
    (∀ a < 8192, encode cOuts M bramC a = image a) ↔ M = decode image := by
  constructor
  · intro h
    funext r e
    have hlt : r * matrixSize + e < 4096 := by
      have hr := r.isLt
      have he := e.isLt
      simp only [matrixSize] at *
      omega
    rw [← half_encode cOuts M bramC, decode, Mem.half, Mem.half, h _ (by omega), h _ (by omega)]
  · rintro rfl a ha
    have hr : a / 2 / matrixSize < matrixSize := by
      simp only [matrixSize]
      omega
    have hsplit := half_encode cOuts (decode image) bramC ⟨a / 2 / matrixSize, hr⟩
      ⟨a / 2 % matrixSize, Nat.mod_lt _ (by decide)⟩
    simp only [decode, Nat.div_add_mod'] at hsplit
    exact Mem.eq_of_half_eq hsplit

/-- The host decodes every matrix that the hardware writes, and every image of `Bram_C` is written
for exactly one matrix. -/
theorem decodes_what_is_encoded (cOuts : Fin groupCount → ℕ → Fin N → BitVec 16) (bramC : Mem) :
    (∀ (M : Result) (r : Fin matrixSize) (c : Fin groupCount) (j : Fin N),
      finalResult (encode cOuts M bramC) (matrixSize * r + N * c + j) = M r ⟨N * c + j, entry_lt c j⟩) ∧
    ∀ image : Mem, ∃! M : Result, ∀ a < 8192, encode cOuts M bramC a = image a := by
  constructor
  · intro M r c j
    rw [finalResult_eq_half, Nat.mul_comm matrixSize r, Nat.add_assoc]
    exact half_encode cOuts M bramC r ⟨N * c + j, entry_lt c j⟩
  · intro image
    refine ⟨decode image, (encode_eq_iff cOuts _ bramC image).mpr rfl, ?_⟩
    intro M h
    exact (encode_eq_iff cOuts M bramC image).mp h

end EmbeddedAccelerator.Encoding
