import EmbeddedAccelerator.Clocked.ShiftRegister
import EmbeddedAccelerator.Clocked.Signed
import EmbeddedAccelerator.Datapath.Accumulation

/-!
The array on its own, for operands of any width: the weights are a history of `a_in`, and the
outputs a product with them.
-/

namespace EmbeddedAccelerator.PEArray

open Clocked (Fits ShiftEdge)

variable {W : ℕ}

/-- The inputs at a clock edge. -/
structure Edge (W : ℕ) where
  rst : Bool
  stationaryCtrl : Bool
  aIn : Fin N → BitVec W
  bIn : Fin N → BitVec W

/-- `b_in` does not reach a register. -/
def clock (r : Weights W) (e : Edge W) : Weights W := step e.rst e.stationaryCtrl e.aIn r

def Edge.shift (e : Edge W) : ShiftEdge (Fin N → BitVec W) := ⟨e.rst, e.stationaryCtrl, e.aIn⟩

/-- `a_in` at the edges with `stationaryCtrl` since the last one with `rst`, the most recent first. -/
def history (edges : List (Edge W)) : List (Fin N → BitVec W) := ShiftEdge.taken (edges.map Edge.shift)

theorem clock_eq_shift (r : Weights W) (e : Edge W) :
    clock r e = ShiftEdge.shift (fun _ => 0) r e.shift := by
  obtain ⟨rst, stationaryCtrl, aIn, bIn⟩ := e
  funext i j
  cases rst
  · cases stationaryCtrl
    · rfl
    · by_cases h0 : i.val = 0 <;> simp [clock, step, PE.next, aIns, ShiftEdge.shift, Edge.shift, h0]
  · rfl

theorem foldl_clock (r : Weights W) {first : Edge W} (hfirst : first.rst = true) (edges : List (Edge W))
    (i j : Fin N) :
    (first :: edges).foldl clock r i j = (history (first :: edges)).getD i (fun _ => 0) j := by
  have hshift : first.shift.rst = true := hfirst
  have h := ShiftEdge.foldl_shift (fun _ => (0 : BitVec W)) r hshift (edges.map Edge.shift) i
  have hclock : clock = fun (r : Weights W) e => ShiftEdge.shift (fun _ => 0) r e.shift := by
    funext r e
    exact clock_eq_shift r e
  rw [← List.map_cons, List.foldl_map, ← hclock] at h
  rw [history, ← h]

/-- The sum of the signed products that output `i` is to be. -/
def dotProduct (r : Weights W) (bIn : Fin N → BitVec W) (i : Fin N) : ℤ :=
  ∑ j, (r i j).toInt * (bIn j).toInt

theorem cOut_eq_ofInt (r : Weights W) (bIn : Fin N → BitVec W) (i : Fin N) :
    cOut r bIn i = BitVec.ofInt (2 * W) (dotProduct r bIn i) := by
  rw [cOut_eq_sum, dotProduct, Clocked.ofInt_sum]
  apply Finset.sum_congr rfl
  intro j _
  exact Clocked.signExtend_mul_signExtend _ _

/-- After any edges that begin with a reset, the weights are the last `N` values of `a_in`, and every
output is the product with them modulo `2 ^ (2 * W)`, whatever overflows on the way. -/
theorem history_and_dotProduct (W : ℕ) (powerOn : Weights W) (stationaryCtrl : Bool)
    (aIn bIn₀ : Fin N → BitVec W) (edges : List (Edge W)) (i : Fin N) :
    let edges := ⟨true, stationaryCtrl, aIn, bIn₀⟩ :: edges
    let weight := edges.foldl clock powerOn
    (∀ j, weight i j = (history edges).getD i (fun _ => 0) j) ∧
      ∀ bIn, (cOut weight bIn i).toInt ≡ dotProduct weight bIn i [ZMOD 2 ^ (2 * W)] ∧
        (Fits (2 * W) (dotProduct weight bIn i) → (cOut weight bIn i).toInt = dotProduct weight bIn i) := by
  intro edges weight
  constructor
  · exact fun j => foldl_clock powerOn rfl _ i j
  · intro bIn
    rw [cOut_eq_ofInt]
    exact ⟨Clocked.toInt_ofInt_modEq _, (Clocked.toInt_ofInt_iff _).mpr⟩

end EmbeddedAccelerator.PEArray
