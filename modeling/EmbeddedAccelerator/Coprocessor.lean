import EmbeddedAccelerator.Clocked.Sessions
import EmbeddedAccelerator.Encoding
import EmbeddedAccelerator.EndToEnd
import EmbeddedAccelerator.HostWrites

namespace EmbeddedAccelerator.Coprocessor

open Clocked (Mem)
open Host (Matrix matrixSize matrixMultiply)
open XdmaApp (Region InRange)

structure State where
  mem : Region → Mem
  /-- A product has been asked for, and the host does not know yet that it is there. -/
  computing : Bool
  finished : Bool

inductive Op where
  | write (r : Region) (addr len : ℕ) (data : Mem)
  | read (r : Region) (addr len : ℕ) (data : Mem)
  | start
  | status (value : BitVec 32)

theorem div_lt_matrixSize (a : ℕ) : a / matrixSize % matrixSize < matrixSize := Nat.mod_lt _ (by decide)

theorem mod_lt_matrixSize (a : ℕ) : a % matrixSize < matrixSize := Nat.mod_lt _ (by decide)

def matrixOf (mem : Mem) : Matrix := fun i j => mem (i * matrixSize + j)

/-- The bytes of an `int16` matrix, row by row. -/
def resultBytes (C : Encoding.Result) : Mem := fun a =>
  (C ⟨a / 2 / matrixSize % matrixSize, div_lt_matrixSize _⟩ ⟨a / 2 % matrixSize, mod_lt_matrixSize _⟩).extractLsb'
    (8 * (a % 2)) 8

def product (A B : Mem) : Mem :=
  resultBytes (matrixMultiply (matrixOf A) (Machine.mirrorColumns (matrixOf B)))

/-- The operands may not change while they are multiplied, and the product is only there when the
host knows of it. The memories take whole words. -/
def Allowed (s : State) : Op → Prop
  | .write _ addr len _ => s.computing = false ∧ 8 ∣ addr ∧ 8 ∣ len ∧ addr + len ≤ 8192
  | .read r addr len _ => (r = .c → s.computing = false) ∧ addr + len ≤ 8192
  | .start | .status _ => True

def Correct (s : State) : Op → Prop
  | .read r addr len data => ∀ a, InRange addr len a → data a = s.mem r a
  | .status value => if s.computing then value = 0 ∨ value = 2 else value = if s.finished then 2 else 0
  | .write .. | .start => True

def next (s : State) : Op → State
  | .write r addr len data =>
    { s with mem := fun q a => if q = r ∧ InRange addr len a then data a else s.mem q a }
  | .start =>
    if s.computing then s
    else
      { mem := fun q => if q = .c then product (s.mem .a) (s.mem .b) else s.mem q
        computing := true
        finished := false }
  | .status value => if value = 2 then { s with computing := false, finished := true } else s
  | .read .. => s

def spec : Clocked.Spec State Op := ⟨Allowed, Correct, next⟩

section Product

theorem flatten_matrixOf (mem : Mem) : Host.flattenMatrixRowMajor (matrixOf mem) mem = mem := by
  funext a
  rw [Host.flattenMatrixRowMajor]
  split_ifs with h
  · exact congrArg mem (Nat.div_add_mod' a matrixSize)
  · rfl

theorem half_resultBytes (C : Encoding.Result) (r c : Fin matrixSize) :
    (resultBytes C).half (r * matrixSize + c) = C r c := by
  have hc := c.isLt
  have hr := r.isLt
  have hrow : (r * matrixSize + c : ℕ) / matrixSize % matrixSize = r := by
    simp only [matrixSize] at *
    omega
  have hcol : (r * matrixSize + c : ℕ) % matrixSize = c := by
    simp only [matrixSize] at *
    omega
  have hlow : 2 * (r * matrixSize + c : ℕ) / 2 = r * matrixSize + c := by omega
  have hhigh : (2 * (r * matrixSize + c : ℕ) + 1) / 2 = r * matrixSize + c := by omega
  have hlow2 : 2 * (r * matrixSize + c : ℕ) % 2 = 0 := by omega
  have hhigh2 : (2 * (r * matrixSize + c : ℕ) + 1) % 2 = 1 := by omega
  apply BitVec.eq_of_getLsbD_eq
  intro b hb
  rw [Mem.half_getLsbD]
  simp only [resultBytes, hlow, hhigh, hlow2, hhigh2, hrow, hcol, Fin.eta, BitVec.getLsbD_extractLsb']
  by_cases h : b < 8
  · simp [h]
  · have h8 : b - 8 < 8 := by omega
    have hsum : 8 + (b - 8) = b := by omega
    simp [h, h8, hsum]

theorem partialProduct_eq (A B : Mem) (i j : Fin matrixSize) :
    Machine.partialProduct shipped A B matrixSize i (Machine.mirrored j) =
      (product A B).half (i * matrixSize + j) := by
  have h := Machine.partialProduct_flatten (matrixOf A) (matrixOf B) A B i j
  rw [flatten_matrixOf, flatten_matrixOf] at h
  rw [product, half_resultBytes, h]

end Product

end EmbeddedAccelerator.Coprocessor
