import EmbeddedAccelerator.Xdma.UserBuffers

namespace EmbeddedAccelerator.Xdma

open Copying (load store)

/-- A process with its file of the driver, its buffer, and what the kernel does for the call. -/
structure Caller (e : Engine) where
  alignment : Alignment
  kernel : Kernel
  descBlenMax : DescBlenMax
  outcomes : ℕ → Outcome
  ring : Ring e
  fPos : ℤ
  buf : ℕ

variable {e : Engine}

def Caller.bytes (c : Caller e) (host : Addr → BitVec 8) (size : ℕ) : List (BitVec 8) :=
  bufferBytes host c.kernel.page c.buf size

/-- The call is not turned away. -/
structure Admitted (c : Caller e) (dir : Dir) (addr size : ℕ) : Prop where
  dir : e.dir = dir
  incremental : e.nonIncrAddr = false
  aligned : checkTransferAlign e c.alignment c.buf size addr = 0
  grants : Grants c.kernel c.descBlenMax c.buf size

section Calls

variable {c : Caller e} {addr size : BitVec 64} (hsize : 0 < size.toNat) (hmax : size.toNat ≤ maxRwCount)
  (hend : addr.toNat + size.toNat < 2 ^ 63) (mem : Memory)
include hmax hend

include hsize

end Calls

/-- A process whose buffer of eight bytes ends in a second page. -/
def exampleCaller (dir : Dir) : Caller (exampleEngine dir) where
  alignment := ⟨1, 1⟩
  kernel := ⟨true, true, 2, fun i => if i = 0 then 0x7000 else 0x3000, id, 512⟩
  descBlenMax := exampleBlenMax
  outcomes := fun _ => .completed
  ring := exampleRing dir
  fPos := 0
  buf := 4092

theorem admitted_exampleCaller (dir : Dir) : Admitted (exampleCaller dir) dir 0x2000 8 where
  dir := rfl
  incremental := rfl
  aligned := by cases dir <;> decide
  grants := by
    refine ⟨rfl, rfl, by cases dir <;> decide, fun i hi => ?_, fun sgl hne hlen => ⟨hne, rfl, fun s hs => ?_⟩,
      fun sgl hsgl => ?_⟩
    · have hpages : pagesNr 4092 8 = 2 := by decide
      obtain rfl : i = 0 := by
        have hi : i + 1 < pagesNr 4092 8 := hi
        omega
      change (0x7000 : Addr) ≠ 0x3000
      decide
    · have hs := hlen s hs
      have hb : exampleBlenMax.val < 2 ^ 28 := exampleBlenMax.lt
      simp only [pageSize] at hs
      change s.len + exampleBlenMax.val ≤ 2 ^ 32
      omega
    · have hmap : mapUserBufToSgl (exampleCaller dir).kernel 4092 8 = .ok [⟨0x7ffc, 4⟩, ⟨0x3000, 4⟩] := by
        cases dir <;> rfl
      obtain rfl := Except.ok.inj (hmap.symm.trans hsgl)
      cases dir <;> decide

end EmbeddedAccelerator.Xdma
