import EmbeddedAccelerator.Copying.Stores

/-!
The descriptors of the DMA engine (`libxdma.c`): the fields of 32 bits that the driver writes, and what the engine
reads in them.
-/

namespace EmbeddedAccelerator.Xdma

open Copying (Piece Move)

/-- An address on the PCIe bus or in the card. -/
abbrev Addr := BitVec 64

def descStopped : BitVec 32 := 1#32 <<< 0
def descCompleted : BitVec 32 := 1#32 <<< 1
def descEop : BitVec 32 := 1#32 <<< 4
def lsByteMask : BitVec 32 := 0x000000FF
def descMagic : BitVec 32 := 0xAD4B0000
def maxAdjBlockSize : ℕ := 0x40
def pageSize : ℕ := 0x1000

def sizeofDesc : ℕ := 32

def pciDmaH (addr : Addr) : BitVec 32 := ((addr >>> 16) >>> 16).setWidth 32
def pciDmaL (addr : Addr) : BitVec 32 := (addr &&& 0xffffffff).setWidth 32

structure Desc where
  control : BitVec 32
  bytes : BitVec 32
  srcAddrLo : BitVec 32
  srcAddrHi : BitVec 32
  dstAddrLo : BitVec 32
  dstAddrHi : BitVec 32
  nextLo : BitVec 32
  nextHi : BitVec 32
  deriving DecidableEq, Repr

inductive Dir where
  | toDevice | fromDevice
  deriving DecidableEq, Repr

def descSet (rcBusAddr epAddr : Addr) (len : ℕ) (dir : Dir) (desc : Desc) : Desc :=
  let desc := { desc with bytes := BitVec.ofNat 32 len }
  match dir with
  | .toDevice =>
    { desc with
      srcAddrLo := pciDmaL rcBusAddr
      srcAddrHi := pciDmaH rcBusAddr
      dstAddrLo := pciDmaL epAddr
      dstAddrHi := pciDmaH epAddr }
  | .fromDevice =>
    { desc with
      srcAddrLo := pciDmaL epAddr
      srcAddrHi := pciDmaH epAddr
      dstAddrLo := pciDmaL rcBusAddr
      dstAddrHi := pciDmaH rcBusAddr }

def descControlSet (controlField : BitVec 32) (first : Desc) : Desc :=
  if controlField &&& ~~~lsByteMask ≠ 0 then first
  else { first with control := (first.control &&& ~~~lsByteMask) ||| controlField }

def descAdjacent (nextAdjacent : ℕ) (desc : Desc) : Desc :=
  { desc with
    control := (desc.control &&& 0x0000f0ff) ||| (descMagic ||| (BitVec.ofNat 32 nextAdjacent <<< 8)) }

def getNextAdj (remaining : ℕ) (nextLo : BitVec 32) : ℕ :=
  if remaining ≤ 1 then 0
  else
    let nextIndex := ((nextLo.toNat &&& (pageSize - 1)) >>> 5) % maxAdjBlockSize
    min (maxAdjBlockSize - nextIndex - 1) (remaining - 1)

namespace Desc

/-- The address in a pair of fields. -/
def join (hi lo : BitVec 32) : Addr := hi ++ lo

def next (d : Desc) : Addr := join d.nextHi d.nextLo

def stopped (d : Desc) : Bool := d.control.getLsbD 0

/-- How many neighbours of the next descriptor are read with it. -/
def nextAdjacent (d : Desc) : ℕ := (d.control.extractLsb' 8 6).toNat

def move (d : Desc) : Move Addr Addr :=
  ⟨join d.srcAddrHi d.srcAddrLo, join d.dstAddrHi d.dstAddrLo, d.bytes.toNat⟩

end Desc

@[simp] theorem join_pciDma (addr : Addr) : Desc.join (pciDmaH addr) (pciDmaL addr) = addr := by
  apply BitVec.eq_of_getLsbD_eq
  intro i hi
  have hmask : (0xffffffff : BitVec 64) = (BitVec.allOnes 32).setWidth 64 := rfl
  simp only [Desc.join, pciDmaH, pciDmaL, hmask, BitVec.getLsbD_append, BitVec.getLsbD_setWidth, BitVec.getLsbD_and,
    BitVec.getLsbD_allOnes, BitVec.getLsbD_ushiftRight]
  by_cases h : i < 32
  · simp [h, hi]
  · have hlt : i - 32 < 32 := by omega
    have hsum : 16 + (16 + (i - 32)) = i := by omega
    simp [h, hlt, hsum]

theorem getNextAdj_le (remaining : ℕ) (nextLo : BitVec 32) : getNextAdj remaining nextLo ≤ remaining - 1 := by
  rw [getNextAdj]
  split_ifs
  · exact Nat.zero_le _
  · exact Nat.min_le_right _ _

theorem getNextAdj_lt (remaining : ℕ) (nextLo : BitVec 32) : getNextAdj remaining nextLo < maxAdjBlockSize := by
  rw [getNextAdj]
  split_ifs
  · decide
  · apply (Nat.min_le_left _ _).trans_lt
    rw [maxAdjBlockSize]
    omega

/-- A block of neighbours stays in its aligned group of 64 descriptors, and so in its page. -/
theorem getNextAdj_group {remaining : ℕ} {addr : Addr} {k : ℕ} (h : addr.toNat % pageSize = sizeofDesc * k % pageSize) :
    k % maxAdjBlockSize + getNextAdj remaining (pciDmaL addr) < maxAdjBlockSize := by
  have hk : k % maxAdjBlockSize < maxAdjBlockSize := Nat.mod_lt _ (by decide)
  rw [getNextAdj]
  split_ifs
  · exact hk
  · have hand : (pciDmaL addr).toNat &&& (pageSize - 1) = addr.toNat % pageSize := by
      rw [show pageSize - 1 = 2 ^ 12 - 1 from rfl, Nat.and_two_pow_sub_one_eq_mod, pciDmaL, BitVec.toNat_setWidth,
        BitVec.toNat_and, show (0xffffffff : BitVec 64).toNat = 2 ^ 32 - 1 from rfl, Nat.and_two_pow_sub_one_eq_mod,
        show pageSize = 2 ^ 12 from rfl]
      omega
    have hindex : ((pciDmaL addr).toNat &&& (pageSize - 1)) >>> 5 % maxAdjBlockSize = k % maxAdjBlockSize := by
      rw [hand, h, Nat.shiftRight_eq_div_pow]
      simp only [pageSize, sizeofDesc, maxAdjBlockSize]
      omega
    have hmin := Nat.min_le_left (maxAdjBlockSize - k % maxAdjBlockSize - 1) (remaining - 1)
    simp only [hindex]
    omega

/-- The control words that a descriptor of a transfer has before its neighbours are counted. -/
def Fresh (control : BitVec 32) : Prop :=
  control = descMagic ∨ control = descMagic ||| (descStopped ||| descEop ||| descCompleted) ∨
    control = descMagic ||| descCompleted

theorem Fresh.adjacent_bits {control : BitVec 32} (h : Fresh control) {i : ℕ} (hi : i < 6) :
    control.getLsbD (8 + i) = false := by
  have hmagic : ∀ i < 6, descMagic.getLsbD (8 + i) = false := by decide
  have hlast : ∀ i < 6, (descMagic ||| (descStopped ||| descEop ||| descCompleted)).getLsbD (8 + i) = false := by
    decide
  have hflush : ∀ i < 6, (descMagic ||| descCompleted).getLsbD (8 + i) = false := by decide
  obtain rfl | rfl | rfl := h
  · exact hmagic i hi
  · exact hlast i hi
  · exact hflush i hi

theorem nextAdjacent_descAdjacent {d : Desc} (hd : Fresh d.control) {adj : ℕ} (h : adj < maxAdjBlockSize) :
    (descAdjacent adj d).nextAdjacent = adj := by
  have hfield : (descAdjacent adj d).control.extractLsb' 8 6 = BitVec.ofNat 6 adj := by
    apply BitVec.eq_of_getLsbD_eq
    intro i hi
    have hmagic : descMagic.getLsbD (8 + i) = false := Fresh.adjacent_bits (.inl rfl) hi
    simp only [BitVec.getLsbD_extractLsb', descAdjacent, BitVec.getLsbD_or, BitVec.getLsbD_and, hd.adjacent_bits hi,
      hmagic, BitVec.getLsbD_shiftLeft, BitVec.getLsbD_ofNat, hi]
    have h32 : 8 + i < 32 := by omega
    have hge : ¬ 8 + i < 8 := by omega
    have hi32 : i < 32 := by omega
    simp [h32, hge, hi32]
  rw [Desc.nextAdjacent, hfield, BitVec.toNat_ofNat]
  exact Nat.mod_eq_of_lt h

theorem stopped_descAdjacent (d : Desc) (adj : ℕ) : (descAdjacent adj d).stopped = d.stopped := by
  have hmagic : descMagic.getLsbD 0 = false := rfl
  simp only [Desc.stopped, descAdjacent, BitVec.getLsbD_or, BitVec.getLsbD_and, hmagic, BitVec.getLsbD_shiftLeft]
  simp

end EmbeddedAccelerator.Xdma
