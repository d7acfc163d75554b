import EmbeddedAccelerator.Xdma.UserBuffers

/-!
The registers of the card are read through a mapping of a BAR: `dev_read_mapped` (`matrix_top2.c`) on top of
`bridge_mmap` (`cdev_ctrl.c`).
-/

namespace EmbeddedAccelerator.Xdma

def eagain : ℤ := 11

def pageShift : ℕ := 12

/-- A BAR: whole pages at a physical address. -/
structure Bar where
  start : Addr
  size : ℕ
  aligned : start.toNat % pageSize = 0
  pages : size % pageSize = 0
  fits : start.toNat + size < 2 ^ 64

def Bar.resourceEnd (bar : Bar) : Addr := bar.start + BitVec.ofNat 64 bar.size - 1

/-- `bridge_mmap` of `vsize` bytes: an error, or the physical address that the mapping begins with. -/
def bridgeMmap (bar : Bar) (remapped : Bool) (vmPgoff vsize : BitVec 64) : Except ℤ Addr :=
  let off := vmPgoff <<< pageShift
  let phys := bar.start + off
  let psize := bar.resourceEnd - bar.start + 1 - off
  if vsize > psize then .error (-einval)
  else if !remapped then .error (-eagain)
  else .ok ((phys >>> pageShift) <<< pageShift)

/-- The kernel maps whole pages. -/
def pageAlign (len : BitVec 64) : BitVec 64 := (len + BitVec.ofNat 64 (pageSize - 1)) &&& ~~~BitVec.ofNat 64 (pageSize - 1)

/-- `dev_read_mapped`: the bytes that are copied, if the BAR can be mapped. -/
def devReadMapped (bar : Bar) (remapped : Bool) (mem : Addr → BitVec 8) (addr : Addr) (size : ℕ) : Option (List (BitVec 8)) :=
  let offset := addr &&& BitVec.ofNat 64 (pageSize - 1)
  let targetAligned := addr &&& ~~~BitVec.ofNat 64 (pageSize - 1)
  match bridgeMmap bar remapped (targetAligned >>> pageShift) (pageAlign (offset + BitVec.ofNat 64 size)) with
  | .error _ => none
  | .ok map => some (Copying.load mem (map + offset) size)

/-- Where the pages of some registers begin, and where they end. -/
def firstPage (addr : Addr) : ℕ := addr.toNat / pageSize * pageSize

def lastPage (addr : Addr) (size : ℕ) : ℕ := (addr.toNat + size + pageSize - 1) / pageSize * pageSize

/-- The physical addresses of the BAR. -/
def Bar.Holds (bar : Bar) (a : Addr) : Prop := bar.start.toNat ≤ a.toNat ∧ a.toNat < bar.start.toNat + bar.size

section Bits

theorem toNat_and_page (x : BitVec 64) : (x &&& BitVec.ofNat 64 (pageSize - 1)).toNat = x.toNat % pageSize := by
  rw [BitVec.toNat_and, show (BitVec.ofNat 64 (pageSize - 1)).toNat = 2 ^ 12 - 1 from rfl, Nat.and_two_pow_sub_one_eq_mod]
  rfl

theorem and_add_and_not (x m : BitVec 64) : (x &&& m).toNat + (x &&& ~~~m).toNat = x.toNat := by
  have hdisjoint : (x &&& m) &&& (x &&& ~~~m) = 0#64 := by
    ext i hi
    simp only [BitVec.getElem_and, BitVec.getElem_not, BitVec.getElem_zero]
    cases x[i] <;> cases m[i] <;> rfl
  have hjoin : (x &&& m) ||| (x &&& ~~~m) = x := by
    ext i hi
    simp only [BitVec.getElem_or, BitVec.getElem_and, BitVec.getElem_not]
    cases x[i] <;> cases m[i] <;> rfl
  rw [← BitVec.toNat_add_of_and_eq_zero hdisjoint, BitVec.add_eq_or_of_and_eq_zero _ _ hdisjoint, hjoin]

theorem toNat_and_not_page (x : BitVec 64) :
    (x &&& ~~~BitVec.ofNat 64 (pageSize - 1)).toNat = x.toNat - x.toNat % pageSize := by
  have hsplit := and_add_and_not x (BitVec.ofNat 64 (pageSize - 1))
  rw [toNat_and_page] at hsplit
  omega

theorem shift_page {x : BitVec 64} (h : x.toNat % pageSize = 0) : (x >>> pageShift) <<< pageShift = x := by
  apply BitVec.eq_of_toNat_eq
  rw [BitVec.toNat_shiftLeft, BitVec.toNat_ushiftRight, Nat.shiftRight_eq_div_pow, Nat.shiftLeft_eq]
  have hlt := x.isLt
  simp only [pageSize, pageShift] at *
  omega

end Bits

section Map

variable (bar : Bar) (mem : Addr → BitVec 8) {addr : Addr} {size : ℕ}

/-- The driver subtracts without looking whether the offset is beyond the end of the BAR. -/
theorem bridgeMmap_eq (remapped : Bool) {off : BitVec 64} (vsize : BitVec 64) (hoff : off.toNat % pageSize = 0) :
    bridgeMmap bar remapped (off >>> pageShift) vsize =
      if vsize.toNat > (2 ^ 64 - off.toNat + bar.size) % 2 ^ 64 then .error (-einval)
      else if !remapped then .error (-eagain)
      else .ok (bar.start + off) := by
  have hfits := bar.fits
  have haligned := bar.aligned
  have hlt := off.isLt
  have hpsize : (bar.resourceEnd - bar.start + 1 - off).toNat = (2 ^ 64 - off.toNat + bar.size) % 2 ^ 64 := by
    have hsize : bar.resourceEnd - bar.start + 1 = BitVec.ofNat 64 bar.size := by
      rw [Bar.resourceEnd]
      bv_omega
    rw [hsize, BitVec.toNat_sub, BitVec.toNat_ofNat, Nat.mod_eq_of_lt (by omega : bar.size < 2 ^ 64)]
  have hphys : (bar.start + off).toNat % pageSize = 0 := by
    rw [BitVec.toNat_add]
    simp only [pageSize] at *
    omega
  simp only [bridgeMmap, shift_page hoff, shift_page hphys, gt_iff_lt, BitVec.lt_def, hpsize]

theorem start_add_and_page (addr : Addr) : bar.start + (addr &&& ~~~BitVec.ofNat 64 (pageSize - 1)) +
    (addr &&& BitVec.ofNat 64 (pageSize - 1)) = bar.start + addr := by
  rw [BitVec.add_assoc]
  congr 1
  apply BitVec.eq_of_toNat_eq
  have hsplit := and_add_and_not addr (BitVec.ofNat 64 (pageSize - 1))
  have hlt := addr.isLt
  rw [BitVec.toNat_add]
  omega

theorem vsize_gt_iff (haddr : addr.toNat < 2 ^ 63) (hpos : 0 < size) (hsize : size < 2 ^ 32) :
    (pageAlign ((addr &&& BitVec.ofNat 64 (pageSize - 1)) + BitVec.ofNat 64 size)).toNat >
        (2 ^ 64 - (addr &&& ~~~BitVec.ofNat 64 (pageSize - 1)).toNat + bar.size) % 2 ^ 64 ↔
      ¬ (lastPage addr size ≤ bar.size ∨ bar.size < firstPage addr) := by
  have hfits := bar.fits
  have hpages := bar.pages
  have hmod : addr.toNat % pageSize < pageSize := Nat.mod_lt _ (by decide)
  rw [pageAlign, toNat_and_not_page, toNat_and_not_page, BitVec.toNat_add, BitVec.toNat_add, toNat_and_page,
    BitVec.toNat_ofNat, BitVec.toNat_ofNat]
  simp only [pageSize, firstPage, lastPage] at *
  omega

theorem devReadMapped_eq (haddr : addr.toNat < 2 ^ 63) (hpos : 0 < size) (hsize : size < 2 ^ 32) :
    devReadMapped bar true mem addr size =
      if lastPage addr size ≤ bar.size ∨ bar.size < firstPage addr then some (Copying.load mem (bar.start + addr) size)
      else none := by
  have hoff : (addr &&& ~~~BitVec.ofNat 64 (pageSize - 1)).toNat % pageSize = 0 := by
    rw [toNat_and_not_page]
    simp only [pageSize]
    omega
  have hiff := vsize_gt_iff bar haddr hpos hsize
  rw [devReadMapped, bridgeMmap_eq bar true _ hoff]
  by_cases hin : lastPage addr size ≤ bar.size ∨ bar.size < firstPage addr
  · rw [if_neg (hiff.not.mpr (not_not.mpr hin)), if_pos hin, ← start_add_and_page bar addr]
    rfl
  · rw [if_pos (hiff.mpr hin), if_neg hin]

theorem holds_iff (hend : bar.start.toNat + addr.toNat + size ≤ 2 ^ 64) {i : ℕ} (hi : i < size) :
    bar.Holds (bar.start + addr + (i : Addr)) ↔ addr.toNat + i < bar.size := by
  have hsum : (bar.start + addr + (i : Addr)).toNat = bar.start.toNat + addr.toNat + i := by
    rw [BitVec.natCast_eq_ofNat, BitVec.toNat_add, BitVec.toNat_add, BitVec.toNat_ofNat]
    omega
  rw [Bar.Holds, hsum]
  omega

/-- `dev_read_mapped` gets a mapping when the pages of the registers are all in the BAR, and also when they are all
behind it: the driver subtracts the offset without a look at the size. What is then read is at that distance from the
beginning of the BAR, so that in the first case all of it is in the BAR, and in the second case nothing is. -/
theorem devReadMapped_cases (haddr : addr.toNat < 2 ^ 63) (hpos : 0 < size) (hsize : size < 2 ^ 32)
    (hend : bar.start.toNat + addr.toNat + size ≤ 2 ^ 64) :
    ((devReadMapped bar true mem addr size).isSome ↔ lastPage addr size ≤ bar.size ∨ bar.size < firstPage addr) ∧
      ∀ data, devReadMapped bar true mem addr size = some data → data = Copying.load mem (bar.start + addr) size ∧
        (lastPage addr size ≤ bar.size → ∀ i < size, bar.Holds (bar.start + addr + (i : Addr))) ∧
        (bar.size < firstPage addr → ∀ i < size, ¬ bar.Holds (bar.start + addr + (i : Addr))) := by
  rw [devReadMapped_eq bar mem haddr hpos hsize]
  have hfirst : firstPage addr ≤ addr.toNat := Nat.div_mul_le_self _ _
  have hlast : addr.toNat + size ≤ lastPage addr size := by
    simp only [lastPage, pageSize]
    omega
  constructor
  · split_ifs with hin
    · exact iff_of_true rfl hin
    · exact iff_of_false Bool.false_ne_true hin
  · intro data hdata
    refine ⟨?_, ?_, ?_⟩
    · split_ifs at hdata
      exact (Option.some.inj hdata).symm
    · intro hin i hi
      rw [holds_iff bar hend hi]
      omega
    · intro hbehind i hi
      rw [holds_iff bar hend hi]
      omega

theorem exampleBar_aligned : (0xF0000000 : Addr).toNat % pageSize = 0 := by decide

theorem exampleBar_pages : 0x8000 % pageSize = 0 := by decide

theorem exampleBar_fits : (0xF0000000 : Addr).toNat + 0x8000 < 2 ^ 64 := by decide

def exampleBar : Bar := ⟨0xF0000000, 0x8000, exampleBar_aligned, exampleBar_pages, exampleBar_fits⟩

/-- A register behind the BAR, which is read all the same. -/
theorem devReadMapped_example :
    let mem : Addr → BitVec 8 := fun a => a.setWidth 8
    devReadMapped exampleBar true mem 0x9004 4 = some (Copying.load mem (exampleBar.start + 0x9004) 4) ∧
      ∀ i < 4, ¬ exampleBar.Holds (exampleBar.start + 0x9004 + ((i : ℕ) : Addr)) := by
  intro mem
  have hend : exampleBar.start.toNat + (0x9004 : Addr).toNat + 4 ≤ 2 ^ 64 := by decide
  obtain ⟨hiff, hread⟩ := devReadMapped_cases exampleBar mem (by decide) (by decide) (by decide) hend
  have hbehind : exampleBar.size < firstPage 0x9004 := by decide
  obtain ⟨data, hdata⟩ := Option.isSome_iff_exists.mp (hiff.mpr (.inr hbehind))
  obtain ⟨hload, -, hout⟩ := hread data hdata
  exact ⟨hdata.trans (congrArg some hload), hout hbehind⟩

end Map

end EmbeddedAccelerator.Xdma
