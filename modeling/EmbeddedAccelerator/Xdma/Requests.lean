import EmbeddedAccelerator.Xdma.Descriptors

namespace EmbeddedAccelerator.Xdma

open Copying (Piece gather load total)

/-- An entry of a mapped scatter list, and a `struct sw_desc`. -/
abbrev SwDesc := Piece Addr

/-- `desc_blen_max`. The driver bounds it from above only, but divides by it. -/
structure DescBlenMax where
  val : ℕ
  pos : 0 < val
  lt : val < 2 ^ 28

structure Request where
  sdesc : List SwDesc
  swDescIdx : ℕ
  epAddr : Addr
  totalLen : ℕ

variable (b : DescBlenMax)

/-- What the loop over the entries adds to `extra`, an `unsigned int`. -/
def extra (len : ℕ) : ℕ := if len > b.val then (len + b.val - 1) % 2 ^ 32 / b.val else 0

/-- How many pieces an array is asked for: `max` after the first loop. -/
def sdescMax (sgl : List SwDesc) : ℕ := sgl.length + (sgl.map fun sg => extra b sg.len).sum

def sizeofSwDesc : ℕ := 16

/-- The inner loop of the driver. -/
def fill (addr : Addr) (tlen : ℕ) : List SwDesc :=
  if tlen = 0 then []
  else if tlen > b.val then ⟨addr, b.val⟩ :: fill (addr + (b.val : Addr)) (tlen - b.val)
  else [⟨addr, tlen⟩]
termination_by tlen
decreasing_by exact Nat.sub_lt (by omega) b.pos

def sdescs (sgl : List SwDesc) : List SwDesc := sgl.flatMap fun sg => fill b sg.addr sg.len

/-- The array is filled before its size is looked at. -/
def initRequest (sgl : List SwDesc) (epAddr : Addr) : Option Request :=
  if (sdescs b sgl).length > sdescMax b sgl then none
  else some ⟨sdescs b sgl, 0, epAddr, total sgl % 2 ^ 32⟩

theorem gather_fill {V : Type*} (m : Addr → V) (addr : Addr) (tlen : ℕ) :
    gather m (fill b addr tlen) = load m addr tlen := by
  fun_induction fill b addr tlen with
  | case1 => rfl
  | case2 addr tlen _ hgt ih =>
    have hsplit : tlen = b.val + (tlen - b.val) := by omega
    rw [Copying.gather_cons, ih]
    conv_rhs => rw [hsplit, Copying.load_add]
  | case3 addr tlen => simp

theorem fill_bounds {addr : Addr} {tlen : ℕ} : ∀ d ∈ fill b addr tlen, 0 < d.len ∧ d.len ≤ b.val := by
  fun_induction fill b addr tlen with
  | case1 => exact fun d hd => absurd hd List.not_mem_nil
  | case2 addr tlen _ _ ih =>
    intro d hd
    obtain rfl | hd := List.mem_cons.mp hd
    · exact ⟨b.pos, le_rfl⟩
    · exact ih d hd
  | case3 addr tlen h0 hle =>
    intro d hd
    rw [List.mem_singleton.mp hd]
    change 0 < tlen ∧ tlen ≤ b.val
    omega

theorem length_fill (addr : Addr) (tlen : ℕ) : (fill b addr tlen).length = (tlen + b.val - 1) / b.val := by
  have hpos := b.pos
  fun_induction fill b addr tlen with
  | case1 =>
    rw [List.length_nil, Nat.zero_add, Nat.div_eq_of_lt (by omega)]
  | case2 addr tlen _ hgt ih =>
    have hsplit : tlen + b.val - 1 = tlen - b.val + b.val - 1 + b.val := by omega
    rw [List.length_cons, ih, hsplit, Nat.add_div_right _ hpos]
  | case3 addr tlen h0 hle =>
    have hone : (tlen + b.val - 1) / b.val = 1 := by
      apply Nat.div_eq_of_lt_le <;> omega
    rw [List.length_singleton, hone]

theorem length_sdescs (sgl : List SwDesc) :
    (sdescs b sgl).length = (sgl.map fun sg => (sg.len + b.val - 1) / b.val).sum := by
  rw [sdescs, List.length_flatMap]
  exact congrArg List.sum (List.map_congr_left fun sg _ => length_fill b sg.addr sg.len)

theorem gather_sdescs {V : Type*} (m : Addr → V) (sgl : List SwDesc) : gather m (sdescs b sgl) = gather m sgl := by
  induction sgl with
  | nil => rfl
  | cons sg sgl ih =>
    rw [sdescs, List.flatMap_cons, Copying.gather_append, gather_fill, Copying.gather_cons]
    exact congrArg _ ih

theorem addresses_sdescs (sgl : List SwDesc) : Copying.addresses (sdescs b sgl) = Copying.addresses sgl := by
  have h := gather_sdescs b (fun x : Addr => x) sgl
  rwa [Copying.gather_eq_map, Copying.gather_eq_map, List.map_id', List.map_id'] at h

theorem total_sdescs (sgl : List SwDesc) : total (sdescs b sgl) = total sgl := by
  have h := congrArg List.length (gather_sdescs b (fun _ => ()) sgl)
  rwa [Copying.length_gather, Copying.length_gather] at h

theorem sdescs_bounds {sgl : List SwDesc} : ∀ d ∈ sdescs b sgl, 0 < d.len ∧ d.len ≤ b.val := by
  intro d hd
  obtain ⟨sg, -, hd⟩ := List.mem_flatMap.mp hd
  exact fill_bounds b d hd

theorem length_fill_le {sg : SwDesc} (h : sg.len + b.val ≤ 2 ^ 32) :
    (fill b sg.addr sg.len).length ≤ 1 + extra b sg.len := by
  have hpos := b.pos
  rw [length_fill, extra]
  split_ifs with hgt
  · rw [Nat.mod_eq_of_lt (by omega)]
    exact Nat.le_add_left _ _
  · have hlt : (sg.len + b.val - 1) / b.val < 2 := by
      apply Nat.div_lt_of_lt_mul
      omega
    omega

theorem length_sdescs_le {sgl : List SwDesc} (h : ∀ sg ∈ sgl, sg.len + b.val ≤ 2 ^ 32) :
    (sdescs b sgl).length ≤ sdescMax b sgl := by
  induction sgl with
  | nil => exact le_rfl
  | cons sg sgl ih =>
    have hhead := length_fill_le b (h sg List.mem_cons_self)
    have htail := ih fun sg hsg => h sg (List.mem_cons_of_mem _ hsg)
    simp only [sdescs, sdescMax, List.flatMap_cons, List.length_append, List.length_cons, List.map_cons,
      List.sum_cons] at htail ⊢
    omega

theorem initRequest_eq {sgl : List SwDesc} (h : ∀ sg ∈ sgl, sg.len + b.val ≤ 2 ^ 32) (epAddr : Addr) :
    initRequest b sgl epAddr = some ⟨sdescs b sgl, 0, epAddr, total sgl % 2 ^ 32⟩ :=
  if_neg (Nat.not_lt.mpr (length_sdescs_le b h))

section Room

variable {b} {header n : ℕ}

end Room

end EmbeddedAccelerator.Xdma
