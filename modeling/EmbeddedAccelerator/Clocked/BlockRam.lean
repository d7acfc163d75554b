import EmbeddedAccelerator.Clocked.Words

/-!
A memory that is read and written in words of several widths. The word at address `a` of a port
that is `bytes` wide begins at byte `bytes * a`, its lowest byte first.
-/

namespace Clocked

theorem mul_add_inj {r k c d x : ℕ} (hc : c < x) (hd : d < x) (h : r * x + c = k * x + d) :
    r = k ∧ c = d := by
  have hx : 0 < x := by omega
  have h1 := congrArg (· / x) h
  have h2 := congrArg (· % x) h
  simp only [Nat.mul_comm _ x, Nat.mul_add_div hx, Nat.mul_add_mod, Nat.div_eq_of_lt hc,
    Nat.div_eq_of_lt hd, Nat.mod_eq_of_lt hc, Nat.mod_eq_of_lt hd] at h1 h2
  exact ⟨h1, h2⟩

/-- The byte at every byte address. -/
abbrev Mem := ℕ → BitVec 8

namespace Mem

variable (mem : Mem) (a : ℕ)

def word (bytes : ℕ) : BitVec (8 * bytes) := pack (fun j => mem (bytes * a + j)) bytes

def write {m : ℕ} (bytes : ℕ) (d : BitVec m) : Mem :=
  fun i => if i / bytes = a then lane 8 d (i % bytes) else mem i

/-- The bytes `2i` and `2i+1` as one little-endian number. -/
def half (i : ℕ) : BitVec 16 := mem (2 * i + 1) ++ mem (2 * i)

variable {mem a}

theorem lane_word {bytes j : ℕ} (hj : j < bytes) : lane 8 (word mem a bytes) j = mem (bytes * a + j) :=
  lane_pack _ _ _ hj

theorem word_congr {mem' : Mem} {bytes : ℕ} (h : ∀ j < bytes, mem (bytes * a + j) = mem' (bytes * a + j)) :
    word mem a bytes = word mem' a bytes := pack_congr h

theorem lane_append_lane {m : ℕ} (d : BitVec m) (j : ℕ) :
    lane 8 d (2 * j + 1) ++ lane 8 d (2 * j) = lane 16 d j := by
  apply BitVec.eq_of_getLsbD_eq
  intro i hi
  simp only [lane, BitVec.getLsbD_append, BitVec.getLsbD_extractLsb', hi, decide_true, Bool.true_and]
  by_cases h : i < 8
  · simp only [h, ↓reduceIte, decide_true, Bool.true_and]
    congr 1
    omega
  · simp only [h, ↓reduceIte, show i - 8 < 8 by omega, decide_true, Bool.true_and]
    congr 1
    omega

theorem half_write {m : ℕ} (n : ℕ) (d : BitVec m) (i : ℕ) :
    half (write mem a (2 * n) d) i = if i / n = a then lane 16 d (i % n) else half mem i := by
  have h0 : 2 * i / (2 * n) = i / n := Nat.mul_div_mul_left i n (by decide)
  have h1 : (2 * i + 1) / (2 * n) = i / n := by
    rw [← Nat.div_div_eq_div_mul]
    congr 1
    omega
  have h2 : 2 * i % (2 * n) = 2 * (i % n) := Nat.mul_mod_mul_left 2 i n
  have h3 : (2 * i + 1) % (2 * n) = 2 * (i % n) + 1 := by
    have hd := Nat.div_add_mod (2 * i + 1) (2 * n)
    have hd' := Nat.div_add_mod i n
    rw [h1, Nat.mul_assoc] at hd
    omega
  simp only [half, write, h0, h1, h2, h3]
  split_ifs
  · exact lane_append_lane d _
  · rfl

/-- A column of blocks, `n` numbers wide, that is written one row after the other into a matrix of
`w` such columns. -/
theorem half_rows {x : ℕ → Mem} {n w c L : ℕ} {f : ℕ → ℕ → BitVec 16} (hc : c < w)
    (h : ∀ k < L, x (k + 1) = write (x k) (k * w + c) (2 * n) (pack (f k) n)) (r : ℕ) {e : ℕ}
    (he : e < n * w) {k : ℕ} (hk : k ≤ L) :
    half (x k) (r * (n * w) + e) =
      if e / n = c ∧ r < k then f r (e % n) else half (x 0) (r * (n * w) + e) := by
  have hn : 0 < n := Nat.pos_of_ne_zero fun h0 => by simp [h0] at he
  have hdiv : (r * (n * w) + e) / n = r * w + e / n := by
    rw [Nat.mul_left_comm, Nat.mul_add_div hn]
  have hmod : (r * (n * w) + e) % n = e % n := by
    rw [Nat.mul_left_comm, Nat.mul_add_mod]
  have hcol : e / n < w := Nat.div_lt_of_lt_mul he
  induction k with
  | zero => rw [if_neg fun h0 => Nat.not_lt_zero r h0.2]
  | succ k ih =>
    rw [h k hk, half_write, hdiv, hmod, lane_pack _ _ _ (Nat.mod_lt e hn), ih (by omega)]
    by_cases hrow : r = k ∧ e / n = c
    · obtain ⟨rfl, rfl⟩ := hrow
      rw [if_pos rfl, if_pos ⟨rfl, by omega⟩]
    · rw [if_neg fun heq => hrow (mul_add_inj hcol hc heq)]
      refine if_congr (and_congr_right fun hec => ?_) rfl rfl
      have hne : r ≠ k := fun hr => hrow ⟨hr, hec⟩
      omega

theorem half_getLsbD (mem : Mem) (i b : ℕ) :
    (half mem i).getLsbD b = if b < 8 then (mem (2 * i)).getLsbD b else (mem (2 * i + 1)).getLsbD (b - 8) := by
  rw [half, BitVec.getLsbD_append]

theorem eq_of_half_eq {mem' : Mem} (h : half mem (a / 2) = half mem' (a / 2)) : mem a = mem' a := by
  apply BitVec.eq_of_getLsbD_eq
  intro b hb
  obtain ⟨k, rfl | rfl⟩ : ∃ k, a = 2 * k ∨ a = 2 * k + 1 := ⟨a / 2, by omega⟩
  · have hbit := congrArg (BitVec.getLsbD · b) h
    simpa [half_getLsbD, hb] using hbit
  · have hbit := congrArg (BitVec.getLsbD · (b + 8)) h
    have hge : ¬ b + 8 < 8 := by omega
    have hdiv : (2 * k + 1) / 2 = k := by omega
    simpa only [half_getLsbD, hge, hdiv, if_false, Nat.add_sub_cancel] using hbit

end Mem

end Clocked
