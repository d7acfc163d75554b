import EmbeddedAccelerator.ScatterB

namespace EmbeddedAccelerator.ScatterB

/-- The counters that say which block of `B` is fetched, and whether the last block has been. -/
structure Cursor where
  row : ℕ
  col : ℕ
  final : Bool
  deriving DecidableEq, Repr

def Cursor.advance (P : Params) (b : Cursor) : Cursor :=
  if b.row = rowCount P - 1 then
    if b.col = colCount P - 1 then ⟨0, 0, true⟩
    else ⟨0, (b.col + 1) % 2 ^ (P.dataBSizeX / N), b.final⟩
  else ⟨(b.row + 1) % 2 ^ (P.dataBSizeX / N), b.col, b.final⟩

def quiet (final : Bool) : Main := ⟨.idle, 0, 0, 0, 0, final, true, false, false⟩

def preparingAt (b : Cursor) (k : ℕ) (first done : Bool) : Main :=
  ⟨.preparing, b.row, b.col, k, 0, b.final, first, done, done⟩

def waitingAt (b : Cursor) (first : Bool) : Main :=
  ⟨.waiting, b.row, b.col, 0, 0, b.final, first, false, false⟩

def loadingAt (b : Cursor) (l : ℕ) : Main :=
  ⟨.loading, b.row, b.col, 0, l, b.final, false, true, false⟩

def finishingAt (b : Cursor) : Main :=
  ⟨.idle, b.row, b.col, 0, 0, false, false, true, true⟩

section Process

variable (P : Params) (load : Bool) (b : Cursor)

theorem main_quiet (final : Bool) :
    mainProcess P false load (quiet final) =
      if load then preparingAt ⟨0, 0, final⟩ 0 true false else quiet final := by
  cases load <;> rfl

theorem main_preparing {k : ℕ} (hk : k ≤ N) (first done : Bool) :
    mainProcess P false load (preparingAt b k first done) = preparingAt b (k + 1) first false := by
  have hne : k ≠ N + 1 := by omega
  have hmod : (k + 1) % 2 ^ N = k + 1 := by simp only [N] at *; omega
  simp only [mainProcess, preparingAt, Bool.false_eq_true, ↓reduceIte, hne, hmod]

theorem main_prepared (first done : Bool) :
    mainProcess P false load (preparingAt b (N + 1) first done) = waitingAt (b.advance P) first := by
  simp only [mainProcess, preparingAt, waitingAt, Cursor.advance, Bool.false_eq_true, ↓reduceIte]
  by_cases hr : b.row = rowCount P - 1 <;> by_cases hc : b.col = colCount P - 1 <;> simp [hr, hc]

theorem main_waiting (first : Bool) :
    mainProcess P false load (waitingAt b first) =
      if load || first then loadingAt b 0 else waitingAt b first := by
  cases load <;> cases first <;> rfl

theorem main_loading {l : ℕ} (hl : l + 1 < N) :
    mainProcess P false load (loadingAt b l) = loadingAt b (l + 1) := by
  have hne : l ≠ N - 1 := by omega
  have hmod : (l + 1) % 2 ^ N = l + 1 := by simp only [N] at *; omega
  simp only [mainProcess, loadingAt, Bool.false_eq_true, ↓reduceIte, hne, hmod]

theorem main_loaded :
    mainProcess P false load (loadingAt b (N - 1)) =
      if b.final then finishingAt b else preparingAt b 0 false true := by
  cases h : b.final <;> simp [mainProcess, loadingAt, preparingAt, finishingAt, h]

theorem main_finishing : mainProcess P false false (finishingAt b) = quiet false := rfl

end Process

/-- The registers `t` cycles after a load pulse that met `WAITING`: the load, the prefetch of the
next block, and `WAITING` again until the next pulse. -/
def loadAt (P : Params) (b : Cursor) (t : ℕ) : Main :=
  if t = 0 then waitingAt b false
  else if t ≤ N then loadingAt b (t - 1)
  else if b.final then if t = N + 1 then finishingAt b else quiet false
  else if t ≤ 2 * N + 2 then preparingAt b (t - (N + 1)) false (t = N + 1)
  else waitingAt (b.advance P) false

section Phases

variable (P : Params) {b : Cursor}

theorem loadAt_loading {l : ℕ} (hl : l < N) : loadAt P b (l + 1) = loadingAt b l := by
  simp (disch := omega) only [loadAt, if_pos, if_neg, Nat.add_sub_cancel]

theorem loadAt_finishing (hf : b.final = true) : loadAt P b (N + 1) = finishingAt b := by
  simp (disch := omega) only [loadAt, if_neg, hf, ↓reduceIte]

theorem loadAt_quiet (hf : b.final = true) {t : ℕ} (ht : N + 1 < t) : loadAt P b t = quiet false := by
  simp (disch := omega) only [loadAt, if_neg, hf, ↓reduceIte]

theorem loadAt_preparing (hf : b.final = false) {k : ℕ} (hk : k ≤ N + 1) :
    loadAt P b (N + 1 + k) = preparingAt b k false (k = 0) := by
  simp (disch := omega) only [loadAt, if_pos, if_neg, hf, Bool.false_eq_true, ↓reduceIte]
  simp

theorem loadAt_waiting (hf : b.final = false) {t : ℕ} (ht : 2 * N + 2 < t) :
    loadAt P b t = waitingAt (b.advance P) false := by
  simp (disch := omega) only [loadAt, if_neg, hf, Bool.false_eq_true, ↓reduceIte]

end Phases

theorem phase_cases (b : Cursor) (t : ℕ) :
    t = 0 ∨ (∃ l < N, t = l + 1) ∨
      (b.final = false ∧ ∃ k ≤ N + 1, t = N + 1 + k) ∨ (b.final = false ∧ 2 * N + 2 < t) ∨
      (b.final = true ∧ t = N + 1) ∨ (b.final = true ∧ N + 1 < t) := by
  by_cases h0 : t = 0
  · exact .inl h0
  by_cases hN : t ≤ N
  · exact .inr (.inl ⟨t - 1, by omega, by omega⟩)
  right; right
  cases b.final
  · by_cases ht : 2 * N + 2 < t
    · exact .inr (.inl ⟨rfl, ht⟩)
    · exact .inl ⟨rfl, t - (N + 1), by omega, by omega⟩
  · by_cases ht : t = N + 1
    · exact .inr (.inr (.inl ⟨rfl, ht⟩))
    · exact .inr (.inr (.inr ⟨rfl, by omega⟩))

theorem loadAt_step (P : Params) (b : Cursor) (t : ℕ) :
    mainProcess P false (t = 0) (loadAt P b t) = loadAt P b (t + 1) := by
  rcases phase_cases b t with
    rfl | ⟨l, hl, rfl⟩ | ⟨hf, k, hk, rfl⟩ | ⟨hf, ht⟩ | ⟨hf, rfl⟩ | ⟨hf, ht⟩
  · rfl
  · rw [loadAt_loading P hl]
    obtain rfl | hl : l = N - 1 ∨ l + 1 < N := by omega
    · rw [main_loaded]
      cases hf : b.final
      · exact (loadAt_preparing P hf (Nat.zero_le _)).symm
      · exact (loadAt_finishing P hf).symm
    · rw [loadAt_loading P hl, main_loading P _ b hl]
  · obtain rfl | hk : k = N + 1 ∨ k ≤ N := by omega
    · rw [loadAt_preparing P hf le_rfl, main_prepared, loadAt_waiting P hf (by omega)]
    · rw [loadAt_preparing P hf (by omega), main_preparing P _ b hk, Nat.add_assoc (N + 1) k 1,
        loadAt_preparing P hf (by omega), decide_eq_false (by omega : ¬ k + 1 = 0)]
  · rw [loadAt_waiting P hf ht, loadAt_waiting P hf (by omega), main_waiting, decide_eq_false (by omega)]
    rfl
  · rw [loadAt_finishing P hf, loadAt_quiet P hf (by omega), decide_eq_false (by omega), main_finishing]
  · rw [loadAt_quiet P hf ht, loadAt_quiet P hf (by omega), decide_eq_false (by omega), main_quiet]
    rfl

theorem state_loadAt (P : Params) (b : Cursor) (t : ℕ) :
    (loadAt P b t).state =
      if t = 0 then .waiting
      else if t ≤ N then .loading
      else if b.final then .idle
      else if t ≤ 2 * N + 2 then .preparing else .waiting := by
  rw [loadAt]
  split_ifs <;> rfl

theorem loadAt_preparing_cases {P : Params} {b : Cursor} {t : ℕ} (h : (loadAt P b t).state = .preparing) :
    b.final = false ∧ ∃ k ≤ N + 1, t = N + 1 + k := by
  rw [state_loadAt] at h
  split_ifs at h with h0 hN hf ht
  exact ⟨Bool.eq_false_iff.mpr hf, t - (N + 1), by omega, by omega⟩

theorem loadAt_waiting_cases {P : Params} {b : Cursor} {t : ℕ} (h : (loadAt P b t).state = .waiting) :
    t = 0 ∨ (b.final = false ∧ 2 * N + 2 < t) := by
  rw [state_loadAt] at h
  split_ifs at h with h0 hN hf ht
  · exact .inl h0
  · exact .inr ⟨Bool.eq_false_iff.mpr hf, by omega⟩

theorem loadAt_loading_iff (P : Params) (b : Cursor) (t : ℕ) :
    (loadAt P b t).state = .loading ↔ 0 < t ∧ t ≤ N := by
  rw [state_loadAt]
  split_ifs with h0 hN hf ht
  · exact iff_of_false nofun (by omega)
  · exact iff_of_true rfl ⟨by omega, hN⟩
  · exact iff_of_false nofun (by omega)
  · exact iff_of_false nofun (by omega)
  · exact iff_of_false nofun (by omega)

theorem stationaryCtrl_loadAt (P : Params) (b : Cursor) (t : ℕ) :
    (loadAt P b t).stationaryCtrl = decide (0 < t ∧ t ≤ N + 1) := by
  have hN : N = 16 := rfl
  rcases phase_cases b t with
    rfl | ⟨l, hl, rfl⟩ | ⟨hf, k, hk, rfl⟩ | ⟨hf, ht⟩ | ⟨hf, rfl⟩ | ⟨hf, ht⟩
  · rfl
  · rw [loadAt_loading P hl, decide_eq_true (by omega)]
    rfl
  · rw [loadAt_preparing P hf hk]
    exact decide_eq_decide.mpr (by omega)
  · rw [loadAt_waiting P hf ht, decide_eq_false (by omega)]
    rfl
  · rw [loadAt_finishing P hf]
    rfl
  · rw [loadAt_quiet P hf ht, decide_eq_false (by omega)]
    rfl

theorem loadDone_loadAt (P : Params) (b : Cursor) (t : ℕ) :
    (loadAt P b t).loadDone = decide (t = N + 1) := by
  rcases phase_cases b t with
    rfl | ⟨l, hl, rfl⟩ | ⟨hf, k, hk, rfl⟩ | ⟨hf, ht⟩ | ⟨hf, rfl⟩ | ⟨hf, ht⟩
  · rfl
  · rw [loadAt_loading P hl, decide_eq_false (by omega)]
    rfl
  · rw [loadAt_preparing P hf hk]
    simp [preparingAt]
  · rw [loadAt_waiting P hf ht, decide_eq_false (by omega)]
    rfl
  · rw [loadAt_finishing P hf]
    rfl
  · rw [loadAt_quiet P hf ht, decide_eq_false (by omega)]
    rfl

/-- What a load pulse can meet: `IDLE`, where the block is still to be fetched, or `WAITING` with
the block already in `buffer_B`. -/
inductive Load where
  | cold (final : Bool)
  | warm (fetched : Cursor)
  deriving DecidableEq, Repr

namespace Load

def block : Load → Cursor
  | cold final => ⟨0, 0, final⟩
  | warm b => b

/-- Cycles from the pulse to the last `WAITING` before the load. -/
def lead : Load → ℕ
  | cold _ => N + 3
  | warm _ => 0

def ready (P : Params) : Load → Main
  | cold final => quiet final
  | warm b => waitingAt (b.advance P) false

def next (P : Params) (u : Load) : Load :=
  if (u.block.advance P).final then cold false else warm (u.block.advance P)

def state (P : Params) : Load → ℕ → Main
  | cold final, t =>
    if t = 0 then quiet final
    else if t ≤ N + 2 then preparingAt ⟨0, 0, final⟩ (t - 1) true false
    else if t = N + 3 then waitingAt (Cursor.advance P ⟨0, 0, final⟩) true
    else loadAt P (Cursor.advance P ⟨0, 0, final⟩) (t - (N + 3))
  | warm b, t => loadAt P (b.advance P) t

variable (P : Params)

@[simp] theorem state_zero (u : Load) : u.state P 0 = u.ready P := by cases u <;> rfl

theorem state_fetching (final : Bool) {k : ℕ} (hk : k ≤ N + 1) :
    (cold final).state P (k + 1) = preparingAt ⟨0, 0, final⟩ k true false := by
  simp (disch := omega) only [state, if_pos, if_neg, Nat.add_sub_cancel]

theorem state_fetched (final : Bool) :
    (cold final).state P (N + 3) = waitingAt (Cursor.advance P ⟨0, 0, final⟩) true := by
  simp (disch := omega) only [state, if_neg, ↓reduceIte]

theorem state_waiting (u : Load) :
    ∃ first, u.state P u.lead = waitingAt (u.block.advance P) first := by
  cases u with
  | cold final => exact ⟨true, state_fetched P final⟩
  | warm b => exact ⟨false, rfl⟩

theorem state_lead (u : Load) {t : ℕ} (ht : 0 < t) :
    u.state P (u.lead + t) = loadAt P (u.block.advance P) t := by
  cases u with
  | cold final => simp (disch := omega) only [state, lead, block, if_neg, Nat.add_sub_cancel_left]
  | warm b => rw [lead, Nat.zero_add]; rfl

theorem fetch_cases (t : ℕ) :
    t = 0 ∨ (∃ k ≤ N + 1, t = k + 1) ∨ t = N + 3 ∨ ∃ k, t = N + 3 + (k + 1) := by
  by_cases h1 : t ≤ N + 3
  · by_cases h0 : t = 0 ∨ t = N + 3
    · omega
    · exact .inr (.inl ⟨t - 1, by omega, by omega⟩)
  · exact .inr (.inr (.inr ⟨t - (N + 3) - 1, by omega⟩))

theorem state_step (u : Load) (t : ℕ) :
    mainProcess P false (t = 0) (u.state P t) = u.state P (t + 1) := by
  cases u with
  | warm b => exact loadAt_step P (b.advance P) t
  | cold final =>
    rcases fetch_cases t with rfl | ⟨k, hk, rfl⟩ | rfl | ⟨k, rfl⟩
    · rfl
    · have hf : decide (k + 1 = 0) = false := decide_eq_false (by omega)
      rw [state_fetching P final hk, hf]
      obtain rfl | hk : k = N + 1 ∨ k ≤ N := by omega
      · rw [main_prepared, state_fetched]
      · rw [main_preparing P _ _ hk, state_fetching P final (by omega)]
    · rw [state_fetched, main_waiting]
      exact (state_lead P (cold final) Nat.one_pos).symm
    · have hl := loadAt_step P (Cursor.advance P ⟨0, 0, final⟩) (k + 1)
      have h1 : (cold final).state P (N + 3 + (k + 1)) = _ := state_lead P (cold final) k.succ_pos
      have h2 : (cold final).state P (N + 3 + (k + 1) + 1) = _ :=
        state_lead P (cold final) (k + 1).succ_pos
      rw [decide_eq_false k.succ_ne_zero] at hl
      rw [h1, h2, decide_eq_false (by omega)]
      exact hl

theorem loadDone_state (u : Load) (t : ℕ) :
    (u.state P t).loadDone = decide (t = u.lead + (N + 1)) := by
  cases u with
  | warm b =>
    rw [lead, Nat.zero_add]
    exact loadDone_loadAt P _ t
  | cold final =>
    have hlead : (cold final).lead = N + 3 := rfl
    rcases fetch_cases t with rfl | ⟨k, hk, rfl⟩ | rfl | ⟨k, rfl⟩
    · rfl
    · rw [state_fetching P final hk, decide_eq_false (by omega)]
      rfl
    · rw [state_fetched, decide_eq_false (by omega)]
      rfl
    · have h1 : (cold final).state P (N + 3 + (k + 1)) = _ := state_lead P (cold final) k.succ_pos
      rw [h1, loadDone_loadAt, hlead]
      exact decide_eq_decide.mpr (Nat.add_left_cancel_iff (n := N + 3)).symm

theorem ctrl_fetching (final : Bool) {t : ℕ} (ht : t ≤ N + 3) :
    ((cold final).state P t).stationaryCtrl = false ∧ ((cold final).state P t).loadDone = false := by
  rcases fetch_cases t with rfl | ⟨k, hk, rfl⟩ | rfl | ⟨k, rfl⟩
  · exact ⟨rfl, rfl⟩
  · rw [state_fetching P final hk]
    exact ⟨rfl, rfl⟩
  · rw [state_fetched]
    exact ⟨rfl, rfl⟩
  · omega

variable {P} in
theorem preparing_cases {u : Load} {t : ℕ} (h : (u.state P t).state = .preparing) :
    (∃ final k, u = cold final ∧ k ≤ N + 1 ∧ t = k + 1) ∨
      ∃ k ≤ N + 1, t = u.lead + (N + 1 + k) ∧ (u.block.advance P).final = false := by
  cases u with
  | warm b =>
    obtain ⟨hf, k, hk, rfl⟩ := loadAt_preparing_cases h
    exact .inr ⟨k, hk, by rw [lead, Nat.zero_add], hf⟩
  | cold final =>
    rcases fetch_cases t with rfl | ⟨k, hk, rfl⟩ | rfl | ⟨k, rfl⟩
    · cases h
    · exact .inl ⟨final, k, rfl, hk, rfl⟩
    · rw [state_fetched] at h
      cases h
    · have hl : (cold final).state P (N + 3 + (k + 1)) = _ := state_lead P (cold final) k.succ_pos
      rw [hl] at h
      obtain ⟨hf, j, hj, hk⟩ := loadAt_preparing_cases h
      exact .inr ⟨j, hj, by rw [hk]; rfl, hf⟩

theorem state_ready (u : Load) {t : ℕ} (ht : u.lead + (2 * N + 2) < t) :
    u.state P t = (u.next P).ready P := by
  obtain ⟨k, rfl⟩ : ∃ k, t = u.lead + k := ⟨t - u.lead, by omega⟩
  rw [state_lead P u (by omega), next]
  cases hf : (u.block.advance P).final
  · rw [loadAt_waiting P hf (by omega)]
    rfl
  · rw [loadAt_quiet P hf (by omega)]
    rfl

end Load

end EmbeddedAccelerator.ScatterB
