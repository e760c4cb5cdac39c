import Mathlib.Algebra.Order.Ring.Int
import Mathlib.Data.Set.Basic

/-!
# Counted loops over cells

A loop that counts up from zero is `loop n f s`, and `loop_induction` is the rule for it: an
invariant that holds for the start value and is kept by every turn holds at the end. The loops over
a memory of cells, a function from positions to values, copy a stretch of cells to one before it
(`copyCells_apply`) or change every cell of a stretch (`mapCells_apply`).

Where a state relates to a later one by the places that were changed, a loop relates them by the
places that one of its turns changes (`loop_union`, and `forRange_union` for a loop between two
bounds).
-/

namespace C4OS.Foundations

/-- The turns `0, …, n - 1` of a loop. -/
def loop {σ : Type*} : ℕ → (ℕ → σ → σ) → σ → σ
  | 0, _, s => s
  | n + 1, f, s => f n (loop n f s)

section

variable {σ : Type*} {f : ℕ → σ → σ} {s : σ}

/-- The rule for a loop. -/
theorem loop_induction {n : ℕ} (P : ℕ → σ → Prop) (h₀ : P 0 s)
    (hstep : ∀ i < n, ∀ s, P i s → P (i + 1) (f i s)) : P n (loop n f s) := by
  induction n with
  | zero => exact h₀
  | succ n ih =>
    apply hstep n (Nat.lt_succ_self n)
    exact ih fun i hi => hstep i (Nat.lt_succ_of_lt hi)

/-- What no turn changes, the loop does not change. -/
theorem loop_fixes {τ : Type*} {g : σ → τ} {n : ℕ} (h : ∀ i s, g (f i s) = g s) :
    g (loop n f s) = g s := by
  apply loop_induction fun _ s' => g s' = g s
  · rfl
  · intro i _ s' hs
    rw [h, hs]

/-- The turns `lo, …, hi - 1` of a loop. -/
def forRange (lo hi : ℤ) (f : ℤ → σ → σ) (s : σ) : σ :=
  loop (hi - lo).toNat (fun i => f (lo + i)) s

variable {P : Type*} {R : Set P → σ → σ → Prop}

/-- The places that a loop changes are those that its turns change. -/
theorem loop_union (hempty : ∀ s, R ∅ s s)
    (hunion : ∀ {a b s s' s''}, R a s s' → R b s' s'' → R (a ∪ b) s s'') {n : ℕ} {c : ℕ → Set P}
    (hstep : ∀ i < n, ∀ a s', R a s s' → R (c i) s' (f i s')) :
    R {p | ∃ i < n, p ∈ c i} s (loop n f s) := by
  apply loop_induction fun n s' => R {p | ∃ i < n, p ∈ c i} s s'
  · have heq : {p | ∃ i < 0, p ∈ c i} = ∅ := by
      ext p
      simp
    rw [heq]
    exact hempty s
  · intro i hi s' hs
    have heq : {p | ∃ j < i + 1, p ∈ c j} = {p | ∃ j < i, p ∈ c j} ∪ c i := by
      ext p
      constructor
      · rintro ⟨j, hj, hp⟩
        rcases Nat.lt_succ_iff_lt_or_eq.mp hj with hj | rfl
        · exact .inl ⟨j, hj, hp⟩
        · exact .inr hp
      · rintro (⟨j, hj, hp⟩ | hp)
        · exact ⟨j, Nat.lt_succ_of_lt hj, hp⟩
        · exact ⟨i, Nat.lt_succ_self i, hp⟩
    rw [heq]
    exact hunion hs (hstep i hi _ s' hs)

theorem forRange_union (hempty : ∀ s, R ∅ s s)
    (hunion : ∀ {a b s s' s''}, R a s s' → R b s' s'' → R (a ∪ b) s s'') {lo hi : ℤ}
    {g : ℤ → σ → σ} {c : ℤ → Set P}
    (hstep : ∀ z, lo ≤ z → z < hi → ∀ a s', R a s s' → R (c z) s' (g z s')) :
    R {p | ∃ z, lo ≤ z ∧ z < hi ∧ p ∈ c z} s (forRange lo hi g s) := by
  have heq : {p | ∃ z, lo ≤ z ∧ z < hi ∧ p ∈ c z} =
      {p | ∃ i < (hi - lo).toNat, p ∈ c (lo + i)} := by
    ext p
    constructor
    · rintro ⟨z, hlo, hhi, hp⟩
      refine ⟨(z - lo).toNat, by omega, ?_⟩
      rwa [Int.toNat_of_nonneg (by omega), add_sub_cancel]
    · rintro ⟨i, hi', hp⟩
      exact ⟨lo + i, by omega, by omega, hp⟩
  rw [heq]
  apply loop_union hempty hunion
  intro i hi'
  exact hstep _ (by omega) (by omega)

end

section

variable {α : Type*} {m : ℕ → α} {dst src n c : ℕ}

/-- Copy `n` cells, from the first one on. -/
def copyCells (m : ℕ → α) (dst src n : ℕ) : ℕ → α :=
  loop n (fun k m => Function.update m (dst + k) (m (src + k))) m

/-- Change `n` cells. -/
def mapCells (g : α → α) (m : ℕ → α) (dst n : ℕ) : ℕ → α :=
  loop n (fun k m => Function.update m (dst + k) (g (m (dst + k)))) m

theorem copyCells_succ : copyCells m dst src (n + 1) =
    Function.update (copyCells m dst src n) (dst + n) (copyCells m dst src n (src + n)) := rfl

/-- Cells are copied to a place before them, even where the stretches overlap. -/
theorem copyCells_apply (hle : dst ≤ src) :
    copyCells m dst src n c = if dst ≤ c ∧ c < dst + n then m (src + (c - dst)) else m c := by
  induction n generalizing c with
  | zero =>
    rw [if_neg (by omega)]
    rfl
  | succ n ih =>
    rw [copyCells_succ]
    by_cases hc : c = dst + n
    · -- the source of this turn is not written yet
      rw [hc, Function.update_self, ih, if_neg (by omega), if_pos (by omega),
        Nat.add_sub_cancel_left]
    · rw [Function.update_of_ne hc, ih]
      exact if_congr (by omega) rfl rfl

theorem mapCells_apply (g : α → α) :
    mapCells g m dst n c = if dst ≤ c ∧ c < dst + n then g (m c) else m c := by
  induction n generalizing c with
  | zero =>
    rw [if_neg (by omega)]
    rfl
  | succ n ih =>
    show Function.update (mapCells g m dst n) (dst + n) (g (mapCells g m dst n (dst + n))) c = _
    by_cases hc : c = dst + n
    · rw [hc, Function.update_self, ih, if_neg (by omega), if_pos (by omega)]
    · rw [Function.update_of_ne hc, ih]
      exact if_congr (by omega) rfl rfl

/-- A cell of a row lies before the row `n` exactly when its row does. -/
theorem cell_lt_iff {w p n x : ℕ} (hx : x < w) : p * w + x < n * w ↔ p < n := by
  constructor
  · intro h
    by_contra hge
    have := Nat.mul_le_mul_right w (Nat.le_of_not_lt hge)
    omega
  · intro h
    have := Nat.mul_le_mul_right w (Nat.succ_le_of_lt h)
    rw [Nat.succ_mul] at this
    omega

/-- A cell has one row and one column. -/
theorem cell_eq_iff {w p q x y : ℕ} (hx : x < w) (hy : y < w) :
    p * w + x = q * w + y ↔ p = q ∧ x = y := by
  constructor
  · intro h
    have hpq := cell_lt_iff (p := p) (n := q) hx
    have hqp := cell_lt_iff (p := q) (n := p) hy
    obtain rfl : p = q := by omega
    exact ⟨rfl, by omega⟩
  · rintro ⟨rfl, rfl⟩
    rfl

end

end C4OS.Foundations
