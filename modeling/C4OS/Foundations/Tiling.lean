import Mathlib.Data.List.Basic
import Mathlib.Data.List.Chain
import Mathlib.Data.Nat.Notation

/-!
# Tilings of an interval

A list of blocks laid end to end: each block of `L` has a start and a positive size, the first
block starts at `o`, each further block where the one before it ends, and the last block ends at
`e` (`Tiles`). Blocks of a tiling lie inside the interval (`Tiles.bounds`) and do not overlap
(`Tiles.pairwise`). A tiling is split and joined with `tiles_append` and `tiles_cons`.

When no two neighbours have a property, the blocks with the property are the maximal runs of the
points that they cover (`Tiles.maxRun_iff`), and a run of such points is within one of them
(`Tiles.exists_of_run`).
-/

namespace C4OS.Foundations

variable {β : Type*} {start size : β → ℕ}

/-- The blocks of a list tile the interval from `o` to `e`. -/
def Tiles (start size : β → ℕ) : ℕ → List β → ℕ → Prop
  | o, [], e => o = e
  | o, b :: L, e => start b = o ∧ 0 < size b ∧ Tiles start size (o + size b) L e

@[simp] theorem tiles_nil {o e : ℕ} : Tiles start size o [] e ↔ o = e := Iff.rfl

@[simp] theorem tiles_cons {b : β} {L : List β} {o e : ℕ} :
    Tiles start size o (b :: L) e ↔
      start b = o ∧ 0 < size b ∧ Tiles start size (o + size b) L e := Iff.rfl

instance decidableTiles (start size : β → ℕ) : ∀ (o : ℕ) (L : List β) (e : ℕ),
    Decidable (Tiles start size o L e)
  | o, [], e => inferInstanceAs (Decidable (o = e))
  | o, b :: L, e =>
    have := decidableTiles start size (o + size b) L e
    inferInstanceAs (Decidable (start b = o ∧ 0 < size b ∧ Tiles start size (o + size b) L e))

theorem tiles_append {L M : List β} {o e : ℕ} :
    Tiles start size o (L ++ M) e ↔
      ∃ k, Tiles start size o L k ∧ Tiles start size k M e := by
  induction L generalizing o with
  | nil => simp
  | cons b L ih => simp [ih, and_assoc]

namespace Tiles

variable {L : List β} {o e : ℕ}

theorem le (h : Tiles start size o L e) : o ≤ e := by
  induction L generalizing o with
  | nil => exact Nat.le_of_eq h
  | cons b L ih =>
    have := ih h.2.2
    omega

/-- Blocks with different starts tile an interval in one way. -/
theorem unique {M : List β} (h : Tiles start size o L e) (h' : Tiles start size o M e)
    (hinj : Function.Injective start) : L = M := by
  induction L generalizing o M with
  | nil =>
    obtain rfl : o = e := h
    cases M with
    | nil => rfl
    | cons b M =>
      have := h'.2.2.le
      have := h'.2.1
      omega
  | cons b L ih =>
    cases M with
    | nil =>
      obtain rfl : o = e := h'
      have := h.2.2.le
      have := h.2.1
      omega
    | cons c M =>
      obtain rfl : b = c := hinj (h.1.trans h'.1.symm)
      rw [ih h.2.2 h'.2.2]

/-- A block of a tiling is inside the interval. -/
theorem bounds (h : Tiles start size o L e) {b : β} (hb : b ∈ L) :
    o ≤ start b ∧ start b + size b ≤ e ∧ 0 < size b := by
  obtain ⟨xs, ys, rfl⟩ := List.append_of_mem hb
  obtain ⟨k, hx, hs, hpos, hy⟩ := tiles_append.1 h
  have h₁ := hx.le
  have h₂ := hy.le
  omega

/-- The blocks of a tiling do not overlap. -/
theorem pairwise (h : Tiles start size o L e) :
    L.Pairwise fun a b => start a + size a ≤ start b := by
  induction L generalizing o with
  | nil => exact List.Pairwise.nil
  | cons b L ih =>
    obtain ⟨hs, -, hL⟩ := h
    refine List.pairwise_cons.2 ⟨fun c hc => ?_, ih hL⟩
    have := (hL.bounds hc).1
    omega

theorem disjoint (h : Tiles start size o L e) {a b : β} (ha : a ∈ L) (hb : b ∈ L) (hne : a ≠ b) :
    start a + size a ≤ start b ∨ start b + size b ≤ start a := by
  let R := fun a b => a ≠ b → start a + size a ≤ start b ∨ start b + size b ≤ start a
  have h₁ : L.Pairwise R := h.pairwise.imp fun hab _ => .inl hab
  have h₂ : L.Pairwise (flip R) := h.pairwise.imp fun hab _ => .inr hab
  exact List.Pairwise.forall_of_forall_of_flip (fun _ _ hne => absurd rfl hne) h₁ h₂ ha hb hne

theorem nodup (h : Tiles start size o L e) : L.Nodup := by
  rw [List.nodup_iff_pairwise_ne]
  refine List.Pairwise.imp_of_mem (fun ha _ hab he => ?_) h.pairwise
  have := (h.bounds ha).2.2
  rw [he] at hab this
  omega

/-- Blocks whose sizes are multiples of a distance start on a grid. -/
theorem mod_eq {d : ℕ} (h : Tiles start size o L e) (hsize : ∀ b ∈ L, d ∣ size b) {b : β}
    (hb : b ∈ L) : start b % d = o % d := by
  induction L generalizing o with
  | nil => cases hb
  | cons c L ih =>
    obtain ⟨hs, -, hL⟩ := h
    rcases List.mem_cons.1 hb with rfl | hb
    · rw [hs]
    · obtain ⟨k, hk⟩ := hsize c List.mem_cons_self
      rw [ih hL (fun b hb => hsize b (List.mem_cons_of_mem c hb)) hb, hk, Nat.add_mul_mod_self_left]

/-- Blocks with the same starts and sizes tile the same interval. -/
theorem congr {γ : Type*} {start' size' : γ → ℕ} {L' : List γ} (h : Tiles start size o L e)
    (hL : L.map (fun b => (start b, size b)) = L'.map fun b => (start' b, size' b)) :
    Tiles start' size' o L' e := by
  induction L generalizing o L' with
  | nil =>
    obtain rfl : L' = [] := List.map_eq_nil_iff.1 hL.symm
    exact h
  | cons b L ih =>
    cases L' with
    | nil => simp at hL
    | cons c L' =>
      simp only [List.map_cons, List.cons.injEq, Prod.mk.injEq] at hL
      obtain ⟨⟨hs, hz⟩, hL⟩ := hL
      obtain ⟨h₁, h₂, h₃⟩ := h
      exact ⟨hs ▸ h₁, hz ▸ h₂, ih (hz ▸ h₃) hL⟩

variable {size' : β → ℕ} {xs ys : List β} {a t : β}

theorem congr_size (h : Tiles start size o L e) (hsize : ∀ b ∈ L, size' b = size b) :
    Tiles start size' o L e :=
  h.congr (List.map_congr_left fun b hb => by rw [hsize b hb])

/-- A block is cut in two. -/
theorem split (h : Tiles start size o (xs ++ a :: ys) e) (ht : start t = start a + size' a)
    (hsum : size' a + size' t = size a) (ha : 0 < size' a) (hpos : 0 < size' t)
    (hsize : ∀ b ∈ xs ++ ys, size' b = size b) :
    Tiles start size' o (xs ++ a :: t :: ys) e := by
  obtain ⟨k, h₁, h₂, -, h₃⟩ := tiles_append.1 h
  rw [← hsum, ← Nat.add_assoc] at h₃
  refine tiles_append.2 ⟨k, h₁.congr_size fun b hb => ?_, h₂, ha, ?_, hpos,
    h₃.congr_size fun b hb => ?_⟩
  · exact hsize b (List.mem_append_left _ hb)
  · rw [ht, h₂]
  · exact hsize b (List.mem_append_right _ hb)

/-- Two blocks become one. -/
theorem join (h : Tiles start size o (xs ++ a :: t :: ys) e) (hsum : size' a = size a + size t)
    (hsize : ∀ b ∈ xs ++ ys, size' b = size b) : Tiles start size' o (xs ++ a :: ys) e := by
  obtain ⟨k, h₁, h₂, ha, h₃, -, h₄⟩ := tiles_append.1 h
  rw [Nat.add_assoc, ← hsum] at h₄
  refine tiles_append.2 ⟨k, h₁.congr_size fun b hb => ?_, h₂, by omega,
    h₄.congr_size fun b hb => ?_⟩
  · exact hsize b (List.mem_append_left _ hb)
  · exact hsize b (List.mem_append_right _ hb)

/-- Each point of the interval is in a block. -/
theorem exists_mem (h : Tiles start size o L e) {i : ℕ} (hi : o ≤ i) (hie : i < e) :
    ∃ b ∈ L, start b ≤ i ∧ i < start b + size b := by
  induction L generalizing o with
  | nil =>
    have : o = e := h
    omega
  | cons b L ih =>
    obtain ⟨hs, -, hL⟩ := h
    by_cases hlt : i < o + size b
    · exact ⟨b, List.mem_cons_self, by omega, by omega⟩
    · obtain ⟨c, hc, hcov⟩ := ih hL (by omega)
      exact ⟨c, List.mem_cons_of_mem b hc, hcov⟩

/-- Two blocks that have a point in common are the same. -/
theorem eq_of_cover (h : Tiles start size o L e) {a b : β} (ha : a ∈ L) (hb : b ∈ L) {i : ℕ}
    (hai : start a ≤ i ∧ i < start a + size a) (hbi : start b ≤ i ∧ i < start b + size b) :
    a = b := by
  by_contra hne
  rcases h.disjoint ha hb hne with hd | hd <;> omega

/-- A block that starts where another one ends is the next one. -/
theorem rel_of_adjacent {R : β → β → Prop} (h : Tiles start size o L e) (hR : L.IsChain R)
    {a b : β} (ha : a ∈ L) (hb : b ∈ L) (hab : start a + size a = start b) : R a b := by
  obtain ⟨xs, ys, rfl⟩ := List.append_of_mem ha
  obtain ⟨k, -, hs, -, hy⟩ := tiles_append.1 h
  cases ys with
  | nil =>
    have hbd := h.bounds hb
    have : k + size a = e := hy
    omega
  | cons c ys =>
    have hc : c = b := by
      have hpos := hy.2.1
      have hcs := hy.1
      have hbd := h.bounds hb
      exact h.eq_of_cover (by simp) hb ⟨Nat.le_refl _, by omega⟩ (by omega)
    rw [← hc]
    exact (List.isChain_cons_cons.mp hR.right_of_append).1

end Tiles

/-! ## Runs of points -/

/-- The point is in a block with the property. -/
def Covered (start size : β → ℕ) (L : List β) (P : β → Prop) (i : ℕ) : Prop :=
  ∃ b ∈ L, P b ∧ start b ≤ i ∧ i < start b + size b

/-- The `n` points from `o` on have the property, and the points before and after them have not. -/
def MaxRun (P : ℕ → Prop) (o n : ℕ) : Prop :=
  0 < n ∧ (∀ i, o ≤ i → i < o + n → P i) ∧ ¬P (o + n) ∧ ∀ i, i + 1 = o → ¬P i

namespace Tiles

variable {L : List β} {e o n : ℕ} {P : β → Prop}

/-- A run of covered points is within one block. -/
theorem exists_of_run (h : Tiles start size 0 L e) (hmerged : L.IsChain fun a b => ¬(P a ∧ P b))
    (hn : 0 < n) (hrun : ∀ i, o ≤ i → i < o + n → Covered start size L P i) :
    ∃ b ∈ L, P b ∧ start b ≤ o ∧ o + n ≤ start b + size b := by
  obtain ⟨b, hb, hPb, hbo, hob⟩ := hrun o (Nat.le_refl o) (by omega)
  refine ⟨b, hb, hPb, hbo, ?_⟩
  by_contra hend
  -- the point behind the block would be in a neighbour with the property
  obtain ⟨c, hc, hPc, hcs, hce⟩ := hrun (start b + size b) (by omega) (by omega)
  have hadj : start b + size b = start c := by
    by_contra hne
    have hsame : c = b := h.eq_of_cover hc hb ⟨by omega, by omega⟩
      (show start b ≤ start b + size b - 1 ∧ start b + size b - 1 < start b + size b by
        have := (h.bounds hb).2.2
        omega)
    rw [hsame] at hce
    omega
  exact h.rel_of_adjacent hmerged hb hc hadj ⟨hPb, hPc⟩

/-- The blocks with the property are the maximal runs. -/
theorem maxRun_iff (h : Tiles start size 0 L e) (hmerged : L.IsChain fun a b => ¬(P a ∧ P b)) :
    MaxRun (Covered start size L P) o n ↔ ∃ b ∈ L, P b ∧ start b = o ∧ size b = n := by
  constructor
  · rintro ⟨hn, hrun, hafter, hbefore⟩
    obtain ⟨b, hb, hPb, hbo, hob⟩ := h.exists_of_run hmerged hn hrun
    have hstart : start b = o := by
      by_contra hne
      have hcov : start b ≤ o - 1 ∧ o - 1 < start b + size b := by omega
      exact hbefore (o - 1) (by omega) ⟨b, hb, hPb, hcov⟩
    refine ⟨b, hb, hPb, hstart, ?_⟩
    by_contra hne
    have hcov : start b ≤ o + n ∧ o + n < start b + size b := by omega
    exact hafter ⟨b, hb, hPb, hcov⟩
  · rintro ⟨b, hb, hPb, rfl, rfl⟩
    have hbd := h.bounds hb
    refine ⟨hbd.2.2, fun i hi hie => ⟨b, hb, hPb, hi, hie⟩, ?_, ?_⟩
    · rintro ⟨c, hc, hPc, hcs, hce⟩
      have hadj : start b + size b = start c := by
        by_contra hne
        have hsame : c = b := h.eq_of_cover hc hb ⟨by omega, by omega⟩
          (show start b ≤ start b + size b - 1 ∧ start b + size b - 1 < start b + size b by omega)
        rw [hsame] at hce
        omega
      exact h.rel_of_adjacent hmerged hb hc hadj ⟨hPb, hPc⟩
    · rintro i hi ⟨c, hc, hPc, hcs, hce⟩
      have hadj : start c + size c = start b := by
        by_contra hne
        have hsame : c = b := h.eq_of_cover hc hb ⟨by omega, by omega⟩
          (show start b ≤ start b ∧ start b < start b + size b by omega)
        rw [hsame] at hcs
        omega
      exact h.rel_of_adjacent hmerged hc hb hadj ⟨hPc, hPb⟩

end Tiles

end C4OS.Foundations
