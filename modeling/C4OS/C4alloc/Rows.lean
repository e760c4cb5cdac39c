import C4OS.C4alloc.Model
import C4OS.Foundations.Dyadic
import Mathlib.Logic.Relation

/-!
# Chunks as rows of cells

What the heap does to its blocks, without addresses, nodes and lists. A chunk is a row of cells, a
cell a bucket that is free or not. An allocation takes the free cell of the lowest bucket that is
high enough, or that of a new chunk, and carves a used cell from its front (`AllocRows`). A free
joins the cell with its neighbours of the same bucket, one at a time, until there is none
(`FreeRows`); which of them are halves of one larger cell makes no difference to it.

`Separated` says that no two neighbours of a row are free and in the same bucket. Both operations
keep it (`AllocRows.separated`, `FreeRows.separated`). In a separated row that is aligned and in
which all cells are free there is one cell only, and this is also what is left when the last used
cell of an aligned row is freed (`FreeRow.eq_singleton`).
-/

namespace C4OS.C4alloc

open Foundations Relation

/-- A block of a chunk. -/
@[ext] structure Cell where
  bucket : ℕ
  free : Bool
  deriving DecidableEq

/-- Two neighbours that can not be joined. -/
def Apart (c d : Cell) : Prop := c.free = true → d.free = true → c.bucket ≠ d.bucket

/-- A row in which no neighbours can be joined. -/
abbrev Separated (l : List Cell) : Prop := l.IsChain Apart

/-- The cells that a free cell of bucket `upper` is carved into, the used one in front. -/
def carved (lower upper : ℕ) : List Cell :=
  ⟨lower, false⟩ :: (List.range' lower (upper - lower)).map (⟨·, true⟩)

/-- The rows after an allocation in bucket `i`. -/
inductive AllocRows (n : ℕ) (R : ℕ → List Cell) (i : ℕ) : ℕ → (ℕ → List Cell) → Prop
  | carve {R' : ℕ → List Cell} {k upper : ℕ} {xs ys : List Cell} (hk : k < n) (hle : i ≤ upper)
      (hR : R k = xs ++ ⟨upper, true⟩ :: ys)
      (hmin : ∀ j < n, ∀ c ∈ R j, c.free = true → i ≤ c.bucket → upper ≤ c.bucket)
      (hR' : ∀ j < n, R' j = if j = k then xs ++ carved i upper ++ ys else R j) :
      AllocRows n R i n R'
  | grow {R' : ℕ → List Cell} (hnone : ∀ j < n, ∀ c ∈ R j, c.free = true → c.bucket < i)
      (hR' : ∀ j < n + 1, R' j = if j = n then carved i c4aMaxBuckets else R j) :
      AllocRows n R i (n + 1) R'

/-- A free cell of a bucket, with the cells in front of it and behind it. -/
abbrev Place := List Cell × ℕ × List Cell

/-- A free cell is joined with a free neighbour of its bucket. -/
inductive Join : Place → Place → Prop
  | below {xs ys : List Cell} {b : ℕ} : Join (xs ++ [⟨b, true⟩], b, ys) (xs, b + 1, ys)
  | above {xs ys : List Cell} {b : ℕ} : Join (xs, b, ⟨b, true⟩ :: ys) (xs, b + 1, ys)

/-- The row after the cell of bucket `b` between `xs` and `ys` is freed. -/
inductive FreeRow (xs : List Cell) (b : ℕ) (ys : List Cell) : List Cell → Prop
  | intro {xs' ys' : List Cell} {b' : ℕ} (hjoin : ReflTransGen Join (xs, b, ys) (xs', b', ys'))
      (hbelow : ∀ c ∈ xs'.getLast?, Apart c ⟨b', true⟩)
      (habove : ∀ c ∈ ys'.head?, Apart ⟨b', true⟩ c) :
      FreeRow xs b ys (xs' ++ ⟨b', true⟩ :: ys')

/-- The rows after a free. -/
inductive FreeRows (n : ℕ) (R : ℕ → List Cell) : (ℕ → List Cell) → Prop
  | intro {R' : ℕ → List Cell} {k b : ℕ} {xs ys l : List Cell} (hk : k < n)
      (hR : R k = xs ++ ⟨b, false⟩ :: ys) (hrow : FreeRow xs b ys l)
      (hR' : ∀ j < n, R' j = if j = k then l else R j) : FreeRows n R R'

/-- The rows after an operation. -/
inductive RowsStep (n : ℕ) (R : ℕ → List Cell) : ℕ → (ℕ → List Cell) → Prop
  | stay {R' : ℕ → List Cell} (h : ∀ j < n, R' j = R j) : RowsStep n R n R'
  | alloc {i n' : ℕ} {R' : ℕ → List Cell} (h : AllocRows n R i n' R') : RowsStep n R n' R'
  | free {R' : ℕ → List Cell} (h : FreeRows n R R') : RowsStep n R n R'

variable {n n' i : ℕ} {R R' : ℕ → List Cell} {xs ys l : List Cell} {b : ℕ} {p q : Place}

/-! ## Neighbours -/

theorem apart_of_used {c d : Cell} (h : c.free = false ∨ d.free = false) : Apart c d := by
  intro hc hd
  rcases h with h | h
  · exact absurd hc (by simp [h])
  · exact absurd hd (by simp [h])

/-- The free cells behind the used one are in different buckets. -/
theorem separated_carved (lower upper : ℕ) : Separated (carved lower upper) := by
  rw [Separated, carved, List.isChain_cons]
  refine ⟨fun c _ => apart_of_used (.inl rfl), ?_⟩
  rw [List.isChain_map]
  refine (List.isChain_range' lower (upper - lower) 1).imp fun a b hab _ _ => ?_
  show a ≠ b
  omega

/-- The last of the cells is in the bucket below the upper one. -/
theorem bucket_of_mem_getLast {lower upper : ℕ} {c : Cell}
    (hc : c ∈ (carved lower upper).getLast?) (hfree : c.free = true) :
    lower ≤ c.bucket ∧ c.bucket < upper := by
  have hmem : c ∈ carved lower upper := List.mem_of_getLast? hc
  rw [carved, List.mem_cons, List.mem_map] at hmem
  rcases hmem with rfl | ⟨j, hj, rfl⟩
  · exact absurd hfree (by simp)
  · rw [List.mem_range'_1] at hj
    show lower ≤ j ∧ j < upper
    omega

/-- A carved row is separated, since the buckets of the new cells were empty. -/
theorem separated_carve {upper : ℕ} (h : Separated (xs ++ ⟨upper, true⟩ :: ys))
    (hmin : ∀ c ∈ ys, c.free = true → i ≤ c.bucket → upper ≤ c.bucket) :
    Separated (xs ++ carved i upper ++ ys) := by
  rw [Separated, List.isChain_append, List.isChain_cons] at h
  obtain ⟨hxs, ⟨-, hys⟩, -⟩ := h
  rw [Separated, List.append_assoc, List.isChain_append, List.isChain_append]
  refine ⟨hxs, ⟨separated_carved i upper, hys, fun c hc d hd hcf hdf => ?_⟩, fun c _ d hd => ?_⟩
  · obtain ⟨h₁, h₂⟩ := bucket_of_mem_getLast hc hcf
    intro he
    have := hmin d (List.mem_of_mem_head? hd) hdf (he ▸ h₁)
    omega
  · obtain rfl : ⟨i, false⟩ = d := by simpa [carved] using hd
    exact apart_of_used (.inr rfl)

/-- **An allocation leaves no neighbours that can be joined.** -/
theorem AllocRows.separated (h : AllocRows n R i n' R') (hsep : ∀ j < n, Separated (R j)) :
    ∀ j < n', Separated (R' j) := by
  intro j hj
  cases h with
  | @carve R' k upper xs ys hk hle hR hmin hR' =>
    rw [hR' j hj]
    split
    · refine separated_carve (hR ▸ hsep k hk) fun c hc => hmin k hk c ?_
      rw [hR]
      simp [hc]
    · exact hsep j hj
  | @grow R' hnone hR' =>
    rw [hR' j hj]
    split
    · exact separated_carved i c4aMaxBuckets
    · exact hsep j (by omega)

/-- Both sides of the cell stay separated while it is joined. -/
theorem Join.separated (h : ReflTransGen Join p q) (hp : Separated p.1 ∧ Separated p.2.2) :
    Separated q.1 ∧ Separated q.2.2 := by
  induction h with
  | refl => exact hp
  | tail _ hstep ih =>
    cases hstep with
    | below => exact ⟨(List.isChain_append.1 ih.1).1, ih.2⟩
    | above => exact ⟨ih.1, (List.isChain_cons.1 ih.2).2⟩

theorem FreeRow.separated (h : FreeRow xs b ys l) (hxs : Separated xs) (hys : Separated ys) :
    Separated l := by
  obtain @⟨xs', ys', b', hjoin, hbelow, habove⟩ := h
  obtain ⟨hxs', hys'⟩ := Join.separated hjoin ⟨hxs, hys⟩
  rw [Separated, List.isChain_append, List.isChain_cons]
  refine ⟨hxs', ⟨habove, hys'⟩, fun c hc d hd => ?_⟩
  obtain rfl : ⟨b', true⟩ = d := by simpa using hd
  exact hbelow c hc

/-- **A free leaves no neighbours that can be joined.** -/
theorem FreeRows.separated (h : FreeRows n R R') (hsep : ∀ j < n, Separated (R j)) :
    ∀ j < n, Separated (R' j) := by
  intro j hj
  obtain @⟨k, b, xs, ys, l, hk, hR, hrow, hR'⟩ := h
  rw [hR' j hj]
  split
  · have hsep := hsep k hk
    rw [Separated, hR, List.isChain_append, List.isChain_cons] at hsep
    exact hrow.separated hsep.1 hsep.2.1.2
  · exact hsep j hj

/-- **No operation leaves neighbours that can be joined.** -/
theorem RowsStep.separated (h : RowsStep n R n' R') (hsep : ∀ j < n, Separated (R j)) :
    ∀ j < n', Separated (R' j) := by
  cases h with
  | stay h => exact fun j hj => h j hj ▸ hsep j hj
  | alloc h => exact h.separated hsep
  | free h => exact h.separated hsep

/-! ## Aligned rows -/

/-- The buckets of a row. -/
abbrev buckets (l : List Cell) : List ℕ := l.map Cell.bucket

/-- All cells of a row are free. -/
abbrev AllFree (l : List Cell) : Prop := ∀ c ∈ l, c.free = true

theorem isChain_buckets (h : Separated l) (hfree : AllFree l) :
    (buckets l).IsChain (· ≠ ·) := by
  rw [List.isChain_map]
  refine List.IsChain.imp_of_mem_imp (fun c d hc hd hcd => ?_) h
  exact hcd (hfree c hc) (hfree d hd)

/-- A free row that is separated and aligned and has the length of a chunk is one cell. -/
theorem eq_singleton_of_separated (h : Aligned 0 (buckets l)) (hsep : Separated l)
    (hfree : AllFree l) (hext : extent (buckets l) = 2 ^ n) : l = [⟨n, true⟩] := by
  have hone := h.eq_singleton (isChain_buckets hsep hfree) hext
  obtain ⟨c, rfl, hc⟩ := List.map_eq_singleton_iff.1 hone
  have := hfree c (List.mem_singleton_self c)
  rw [← hc, ← this]

/-- The row around a free cell in an otherwise free chunk, whose sides are separated. -/
structure Whole (n : ℕ) (p : Place) : Prop where
  aligned : Aligned 0 (buckets p.1 ++ p.2.1 :: buckets p.2.2)
  below : Separated p.1
  above : Separated p.2.2
  free_below : AllFree p.1
  free_above : AllFree p.2.2
  extent : extent (buckets p.1 ++ p.2.1 :: buckets p.2.2) = 2 ^ n

/-- In a free chunk only the halves of a cell are joined. -/
theorem Whole.join (h : Whole n p) (hjoin : Join p q) : Whole n q := by
  obtain ⟨hal, hbelow, habove, hfb, hfa, hext⟩ := h
  cases hjoin with
  | @below xs ys b =>
    simp only at hal hbelow habove hfb hfa hext
    have hb : buckets (xs ++ [⟨b, true⟩]) = buckets xs ++ [b] := by simp
    rw [hb] at hal hext
    obtain ⟨hxs, hrest⟩ := aligned_append.1 hal
    have hdvd := hxs.dvd_last (hb ▸ isChain_buckets hbelow hfb)
    refine ⟨?_, (List.isChain_append.1 hbelow).1, habove, fun c hc => hfb c (by simp [hc]), hfa, ?_⟩
    · simp only [aligned_append, aligned_cons, extent_append, extent_cons, extent_nil,
        Nat.zero_add] at hal hdvd ⊢
      refine ⟨hal.1.1, hdvd, ?_⟩
      have := hal.2.2
      rwa [Nat.add_zero, Nat.add_assoc, ← Nat.two_mul, ← Nat.pow_succ'] at this
    · simp only [extent_append, extent_cons, extent_nil] at hext ⊢
      rw [Nat.pow_succ]
      omega
  | @above xs ys b =>
    have hb : buckets (⟨b, true⟩ :: ys) = b :: buckets ys := rfl
    simp only [hb] at hal hbelow habove hfb hfa hext
    simp only [aligned_append, aligned_cons, Nat.zero_add] at hal
    obtain ⟨hxs, hb, hb', hys⟩ := hal
    rw [extent_append, extent_cons, extent_cons] at hext
    have hlt : b + 1 ≤ n := by
      refine (Nat.pow_le_pow_iff_right (Nat.lt_succ_self 1)).1 ?_
      show 2 ^ (b + 1) ≤ 2 ^ n
      rw [Nat.pow_succ]
      omega
    -- the end of the second cell is an even multiple, and so is the start of the first
    have hend := hys.dvd_end (isChain_buckets habove hfa)
      (Nat.dvd_add (Nat.dvd_add hb (Nat.dvd_refl _)) (Nat.dvd_refl _)) (by
        rw [Nat.add_assoc, Nat.add_assoc, hext]
        exact Nat.pow_dvd_pow 2 hlt)
    rw [Nat.add_assoc, ← Nat.two_mul, ← Nat.pow_succ'] at hend hys
    refine ⟨?_, hbelow, (List.isChain_cons.1 habove).2, hfb, fun c hc => hfa c (by simp [hc]), ?_⟩
    · simp only [aligned_append, aligned_cons, Nat.zero_add]
      exact ⟨hxs, (Nat.dvd_add_left (Nat.dvd_refl _)).1 hend, hys⟩
    · simp only [extent_append, extent_cons]
      rw [Nat.pow_succ]
      omega

theorem Whole.joins (h : Whole n p) (hjoin : ReflTransGen Join p q) : Whole n q := by
  induction hjoin with
  | refl => exact h
  | tail _ hstep ih => exact ih.join hstep

/-- **When the last used cell of an aligned chunk is freed, the chunk is one free cell.** -/
theorem FreeRow.eq_singleton (h : FreeRow xs b ys l) (hw : Whole n (xs, b, ys)) :
    l = [⟨n, true⟩] := by
  have hsep := h.separated hw.below hw.above
  obtain @⟨xs', ys', b', hjoin, -, -⟩ := h
  have hw' : Whole n (xs', b', ys') := hw.joins hjoin
  refine eq_singleton_of_separated ?_ hsep (fun c hc => ?_) ?_
  · simpa [buckets] using hw'.aligned
  · rw [List.mem_append, List.mem_cons] at hc
    rcases hc with hc | rfl | hc
    · exact hw'.free_below c hc
    · rfl
    · exact hw'.free_above c hc
  · simpa [buckets] using hw'.extent

/-- Only free cells are joined. -/
theorem Join.allFree (h : ReflTransGen Join p q) (hq : AllFree q.1 ∧ AllFree q.2.2) :
    AllFree p.1 ∧ AllFree p.2.2 := by
  induction h using ReflTransGen.head_induction_on with
  | refl => exact hq
  | head hstep _ ih =>
    cases hstep with
    | below =>
      refine ⟨fun c hc => ?_, ih.2⟩
      rcases List.mem_append.1 hc with hc | hc
      · exact ih.1 c hc
      · rw [List.mem_singleton.1 hc]
    | above =>
      refine ⟨ih.1, fun c hc => ?_⟩
      rcases List.mem_cons.1 hc with rfl | hc
      · rfl
      · exact ih.2 c hc

/-- An allocation leaves a used cell. -/
theorem AllocRows.exists_used (h : AllocRows n R i n' R') : ∃ j < n', ¬ AllFree (R' j) := by
  cases h with
  | @carve R' k upper xs ys hk hle hR hmin hR' =>
    refine ⟨k, hk, fun hfree => ?_⟩
    have := hfree ⟨i, false⟩ (by rw [hR' k hk, if_pos rfl]; simp [carved])
    exact absurd this (by simp)
  | @grow R' hnone hR' =>
    refine ⟨n, Nat.lt_succ_self n, fun hfree => ?_⟩
    have := hfree ⟨i, false⟩ (by rw [hR' n (Nat.lt_succ_self n), if_pos rfl]; simp [carved])
    exact absurd this (by simp)

/-- **Once all cells are free, the chunks of a heap that was aligned before are one cell each.** -/
theorem RowsStep.eq_singleton {top : ℕ} (h : RowsStep n R n' R') (hsep : ∀ j < n, Separated (R j))
    (hal : ∀ j < n, Aligned 0 (buckets (R j)))
    (hext : ∀ j < n, extent (buckets (R j)) = 2 ^ top) (hfree : ∀ j < n', AllFree (R' j)) :
    ∀ j < n', R' j = [⟨top, true⟩] := by
  intro j hj
  cases h with
  | stay h =>
    have hfree' := hfree j hj
    rw [h j hj] at hfree' ⊢
    exact eq_singleton_of_separated (hal j hj) (hsep j hj) hfree' (hext j hj)
  | alloc h =>
    obtain ⟨k, hk, hused⟩ := h.exists_used
    exact absurd (hfree k hk) hused
  | free h =>
    obtain @⟨k, b, xs, ys, l, hk, hR, hrow, hR'⟩ := h
    have hfree' := hfree j hj
    rw [hR' j hj] at hfree' ⊢
    split
    · next hjk =>
      rw [if_pos hjk] at hfree'
      refine hrow.eq_singleton ?_
      have hsep' := hsep k hk
      rw [Separated, hR, List.isChain_append, List.isChain_cons] at hsep'
      obtain @⟨xs', ys', b', hjoin, -, -⟩ := hrow
      obtain ⟨hxs, hys⟩ := Join.allFree hjoin ⟨fun c hc => hfree' c (by simp [hc]),
        fun c hc => hfree' c (by simp [hc])⟩
      refine ⟨?_, hsep'.1, hsep'.2.1.2, hxs, hys, ?_⟩
      · simpa [hR, buckets] using hal k hk
      · simpa [hR, buckets] using hext k hk
    · next hjk =>
      rw [if_neg hjk] at hfree'
      exact eq_singleton_of_separated (hal j hj) (hsep j hj) hfree' (hext j hj)

end C4OS.C4alloc
