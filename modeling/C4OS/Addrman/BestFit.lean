import C4OS.Addrman.Runs

/-!
# Allocations are complete and best-fit

The pages of a region that no live allocation uses form runs. `vaddr_alloc_best_fit` says for every
state of a run that `c4rt_vaddr_alloc` fails exactly when no run is long enough, and otherwise
returns the start of a maximal run that is the shortest one of those that are. The free vnodes are
the maximal runs, since no two neighbours are free (`Inv.freePage_iff`).

Both need a region that does not start at address `0`, where the first page has the pointer `NULL`
(`not_complete_base_zero`).
-/

namespace C4OS.Addrman

open Foundations Andtree

/-- The page of the region belongs to no live allocation. -/
def FreePage (base pages : ℕ) (live : List Live) (i : ℕ) : Prop :=
  i < pages ∧ ∀ a ∈ live,
    ¬(a.ptr ≤ base + i * pageSize ∧ base + i * pageSize < a.ptr + roundUp a.size)

/-- What an allocation of `n` pages should do, with the pointer it returns. -/
structure BestFit (base pages : ℕ) (st st' : Region) (live : List Live) (n ptr : ℕ) : Prop where
  fails_iff : ptr = null ↔ ¬∃ o, ∀ i, o ≤ i → i < o + n → FreePage base pages live i
  unchanged : ptr = null → st' = st
  best : ptr ≠ null → ∃ o m, ptr = base + o * pageSize ∧ MaxRun (FreePage base pages live) o m ∧
    n ≤ m ∧ ∀ o' m', MaxRun (FreePage base pages live) o' m' → n ≤ m' → m ≤ m'

section

variable {base pages : ℕ} {st : Region} {live : List Live} {L : List Block} {F : List Ptr}

/-- A block in use is a live allocation. -/
theorem Inv.exists_live (h : Inv base pages st live L F) {b : Block} (hb : b ∈ L)
    (hused : b.isFree = false) :
    ∃ a ∈ live, a.ptr = base + b.offset * pageSize ∧ numPages a.size = b.size := by
  have hmem := List.mem_map_of_mem (f := fun b : Block => (base + b.offset * pageSize, b.size))
    (mem_inUse.2 ⟨hb, hused⟩)
  obtain ⟨a, ha, he⟩ := List.mem_map.1 (h.2.2.2.mem_iff.2 hmem)
  rw [Prod.mk.injEq] at he
  exact ⟨a, ha, he.1, he.2⟩

/-- The pages of an allocation. -/
theorem page_iff {a : Live} {b : Block} (hptr : a.ptr = base + b.offset * pageSize)
    (hsize : numPages a.size = b.size) (i : ℕ) :
    (a.ptr ≤ base + i * pageSize ∧ base + i * pageSize < a.ptr + roundUp a.size) ↔
      b.offset ≤ i ∧ i < b.offset + b.size := by
  rw [roundUp_eq, hsize, hptr]
  unfold pageSize
  omega

/-- The free pages are those of the free blocks. -/
theorem Inv.freePage_iff (h : Inv base pages st live L F) (i : ℕ) :
    FreePage base pages live i ↔
      Covered (fun b : Block => b.offset) (fun b => b.size) L (fun b => b.isFree) i := by
  constructor
  · rintro ⟨hi, hfree⟩
    obtain ⟨b, hb, hcov⟩ := h.1.tiles.exists_mem (Nat.zero_le i) hi
    cases hf : b.isFree with
    | true => exact ⟨b, hb, hf, hcov⟩
    | false =>
      obtain ⟨a, ha, hptr, hsize⟩ := h.exists_live hb hf
      exact absurd ((page_iff hptr hsize i).2 hcov) (hfree a ha)
  · rintro ⟨b, hb, hf, hcov⟩
    have hbd := h.1.tiles.bounds hb
    have hlt : i < b.offset + b.size := hcov.2
    refine ⟨by omega, fun a ha hpage => ?_⟩
    obtain ⟨c, hc, hused, hptr, hsize⟩ := h.exists_block ha
    have hcov' := (page_iff hptr hsize.symm i).1 hpage
    obtain rfl := h.1.tiles.eq_of_cover hc hb hcov' hcov
    rw [hf] at hused
    cases hused

/-- The maximal runs are the free blocks. -/
theorem Inv.maxRun_iff (h : Inv base pages st live L F) (o n : ℕ) :
    MaxRun (FreePage base pages live) o n ↔ ∃ b ∈ L, b.isFree ∧ b.offset = o ∧ b.size = n := by
  have hpage : FreePage base pages live =
      Covered (fun b : Block => b.offset) (fun b => b.size) L (fun b => b.isFree) := by
    funext i
    exact propext (h.freePage_iff i)
  rw [hpage]
  exact h.1.tiles.maxRun_iff h.2.1

/-- A run of free pages is in a free block. -/
theorem Inv.exists_free_of_run (h : Inv base pages st live L F) {o n : ℕ} (hn : 0 < n)
    (hrun : ∀ i, o ≤ i → i < o + n → FreePage base pages live i) :
    ∃ b ∈ L, b.isFree ∧ n ≤ b.size := by
  obtain ⟨b, hb, hf, hbo, hob⟩ := h.1.tiles.exists_of_run (P := fun b : Block => b.isFree) h.2.1 hn
    fun i hi hie => (h.freePage_iff i).1 (hrun i hi hie)
  exact ⟨b, hb, hf, by omega⟩

/-- One allocation is best-fit. -/
theorem Inv.bestFit (h : Inv base pages st live L F) (calloc : Calloc) {size : ℕ}
    (hsize : 1 ≤ size ∧ size < 2 ^ 32) (hbase : 1 ≤ base)
    (hend : base + pages * pageSize ≤ 2 ^ 32) :
    ∃ st' ptr, c4rtVaddrAlloc calloc st size = some (st', ptr) ∧
      BestFit base pages st st' live (numPages size) ptr := by
  have hpos := (numPages_bounds hsize).1
  have hinv := h
  obtain ⟨hlaid, hmer, rfl, hlive⟩ := h
  rcases c4rtVaddrAlloc_laid hlaid hmer calloc hsize hend with
    ⟨halloc, hnone⟩ | ⟨st', F', L', b, halloc, -, -, -, -, -, c, hc, hf, hoff, hle, hmin⟩
  · refine ⟨st, null, halloc, ⟨fun _ => ?_, fun _ => rfl⟩, fun _ => rfl, fun hne => absurd rfl hne⟩
    rintro ⟨o, hrun⟩
    obtain ⟨c, hc, hf, hle⟩ := hinv.exists_free_of_run hpos hrun
    exact Nat.not_lt_of_ge hle (hnone c hc hf)
  · have hne : st.base + b.offset * pageSize ≠ null := by
      unfold null
      omega
    refine ⟨st', _, halloc, ⟨fun heq => absurd heq hne, fun hrun => absurd ?_ hrun⟩,
      fun heq => absurd heq hne, fun _ => ?_⟩
    · refine ⟨c.offset, fun i hi hie => (hinv.freePage_iff i).2 ⟨c, hc, hf, hi, ?_⟩⟩
      show i < c.offset + c.size
      omega
    · refine ⟨c.offset, c.size, by rw [hoff], (hinv.maxRun_iff _ _).2 ⟨c, hc, hf, rfl, rfl⟩, hle,
        fun o' m' hrun hle' => ?_⟩
      obtain ⟨c', hc', hf', -, rfl⟩ := (hinv.maxRun_iff _ _).1 hrun
      exact hmin c' hc' hf' hle'

end

/-- **Allocation is complete and best-fit.** In every state of a run, an allocation fails exactly
when there is no run of free pages that is long enough, and then changes nothing; otherwise it
returns the start of a maximal run of free pages that is the shortest one of those that are long
enough. -/
theorem vaddr_alloc_best_fit {base pages size : ℕ} {st : Region} {live : List Live}
    (hpos : 1 ≤ pages) (hbase : 1 ≤ base) (hend : base + pages * pageSize ≤ 2 ^ 32)
    (h : Reachable base pages st live) (hsize : 1 ≤ size ∧ size < 2 ^ 32) (calloc : Calloc) :
    ∃ st' ptr, c4rtVaddrAlloc calloc st size = some (st', ptr) ∧
      BestFit base pages st st' live (numPages size) ptr := by
  obtain ⟨L, F, hinv⟩ := h.inv hpos hbase hend
  exact hinv.bestFit calloc hsize hbase hend

/-- An allocation after two others, of which the first one was freed. -/
theorem vaddr_alloc_best_fit_general : ∃ st, Reachable 0xc0000000 0x10000 st [⟨0xc0002000, 1⟩] ∧
    ∃ st' ptr, c4rtVaddrAlloc .bump st 8192 = some (st', ptr) ∧
      BestFit 0xc0000000 0x10000 st st' [⟨0xc0002000, 1⟩] 2 ptr := by
  have h₀ : Reachable 0xc0000000 0x10000 _ [] := .create .bump startMem .empty startMem_ok rfl
  have h₁ := h₀.alloc .bump 5000 (by decide) rfl
  have h₂ := h₁.alloc .bump 1 (by decide) rfl
  have h₃ := h₂.free (a := ⟨0xc0000000, 5000⟩) .bump (by decide) rfl
  exact ⟨_, h₃, vaddr_alloc_best_fit (by decide) (by decide) (by decide) h₃ (by decide) .bump⟩

/-- In a region that starts at address `0` the first allocation returns `NULL`, though there is a
free page. -/
theorem not_complete_base_zero : ¬∀ (base pages size : ℕ) (st : Region) (live : List Live)
    (calloc : Calloc), 1 ≤ pages → base + pages * pageSize ≤ 2 ^ 32 → Reachable base pages st live →
    1 ≤ size ∧ size < 2 ^ 32 → ∃ st' ptr, c4rtVaddrAlloc calloc st size = some (st', ptr) ∧
      BestFit base pages st st' live (numPages size) ptr := by
  intro h
  obtain ⟨st, hst⟩ : ∃ st, c4rtVaddrRegionCreate .bump startMem .empty 0 1 = some st := ⟨_, rfl⟩
  have h₀ : Reachable 0 1 st [] := .create .bump startMem .empty startMem_ok hst
  obtain ⟨st', ptr, halloc, hfit⟩ := h 0 1 1 _ _ .bump (by decide) (by decide) h₀ (by decide)
  have hnull : ((c4rtVaddrRegionCreate .bump startMem .empty 0 1).bind fun st =>
      (c4rtVaddrAlloc .bump st 1).map Prod.snd) = some 0 := rfl
  rw [hst, Option.bind_some, halloc] at hnull
  have hptr : ptr = null := Option.some.inj hnull
  refine hfit.fails_iff.1 hptr ⟨0, fun i hi hie => ⟨?_, by simp⟩⟩
  have : numPages 1 = 1 := by decide
  omega

end C4OS.Addrman
