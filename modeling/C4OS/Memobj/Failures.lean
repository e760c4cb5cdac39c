import C4OS.Addrman.BestFit
import C4OS.Memobj.Model

/-!
# Failed mappings

A mapping takes an address range of the general-purpose region and then asks the kernel to map the
pages there, and `c4_memobj_alloc` asks the pager for the pages first. Nothing of this is given back
when a later step fails: the range stays in use when the kernel refuses the mapping, and the
capability of the pages stays in the capability space when `c4_memobj_alloc` fails after the pager
has granted it (`memobj_failure_traceless_iff`).
-/

namespace C4OS.Memobj

open Foundations Andtree Addrman

/-- The address ranges in use in a region, as pointers and numbers of pages. -/
def liveRanges (r : Region) : Option (List (ℕ × ℕ)) := do
  let items ← inorder r.layout.fuel r.mem r.layout.root
  let ns ← (items.map Item.data).mapM r.vmem.get
  return (ns.filter fun n => !n.isFree).map fun n => (r.base + n.offset * pageSize, n.size)

/-- A failed call has left the live ranges of the region as they were. -/
def KeepsRanges (st st' : Process) (success : Bool) : Prop :=
  success = false → st'.genregion.map liveRanges = st.genregion.map liveRanges

/-- A failed call has left no new capability behind. -/
def KeepsCaps (st st' : Process) (success : Bool) : Prop :=
  success = false → st'.cspace = st.cspace

/-- There is a run of free pages for an allocation of `size` bytes in the general-purpose region. -/
def Room (st : Process) (live : List Live) (size : ℕ) : Prop :=
  st.genregion ≠ none ∧
    ∃ o, ∀ i, o ≤ i → i < o + numPages size → FreePage 0xc0000000 0x10000 live i

/-- The general-purpose region as the start code of a process makes it and later calls leave it, or
no region. -/
def GenregionOk (st : Process) (live : List Live) : Prop :=
  ∀ r, st.genregion = some r → Reachable 0xc0000000 0x10000 r live

section

variable {base pages : ℕ} {r : Region} {live : List Live} {L : List Block} {F : List Ptr}

theorem liveRanges_eq (h : Inv base pages r live L F) :
    liveRanges r = some ((inUse L).map fun b => (r.base + b.offset * pageSize, b.size)) := by
  have hitems := Pair.inorder_eq h.1.indexed
  obtain ⟨items, hi, hdata⟩ := Option.map_eq_some_iff.1 hitems
  simp only [liveRanges, hi, hdata, h.1.records, Option.bind_eq_bind, Option.bind_some,
    Option.pure_def, List.filter_map, List.map_map]
  rfl

end

/-- An allocation of an address range fails without a trace, or it makes a new live range. -/
theorem vaddrAlloc_ranges {r : Region} {live : List Live} {size : ℕ}
    (h : Reachable 0xc0000000 0x10000 r live) (hsize : 1 ≤ size ∧ size < 2 ^ 32)
    (calloc : Calloc) :
    ∃ r' ptr, c4rtVaddrAlloc calloc r size = some (r', ptr) ∧
      (ptr = null ↔ ¬∃ o, ∀ i, o ≤ i → i < o + numPages size →
        FreePage 0xc0000000 0x10000 live i) ∧
      (ptr = null → r' = r) ∧ (ptr ≠ null → liveRanges r' ≠ liveRanges r) := by
  obtain ⟨L, F, hinv⟩ := h.inv (by decide) (by decide) (by decide)
  obtain ⟨r', ptr, halloc, hfit⟩ := hinv.bestFit calloc hsize (by decide) (by decide)
  obtain ⟨r₁, ptr₁, L', F', halloc₁, hinv'⟩ :=
    hinv.alloc calloc hsize (by decide) (by decide)
  obtain ⟨rfl, rfl⟩ := Prod.mk.inj (Option.some.inj (halloc.symm.trans halloc₁))
  refine ⟨r', ptr, halloc, hfit.fails_iff, hfit.unchanged, fun hne heq => ?_⟩
  -- one more block is in use
  have hlen := hinv.2.2.2.length_eq
  have hlen' := hinv'.2.2.2.length_eq
  rw [liveRanges_eq hinv, liveRanges_eq hinv'] at heq
  have hcount := congrArg List.length (Option.some.inj heq)
  rw [if_neg hne] at hlen'
  simp only [List.length_map, List.length_cons] at hlen hlen' hcount
  omega

/-- **`c4_memobj_region_map`.** -/
theorem memobjRegionMap_eq {st : Process} {live : List Live} (h : GenregionOk st live) {size : ℕ}
    (hsize : 1 ≤ size ∧ size < 2 ^ 32) (calloc : Calloc) (ret : ℤ) (obj permissions : ℕ)
    (memobj : MemObject) :
    ∃ st' memobj' success,
      memobjRegionMap calloc ret st obj memobj size permissions = some (st', memobj', success) ∧
      st'.cspace = st.cspace ∧ (success = true ↔ Room st live size ∧ 0 ≤ ret) ∧
      (KeepsRanges st st' success ↔ (Room st live size → 0 ≤ ret)) := by
  obtain ⟨genregion, cspace⟩ := st
  cases genregion with
  | none =>
    have hroom : ¬ Room ⟨none, cspace⟩ live size := fun hr => hr.1 rfl
    exact ⟨_, _, _, rfl, rfl, by simp [hroom], by simp [KeepsRanges, hroom]⟩
  | some r =>
    obtain ⟨r', ptr, halloc, hnull, hsame, hdiff⟩ := vaddrAlloc_ranges (h r rfl) hsize calloc
    by_cases hptr : ptr = null
    · have hroom : ¬ Room ⟨some r, cspace⟩ live size := fun hr => hnull.1 hptr hr.2
      obtain rfl := hsame hptr
      refine ⟨⟨some r', cspace⟩, memobj, false, by simp [memobjRegionMap, halloc, hptr], rfl,
        by simp [hroom], by simp [KeepsRanges, hroom]⟩
    · have hroom : Room ⟨some r, cspace⟩ live size :=
        ⟨by simp, not_not.1 fun hno => hptr (hnull.2 hno)⟩
      refine ⟨⟨some r', cspace⟩, { memobjMake obj ptr permissions with mapped := decide (0 ≤ ret) },
        decide (0 ≤ ret), ?_, rfl, by simp [hroom], ?_⟩
      · simp [memobjRegionMap, halloc, hptr, memobjMap, memobjMake]
      · have hranges : ¬ liveRanges r' = liveRanges r := hdiff hptr
        simp [KeepsRanges, hroom, hranges]

/-- **Failed mappings.** For every state of the general-purpose region, every size and every answer
of the pager and the kernel: a failed `c4_memobj_region_map` leaves the live ranges as they were
exactly when there was no room or the kernel did not refuse the mapping; and a failed
`c4_memobj_alloc` leaves neither a range nor a capability behind exactly when the kernel did not
refuse a mapping there was room for, and the pager had granted nothing when there was no room. -/
theorem memobj_failure_traceless_iff {st : Process} {live : List Live} (h : GenregionOk st live)
    {size : ℕ} (hsize : 1 ≤ size ∧ size < 2 ^ 32) (calloc : Calloc) (page ret : ℤ)
    (obj permissions : ℕ) (memobj : MemObject) :
    (∃ st' memobj' success,
      memobjRegionMap calloc ret st obj memobj size permissions = some (st', memobj', success) ∧
        (KeepsRanges st st' success ↔ (Room st live size → 0 ≤ ret))) ∧
    ∃ st' memobj' success,
      memobjAlloc calloc page ret st memobj size permissions = some (st', memobj', success) ∧
        (KeepsRanges st st' success ∧ KeepsCaps st st' success ↔
          (Room st live size → 0 ≤ ret) ∧ (¬ Room st live size → page < 0)) := by
  obtain ⟨st₁, memobj₁, b₁, hmap, -, -, hkeeps⟩ :=
    memobjRegionMap_eq h hsize calloc ret obj permissions memobj
  refine ⟨⟨st₁, memobj₁, b₁, hmap, hkeeps⟩, ?_⟩
  -- the request does not touch the region
  have hgen : (pagerRequestPages page st).genregion = st.genregion := by
    unfold pagerRequestPages
    split <;> rfl
  have hok : GenregionOk (pagerRequestPages page st) live := by
    intro r hr
    exact h r (hgen ▸ hr)
  have hroom : Room (pagerRequestPages page st) live size ↔ Room st live size := by
    unfold Room
    rw [hgen]
  obtain ⟨st₂, memobj₂, b₂, halloc, hcaps, hsuccess, hranges⟩ :=
    memobjRegionMap_eq hok hsize calloc ret (toUint page) permissions memobj
  refine ⟨st₂, memobj₂, b₂, by rw [memobjAlloc, halloc], ?_⟩
  have hcap : st₂.cspace = st.cspace ↔ page < 0 := by
    rw [hcaps, pagerRequestPages]
    split
    · simp only [List.cons_ne_self, false_iff]
      omega
    · simp only [true_iff]
      omega
  rw [hroom] at hsuccess hranges
  have hkeeps' : KeepsRanges st st₂ b₂ ↔ (Room st live size → 0 ≤ ret) := by
    rw [← hranges]
    unfold KeepsRanges
    rw [hgen]
  rw [hkeeps', KeepsCaps, hcap]
  -- the call fails without room, or when the kernel refuses the mapping
  have hfail : b₂ = false ↔ ¬ (Room st live size ∧ 0 ≤ ret) := by
    rw [← hsuccess, Bool.not_eq_true]
  rw [hfail]
  constructor
  · rintro ⟨hret, hpage⟩
    exact ⟨hret, fun hno => hpage fun hr => hno hr.1⟩
  · rintro ⟨hret, hpage⟩
    exact ⟨hret, fun hno => hpage fun hr => hno ⟨hr, hret hr⟩⟩

/-- The region at the start of a process. -/
theorem genregion_start :
    ∃ r, c4rtVaddrRegionCreate .bump startMem .empty 0xc0000000 0x10000 = some r ∧
    GenregionOk ⟨some r, []⟩ [] := by
  refine ⟨_, rfl, fun r hr => ?_⟩
  obtain rfl := Option.some.inj hr
  exact .create .bump startMem .empty startMem_ok rfl

/-- Two pages for the first time, which the kernel refuses to map. -/
theorem memobj_failure_traceless_iff_start : ∃ r, GenregionOk ⟨some r, []⟩ [] ∧
    (∃ st' memobj' success,
      memobjRegionMap .bump (-1) ⟨some r, []⟩ 7 ⟨0, 0, 0, false⟩ 5000 3 =
        some (st', memobj', success) ∧
        (KeepsRanges ⟨some r, []⟩ st' success ↔ (Room ⟨some r, []⟩ [] 5000 → (0 : ℤ) ≤ -1))) ∧
    ∃ st' memobj' success,
      memobjAlloc .bump 7 (-1) ⟨some r, []⟩ ⟨0, 0, 0, false⟩ 5000 3 =
        some (st', memobj', success) ∧
        (KeepsRanges ⟨some r, []⟩ st' success ∧ KeepsCaps ⟨some r, []⟩ st' success ↔
          (Room ⟨some r, []⟩ [] 5000 → (0 : ℤ) ≤ -1) ∧
            (¬ Room ⟨some r, []⟩ [] 5000 → (7 : ℤ) < 0)) := by
  obtain ⟨r, -, hok⟩ := genregion_start
  exact ⟨r, hok, memobj_failure_traceless_iff hok (by decide) .bump 7 (-1) 7 3 ⟨0, 0, 0, false⟩⟩

/-- The pager grants a page as object `7`, and the kernel refuses to map it: the call fails, and
both the first page of the region and the object stay. -/
theorem memobjAlloc_leaks : ∃ r st', GenregionOk ⟨some r, []⟩ [] ∧
    memobjAlloc .bump 7 (-1) ⟨some r, []⟩ ⟨0, 0, 0, false⟩ 1 3 =
      some (st', ⟨0xc0000000, 7, 3, false⟩, false) ∧
    st'.genregion.map liveRanges = some (some [(0xc0000000, 1)]) ∧
    ¬ KeepsRanges ⟨some r, []⟩ st' false ∧ ¬ KeepsCaps ⟨some r, []⟩ st' false := by
  obtain ⟨r, hr, hok⟩ := genregion_start
  obtain rfl := Option.some.inj hr
  refine ⟨_, _, hok, rfl, rfl, fun h => ?_, fun h => ?_⟩
  · exact absurd (h rfl) (by decide)
  · exact absurd (h rfl) (by decide)

end C4OS.Memobj
