import C4OS.Addrman.Runs

/-!
# Allocations of no pages

`c4rt_vaddr_alloc` takes a size of `0` as it comes: it splits a free vnode into one of no pages and
the rest, which start at the same offset. The pointer that it returns is the one of the next
allocation too (`vaddr_alloc_zero_aliases`). The runs here allow any size, under a condition on the
allocations. Where an allocation of no bytes is only tried when nothing is free, and so fails, the
live pointers are distinct and a release gives back exactly its block (`vaddr_release_exact`).
-/

namespace C4OS.Addrman

open Foundations Andtree

/-- The states of the runs of a region with allocations of any size, all of which meet the condition
`ok` on the region before the call and the size. -/
inductive Runs (ok : Region → ℕ → Prop) (base pages : ℕ) : Region → List Live → Prop
  | create {st : Region} (calloc : Calloc) (mem : Mem) (vmem : VMem) (hm : SentinelOk mem)
      (h : c4rtVaddrRegionCreate calloc mem vmem base pages = some st) : Runs ok base pages st []
  | alloc {st st' : Region} {live : List Live} {ptr : Ptr} (calloc : Calloc) (size : ℕ)
      (hr : Runs ok base pages st live) (hsize : size < 2 ^ 32) (hok : ok st size)
      (h : c4rtVaddrAlloc calloc st size = some (st', ptr)) :
      Runs ok base pages st' (if ptr = null then live else ⟨ptr, size⟩ :: live)
  | free {st st' : Region} {live : List Live} {a : Live} (calloc : Calloc)
      (hr : Runs ok base pages st live) (ha : a ∈ live)
      (h : c4rtVaddrFree calloc st a.ptr = some st') : Runs ok base pages st' (live.erase a)

/-- The size is not `0`, or no vnode is free. -/
def NonzeroOrFull (st : Region) (size : ℕ) : Prop :=
  size ≠ 0 ∨ isNil st.mem st.freeNodes.root = some true

/-- An allocation fails when no vnode is free. -/
theorem c4rtVaddrAlloc_full {st : Region} (calloc : Calloc) (size : ℕ)
    (h : isNil st.mem st.freeNodes.root = some true) :
    c4rtVaddrAlloc calloc st size = some (st, null) := by
  have hfind : andtreeFindAtLeast (vnodeGetSize st.vmem) st.mem st.freeNodes
      (toInt (numPages size)) = some null := by
    unfold andtreeFindAtLeast AndTree.fuel doFindAtLeast
    simp [h]
  simp [c4rtVaddrAlloc, allocVnode, hfind]

/-- A run that meets the condition is a run with sizes of at least one byte, and some failed
allocations. -/
theorem Runs.reachable {base pages : ℕ} {st : Region} {live : List Live}
    (h : Runs NonzeroOrFull base pages st live) : Reachable base pages st live := by
  induction h with
  | create calloc mem vmem hm hc => exact .create calloc mem vmem hm hc
  | @alloc st st' live ptr calloc size _ hsize hok halloc ih =>
    rcases Nat.eq_zero_or_pos size with rfl | hpos
    · have hfull := hok.resolve_left (fun hne => hne rfl)
      rw [c4rtVaddrAlloc_full calloc 0 hfull] at halloc
      obtain ⟨rfl, rfl⟩ := Prod.mk.inj (Option.some.inj halloc)
      exact ih
    · exact ih.alloc calloc size ⟨hpos, hsize⟩ halloc
  | free calloc _ ha hfree ih => exact ih.free calloc ha hfree

/-- **Pointers do not alias.** In every state of a run whose allocations of no bytes find nothing
free, the live pointers are distinct, and the release of one of them leaves a region whose live
allocations are the other ones. -/
theorem vaddr_release_exact {base pages : ℕ} {st : Region} {live : List Live} (hpos : 1 ≤ pages)
    (hbase : 1 ≤ base) (hend : base + pages * pageSize ≤ 2 ^ 32)
    (h : Runs NonzeroOrFull base pages st live) :
    (live.map Live.ptr).Nodup ∧ (∃ L F ns, RegionOk base pages st live L F ns) ∧
      ∀ calloc, ∀ a ∈ live, ∃ st', c4rtVaddrFree calloc st a.ptr = some st' ∧
        ∃ L F ns, RegionOk base pages st' (live.erase a) L F ns := by
  obtain ⟨L, F, hinv⟩ := h.reachable.inv hpos hbase hend
  have hok := hinv.regionOk hbase hend
  refine ⟨hok.live_once, ⟨_, F, _, hok⟩, fun calloc a ha => ?_⟩
  obtain ⟨st', L', F', hfree, hinv'⟩ := hinv.free calloc ha
  exact ⟨st', hfree, _, F', _, hinv'.regionOk hbase hend⟩

/-- Three allocations that fill a region of four pages. -/
def fullLive : List Live :=
  [⟨0xc0003000, 1⟩, ⟨0xc0001000, 8000⟩, ⟨0xc0000000, 4096⟩]

/-- In a region with all its pages taken an allocation of no bytes fails. -/
theorem vaddr_release_exact_full : ∃ st, Runs NonzeroOrFull 0xc0000000 4 st fullLive ∧
    (fullLive.map Live.ptr).Nodup ∧ (∃ L F ns, RegionOk 0xc0000000 4 st fullLive L F ns) ∧
    ∀ calloc, ∀ a ∈ fullLive, ∃ st', c4rtVaddrFree calloc st a.ptr = some st' ∧
      ∃ L F ns, RegionOk 0xc0000000 4 st' (fullLive.erase a) L F ns := by
  have h₀ : Runs NonzeroOrFull 0xc0000000 4 _ [] := .create .bump startMem .empty startMem_ok rfl
  have h₁ := h₀.alloc .bump 4096 (by decide) (.inl (by decide)) rfl
  have h₂ := h₁.alloc .bump 8000 (by decide) (.inl (by decide)) rfl
  have h₃ := h₂.alloc .bump 1 (by decide) (.inl (by decide)) rfl
  have h₄ := h₃.alloc .bump 0 (by decide) (.inr rfl) rfl
  exact ⟨_, h₄, vaddr_release_exact (by decide) (by decide) (by decide) h₄⟩

/-- An allocation of no bytes and the next one return the same pointer. -/
theorem vaddr_alloc_zero_aliases : ∃ st,
    Runs (fun _ _ => True) 0xc0000000 0x10000 st [⟨0xc0000000, 1⟩, ⟨0xc0000000, 0⟩] ∧
      ¬ ([(⟨0xc0000000, 1⟩ : Live), ⟨0xc0000000, 0⟩].map Live.ptr).Nodup := by
  have h₀ : Runs (fun _ _ => True) 0xc0000000 0x10000 _ [] :=
    .create .bump startMem .empty startMem_ok rfl
  have h₁ := h₀.alloc .bump 0 (by decide) trivial rfl
  have h₂ := h₁.alloc .bump 1 (by decide) trivial rfl
  exact ⟨_, h₂, by decide⟩

end C4OS.Addrman
