import C4OS.Addrman.Merge

/-!
# Runs of the address region manager

A run creates a region and then allocates and frees, in any order and with any allocators for the
nodes and vnodes (`Reachable`). The live allocations are kept beside the region, each with the
pointer that was returned and the size that was asked for.

* `vaddr_region_ok`: in every state of a run the vnodes of the layout tile the region, the tree of
  free vnodes holds exactly the free ones, no two neighbours are free, and the vnodes in use are
  the live allocations; the ranges of these are disjoint and of the right size. This needs a region
  that does not start at address `0`.
* `not_regionOk_base_zero`: in a region that starts at address `0` the first page is handed out
  under the pointer `NULL`.
-/

namespace C4OS.Addrman

open Foundations Andtree

/-- An allocation: the pointer returned and the size asked for. -/
structure Live where
  ptr : ℕ
  size : ℕ
  deriving DecidableEq

/-- The states of the runs of a region, with the live allocations. -/
inductive Reachable (base pages : ℕ) : Region → List Live → Prop
  | create {st : Region} (calloc : Calloc) (mem : Mem) (vmem : VMem) (hm : SentinelOk mem)
      (h : c4rtVaddrRegionCreate calloc mem vmem base pages = some st) : Reachable base pages st []
  | alloc {st st' : Region} {live : List Live} {ptr : Ptr} (calloc : Calloc) (size : ℕ)
      (hr : Reachable base pages st live) (hsize : 1 ≤ size ∧ size < 2 ^ 32)
      (h : c4rtVaddrAlloc calloc st size = some (st', ptr)) :
      Reachable base pages st' (if ptr = null then live else ⟨ptr, size⟩ :: live)
  | free {st st' : Region} {live : List Live} {a : Live} (calloc : Calloc)
      (hr : Reachable base pages st live) (ha : a ∈ live)
      (h : c4rtVaddrFree calloc st a.ptr = some st') : Reachable base pages st' (live.erase a)

/-- The size of an allocation, rounded up to whole pages. -/
def roundUp (size : ℕ) : ℕ := (size + (pageSize - 1)) / pageSize * pageSize

/-- What a region looks like between two calls. `L` and `F` are the vnodes in the two trees, in
order, and `ns` the records of `L`. -/
structure RegionOk (base pages : ℕ) (st : Region) (live : List Live) (L F : List Ptr)
    (ns : List Vnode) : Prop where
  layout : (inorder st.layout.fuel st.mem st.layout.root).map (List.map Item.data) = some L
  freeNodes :
    (inorder st.freeNodes.fuel st.mem st.freeNodes.root).map (List.map Item.data) = some F
  records : L.mapM st.vmem.get = some ns
  tiles : Tiles Vnode.offset Vnode.size 0 ns pages
  free_once : F.Nodup
  free_iff : ∀ v, v ∈ F ↔ v ∈ L ∧ ∃ n, st.vmem.get v = some n ∧ n.isFree
  free_sorted : Pair.Sorted (vnodeGetSize st.vmem) F
  merged : ns.IsChain fun a b => ¬ (a.isFree ∧ b.isFree)
  live_once : (live.map Live.ptr).Nodup
  live_iff : (live.map Live.ptr).Perm
    ((ns.filter fun n => !n.isFree).map fun n => base + n.offset * pageSize)
  sizes : ∀ a ∈ live, c4rtVaddrSize st a.ptr = some (roundUp a.size)
  inside : ∀ a ∈ live, base ≤ a.ptr ∧ a.ptr + roundUp a.size ≤ base + pages * pageSize
  disjoint : live.Pairwise fun a b =>
    a.ptr + roundUp a.size ≤ b.ptr ∨ b.ptr + roundUp b.size ≤ a.ptr

/-! ## The public functions -/

theorem numPages_bounds {size : ℕ} (h : 1 ≤ size ∧ size < 2 ^ 32) :
    0 < numPages size ∧ numPages size ≤ 2 ^ 20 := by
  unfold numPages pageSize
  split <;> omega

theorem roundUp_eq (size : ℕ) : roundUp size = numPages size * pageSize := by
  unfold roundUp numPages pageSize
  split <;> omega

theorem pageOffset_eq {st : Region} {o : ℕ} (h : o < 2 ^ 20) :
    pageOffset st (st.base + o * pageSize) = o := by
  unfold pageOffset pageSize
  omega

section Public

variable {st : Region} {L : List Block} {F : List Ptr} {pages : ℕ}

/-- `c4rt_vaddr_region_create`. -/
theorem c4rtVaddrRegionCreate_laid (calloc : Calloc) {mem : Mem} (vmem : VMem) (base : ℕ)
    (hm : SentinelOk mem) (hpos : 0 < pages) (hpages : pages ≤ 2 ^ 20) :
    ∃ st F v, c4rtVaddrRegionCreate calloc mem vmem base pages = some st ∧ st.base = base ∧
      Laid st [⟨⟨pages, 0, true⟩, v⟩] F pages := by
  set v := calloc.vnode.pick vmem with hv
  set b : Block := ⟨⟨pages, 0, true⟩, v⟩ with hb
  set vm := vmem.set v b.toVnode with hvm
  have hg : vm.get v = some b.toVnode := Store.get_set_self _ (calloc.vnode.ne_zero _) _
  have hst : Stored vm [b] := by
    intro c hc
    obtain rfl := List.mem_singleton.1 hc
    exact ⟨hg, by simp [hb], hpages⟩
  have hix : Indexed ⟨mem, vm, andtreeInit, andtreeInit, base⟩ [] [] :=
    ⟨.nil, .nil, andtreeInit_holds hm, andtreeInit_holds hm, by simp, rfl, rfl⟩
  obtain ⟨st₁, hst₁, ⟨hvm₁, hbase₁⟩, hix₁⟩ := hix.insertLayout calloc (List.Perm.refl [b]) hst
    (List.pairwise_singleton _ _) (List.nil_sublist _)
  have hok : SizesOk st₁.vmem [v] := hvm₁ ▸ hst.sizesOk fun w hw => by simpa [hb] using hw
  obtain ⟨st₂, F, hst₂, ⟨hvm₂, hbase₂⟩, hix₂, hF, hsort⟩ :=
    hix₁.insertFree calloc List.Pairwise.nil hok
  refine ⟨st₂, F, v, ?_, hbase₂.trans hbase₁, hix₂, ?_, ⟨rfl, hpos, by simp⟩, hpages,
    by simpa using hF, hvm₂ ▸ hsort⟩
  · have hmk : makeVnode calloc.vnode vmem pages 0 = (vm, v) := rfl
    simp only [c4rtVaddrRegionCreate, hmk]
    exact (congrArg (Option.bind · _) hst₁).trans hst₂
  · intro c hc
    obtain rfl := List.mem_singleton.1 hc
    rw [hvm₂, hvm₁]
    exact hg

/-- The search for a block by its offset. -/
theorem Laid.findOffset (h : Laid st L F pages) {b : Block} (hb : b ∈ L) :
    ∃ p n, andtreeFindKey (vnodeGetOffset st.vmem) st.mem st.layout (toInt b.offset) = some p ∧
      p ≠ null ∧ st.mem.get p = some n ∧ n.data = b.id := by
  have hkey : toInt b.offset = b.offset := toInt_eq (h.stored b hb).2.1
  have hfit : Pair.Fits (vnodeGetOffset st.vmem) (toInt b.offset) (L.map Block.id) :=
    h.stored.fits (by have := (h.stored b hb).2.1; omega)
  obtain ⟨p, hp, ⟨hp0, n, hn, hnL, hnkey⟩ | ⟨rfl, hnone⟩⟩ :=
    Pair.findKey h.indexed (h.stored.sorted h.increasing) hfit
  · obtain ⟨c, hc, hcn⟩ := List.mem_map.1 hnL
    rw [← hcn, h.stored.getOffset hc, hkey] at hnkey
    obtain rfl := h.increasing.eq_of_offset hc hb (by omega)
    exact ⟨p, n, hp, hp0, hn, hcn.symm⟩
  · refine absurd ?_ (hnone b.id (List.mem_map_of_mem hb))
    rw [h.stored.getOffset hb, hkey]

/-- The pointer to a block. -/
theorem Laid.pageOffset_eq (h : Laid st L F pages) {b : Block} (hb : b ∈ L) :
    pageOffset st (st.base + b.offset * pageSize) = b.offset := by
  have hbd := h.tiles.bounds hb
  have hp := h.pages_le
  exact Addrman.pageOffset_eq (by omega)

/-- `c4rt_vaddr_size`. -/
theorem c4rtVaddrSize_laid (h : Laid st L F pages) {b : Block} (hb : b ∈ L)
    (hsize : b.size < 2 ^ 20) :
    c4rtVaddrSize st (st.base + b.offset * pageSize) = some (b.size * pageSize) := by
  obtain ⟨p, n, hp, hp0, hn, hnb⟩ := h.findOffset hb
  have hlt : b.size * pageSize < 2 ^ 32 := by
    unfold pageSize
    omega
  simp only [c4rtVaddrSize, h.pageOffset_eq hb, hp, if_neg hp0, hn, hnb, h.held b hb,
    Option.bind_eq_bind, Option.bind_some, Option.pure_def, Nat.mod_eq_of_lt hlt]

/-- `c4rt_vaddr_free` of a block in use. -/
theorem c4rtVaddrFree_laid {xs ys : List Block} {b : Block}
    (h : Laid st (xs ++ b :: ys) F pages) (calloc : Calloc) (hb : b.isFree = false)
    (hmer : Merged (xs ++ b :: ys)) :
    ∃ st' F' L', c4rtVaddrFree calloc st (st.base + b.offset * pageSize) = some st' ∧
      st'.base = st.base ∧ Laid st' L' F' pages ∧ Merged L' ∧ inUse L' = inUse (xs ++ ys) := by
  have hbL : b ∈ xs ++ b :: ys := by simp
  obtain ⟨p, n, hp, hp0, hn, hnb⟩ := h.findOffset hbL
  obtain ⟨st', F', L', hfree, hrest⟩ := freeVnode_laid h calloc hb hmer
  refine ⟨st', F', L', ?_, hrest⟩
  simp [c4rtVaddrFree, h.pageOffset_eq hbL, hp, hp0, hn, hnb, hfree]

/-- `c4rt_vaddr_alloc`. -/
theorem c4rtVaddrAlloc_laid (h : Laid st L F pages) (hmer : Merged L) (calloc : Calloc) {size : ℕ}
    (hsize : 1 ≤ size ∧ size < 2 ^ 32) (hend : st.base + pages * pageSize ≤ 2 ^ 32) :
    (c4rtVaddrAlloc calloc st size = some (st, null) ∧
      ∀ c ∈ L, c.isFree → c.size < numPages size) ∨
    ∃ st' F' L' b, c4rtVaddrAlloc calloc st size = some (st', st.base + b.offset * pageSize) ∧
      st'.base = st.base ∧ Laid st' L' F' pages ∧ Merged L' ∧ b.size = numPages size ∧
      (inUse L').Perm (b :: inUse L) ∧
      ∃ c ∈ L, c.isFree ∧ c.offset = b.offset ∧ numPages size ≤ c.size ∧
        ∀ c' ∈ L, c'.isFree → numPages size ≤ c'.size → c.size ≤ c'.size := by
  obtain ⟨hpos, hle⟩ := numPages_bounds hsize
  rcases allocVnode_laid h calloc hpos hle with
    ⟨halloc, hnone⟩ | ⟨xs, b, ys, st', F', l, rfl, hb, hle, hmin, halloc, hbase, hto, hlaid⟩
  · exact .inl ⟨by simp [c4rtVaddrAlloc, halloc], hnone⟩
  · obtain ⟨hmer', huse⟩ := hto.merged hb hmer
    have hbd := h.tiles.bounds (b := b) (by simp)
    have htaken : b.taken (numPages size) ∈ xs ++ l ++ ys := by
      rcases hto with ⟨-, rfl⟩ | ⟨-, v, rfl⟩ <;> simp
    have hg : st'.vmem.get b.id = some (b.taken (numPages size)).toVnode := hlaid.held _ htaken
    have hb0 := Store.ne_zero_of_get hg
    have hlt : st.base + b.offset * pageSize < 2 ^ 32 := by
      unfold pageSize at *
      omega
    refine .inr ⟨st', F', _, b.taken (numPages size), ?_, hbase, hlaid, hmer', rfl, ?_, b, by simp,
      hb, rfl, hle, hmin⟩
    · simp only [c4rtVaddrAlloc, halloc, Option.bind_eq_bind, Option.bind_some, if_neg hb0, hg,
        hbase, Option.pure_def, Block.taken, Nat.mod_eq_of_lt hlt]
    · rw [huse, inUse_append, inUse_cons_free hb]
      exact List.perm_middle

end Public

/-! ## The invariant of the runs -/

/-- The blocks of a region, no two free neighbours, and the blocks in use as live allocations. -/
def Inv (base pages : ℕ) (st : Region) (live : List Live) (L : List Block) (F : List Ptr) : Prop :=
  Laid st L F pages ∧ Merged L ∧ st.base = base ∧
    (live.map fun a => (a.ptr, numPages a.size)).Perm
      ((inUse L).map fun b => (base + b.offset * pageSize, b.size))

section Runs

variable {base pages : ℕ} {st : Region} {live : List Live} {L : List Block} {F : List Ptr}

/-- A live allocation is a block in use. -/
theorem Inv.exists_block (h : Inv base pages st live L F) {a : Live} (ha : a ∈ live) :
    ∃ b ∈ L, b.isFree = false ∧ a.ptr = base + b.offset * pageSize ∧ b.size = numPages a.size := by
  have hmem := h.2.2.2.mem_iff.1 (List.mem_map_of_mem ha)
  obtain ⟨b, hb, he⟩ := List.mem_map.1 hmem
  rw [Prod.mk.injEq] at he
  exact ⟨b, (mem_inUse.1 hb).1, (mem_inUse.1 hb).2, he.1.symm, he.2⟩

/-- One allocation: it fails, or it takes a block. -/
theorem Inv.alloc_cases (h : Inv base pages st live L F) (calloc : Calloc) {size : ℕ}
    (hsize : 1 ≤ size ∧ size < 2 ^ 32) (hend : base + pages * pageSize ≤ 2 ^ 32) :
    c4rtVaddrAlloc calloc st size = some (st, null) ∨
    ∃ st' ptr L' F', c4rtVaddrAlloc calloc st size = some (st', ptr) ∧ base ≤ ptr ∧
      Inv base pages st' (⟨ptr, size⟩ :: live) L' F' := by
  obtain ⟨hlaid, hmer, rfl, hlive⟩ := h
  rcases c4rtVaddrAlloc_laid hlaid hmer calloc hsize hend with
    ⟨halloc, -⟩ | ⟨st', F', L', b, halloc, hbase', hlaid', hmer', hb, huse, -⟩
  · exact .inl halloc
  · refine .inr ⟨st', st.base + b.offset * pageSize, L', F', halloc, Nat.le_add_right _ _,
      hlaid', hmer', hbase', ?_⟩
    rw [List.map_cons]
    refine (List.Perm.cons _ hlive).trans ?_
    rw [← hb]
    exact ((huse.map fun b : Block => (st.base + b.offset * pageSize, b.size)).symm)

/-- One allocation, in a region that does not start at address `0`. -/
theorem Inv.alloc (h : Inv base pages st live L F) (calloc : Calloc) {size : ℕ}
    (hsize : 1 ≤ size ∧ size < 2 ^ 32) (hbase : 1 ≤ base)
    (hend : base + pages * pageSize ≤ 2 ^ 32) :
    ∃ st' ptr L' F', c4rtVaddrAlloc calloc st size = some (st', ptr) ∧
      Inv base pages st' (if ptr = null then live else ⟨ptr, size⟩ :: live) L' F' := by
  rcases h.alloc_cases calloc hsize hend with halloc | ⟨st', ptr, L', F', halloc, hle, hinv⟩
  · exact ⟨st, null, L, F, halloc, h⟩
  · refine ⟨st', ptr, L', F', halloc, ?_⟩
    have hne : ptr ≠ null := Nat.ne_of_gt (Nat.lt_of_lt_of_le hbase hle)
    rwa [if_neg hne]

/-- One release. -/
theorem Inv.free (h : Inv base pages st live L F) (calloc : Calloc) {a : Live} (ha : a ∈ live) :
    ∃ st' L' F', c4rtVaddrFree calloc st a.ptr = some st' ∧
      Inv base pages st' (live.erase a) L' F' := by
  obtain ⟨b, hbL, hb, hptr, hsz⟩ := h.exists_block ha
  obtain ⟨hlaid, hmer, rfl, hlive⟩ := h
  obtain ⟨xs, ys, rfl⟩ := List.append_of_mem hbL
  obtain ⟨st', F', L', hfree, hbase', hlaid', hmer', huse⟩ :=
    c4rtVaddrFree_laid hlaid calloc hb hmer
  refine ⟨st', L', F', hptr ▸ hfree, hlaid', hmer', hbase', ?_⟩
  have h₁ := ((List.perm_cons_erase ha).map fun a : Live => (a.ptr, numPages a.size)).symm.trans
    hlive
  have h₂ : (inUse (xs ++ b :: ys)).Perm (b :: inUse (xs ++ ys)) := by
    rw [inUse_append, inUse_cons_used hb, inUse_append]
    exact List.perm_middle
  have h₃ := h₁.trans (h₂.map fun b : Block => (st.base + b.offset * pageSize, b.size))
  rw [List.map_cons, List.map_cons, hptr, ← hsz] at h₃
  rw [huse]
  exact h₃.cons_inv

/-- A new region. -/
theorem Inv.create {calloc : Calloc} {mem : Mem} {vmem : VMem} (hpos : 1 ≤ pages)
    (hend : base + pages * pageSize ≤ 2 ^ 32) (hm : SentinelOk mem)
    (hc : c4rtVaddrRegionCreate calloc mem vmem base pages = some st) :
    ∃ L F, Inv base pages st [] L F := by
  have hpages : pages ≤ 2 ^ 20 := by
    unfold pageSize at hend
    omega
  obtain ⟨st', F, v, heq, hb, hlaid⟩ :=
    c4rtVaddrRegionCreate_laid calloc vmem base hm hpos hpages
  obtain rfl := Option.some.inj (hc.symm.trans heq)
  exact ⟨_, F, hlaid, List.isChain_singleton _, hb, List.Perm.nil⟩

/-- **Every run keeps the invariant.** -/
theorem Reachable.inv (h : Reachable base pages st live) (hpos : 1 ≤ pages) (hbase : 1 ≤ base)
    (hend : base + pages * pageSize ≤ 2 ^ 32) : ∃ L F, Inv base pages st live L F := by
  induction h with
  | create calloc mem vmem hm hc => exact Inv.create hpos hend hm hc
  | alloc calloc size _ hsize halloc ih =>
    obtain ⟨L, F, hinv⟩ := ih
    obtain ⟨st₁, p, L', F', heq, hinv'⟩ := hinv.alloc calloc hsize hbase hend
    obtain ⟨rfl, rfl⟩ := Prod.mk.inj (Option.some.inj (halloc.symm.trans heq))
    exact ⟨L', F', hinv'⟩
  | free calloc _ ha hfree ih =>
    obtain ⟨L, F, hinv⟩ := ih
    obtain ⟨st₁, L', F', heq, hinv'⟩ := hinv.free calloc ha
    obtain rfl := Option.some.inj (hfree.symm.trans heq)
    exact ⟨L', F', hinv'⟩

/-- The pointers and sizes of two blocks that do not overlap. -/
def Apart (p q : ℕ × ℕ) : Prop :=
  p.1 + p.2 * pageSize ≤ q.1 ∨ q.1 + q.2 * pageSize ≤ p.1

theorem Inv.apart (h : Inv base pages st live L F) :
    (live.map fun a => (a.ptr, numPages a.size)).Pairwise Apart := by
  obtain ⟨hlaid, -, rfl, hlive⟩ := h
  have hsymm : ∀ {p q : ℕ × ℕ}, Apart p q → Apart q p := fun h => h.symm
  rw [hlive.pairwise_iff hsymm, List.pairwise_map]
  refine List.Pairwise.imp (fun {a b} hab => .inl ?_) (hlaid.tiles.pairwise.filter _)
  dsimp only
  unfold pageSize
  omega

theorem Laid.records (h : Laid st L F pages) :
    (L.map Block.id).mapM st.vmem.get = some (L.map Block.toVnode) := by
  have hheld := h.held
  clear h
  induction L with
  | nil => rfl
  | cons b L ih =>
    rw [List.map_cons, List.mapM_cons, hheld b List.mem_cons_self,
      ih fun c hc => hheld c (List.mem_cons_of_mem _ hc)]
    rfl

theorem Laid.free_iff (h : Laid st L F pages) (v : Ptr) :
    v ∈ F ↔ v ∈ L.map Block.id ∧ ∃ n, st.vmem.get v = some n ∧ n.isFree := by
  rw [h.free.mem_iff, List.mem_map, List.mem_map]
  constructor
  · rintro ⟨b, hb, rfl⟩
    obtain ⟨hbL, hbf⟩ := List.mem_filter.1 hb
    exact ⟨⟨b, hbL, rfl⟩, b.toVnode, h.held b hbL, hbf⟩
  · rintro ⟨⟨b, hbL, rfl⟩, n, hn, hnf⟩
    rw [h.held b hbL, Option.some.injEq] at hn
    exact ⟨b, List.mem_filter.2 ⟨hbL, hn ▸ hnf⟩, rfl⟩

/-- The invariant in terms of the trees and vnodes in memory. -/
theorem Inv.regionOk (h : Inv base pages st live L F) (hbase : 1 ≤ base)
    (hend : base + pages * pageSize ≤ 2 ^ 32) :
    RegionOk base pages st live (L.map Block.id) F (L.map Block.toVnode) := by
  have hblock : ∀ a ∈ live, _ := fun a ha => h.exists_block ha
  have hapart := h.apart
  obtain ⟨hlaid, hmer, rfl, hlive⟩ := h
  have hpages : pages < 2 ^ 20 := by
    unfold pageSize at hend
    omega
  have hptrs := hlive.map Prod.fst
  rw [List.map_map, List.map_map] at hptrs
  have hinside : ∀ a ∈ live, ∃ b ∈ L, a.ptr = st.base + b.offset * pageSize ∧
      roundUp a.size = b.size * pageSize ∧ b.offset + b.size ≤ pages := by
    intro a ha
    obtain ⟨b, hbL, -, hptr, hsz⟩ := hblock a ha
    have := (hlaid.tiles.bounds hbL).2.1
    exact ⟨b, hbL, hptr, by rw [roundUp_eq, hsz], this⟩
  refine ⟨Pair.inorder_eq hlaid.indexed, Pair.inorder_eq hlaid.indexed.symm, hlaid.records,
    hlaid.tiles.congr (by simp), hlaid.free_nodup, hlaid.free_iff, hlaid.sorted, ?_, ?_, ?_,
    fun a ha => ?_, fun a ha => ?_, ?_⟩
  · exact (List.isChain_map _).2 hmer
  · -- live pointers are distinct since the blocks do not overlap
    rw [List.pairwise_map] at hapart
    rw [List.Nodup, List.pairwise_map]
    refine hapart.imp_of_mem fun {a b} ha hb hab e => ?_
    obtain ⟨c, hcL, -, -, hcs⟩ := hblock a ha
    obtain ⟨d, hdL, -, -, hds⟩ := hblock b hb
    have hc := (hlaid.tiles.bounds hcL).2.2
    have hd := (hlaid.tiles.bounds hdL).2.2
    unfold Apart pageSize at hab
    dsimp only at hab hc hd
    omega
  · rw [List.filter_map, List.map_map]
    exact hptrs
  · obtain ⟨b, hbL, hptr, hsz, hle⟩ := hinside a ha
    rw [hptr, hsz]
    exact c4rtVaddrSize_laid hlaid hbL (by omega)
  · obtain ⟨b, hbL, hptr, hsz, hle⟩ := hinside a ha
    rw [hptr, hsz]
    unfold pageSize
    omega
  · rw [List.pairwise_map] at hapart
    refine hapart.imp fun {a b} hab => ?_
    rw [roundUp_eq, roundUp_eq]
    exact hab

end Runs

/-- **The invariant of an address region.** In every state of a run the region is as `RegionOk`
says, and every further allocation and release returns. -/
theorem vaddr_region_ok {base pages : ℕ} {st : Region} {live : List Live} (hpos : 1 ≤ pages)
    (hbase : 1 ≤ base) (hend : base + pages * pageSize ≤ 2 ^ 32)
    (h : Reachable base pages st live) :
    (∃ L F ns, RegionOk base pages st live L F ns) ∧
      (∀ calloc size, 1 ≤ size → size < 2 ^ 32 → (c4rtVaddrAlloc calloc st size).isSome) ∧
      ∀ calloc, ∀ a ∈ live, (c4rtVaddrFree calloc st a.ptr).isSome := by
  obtain ⟨L, F, hinv⟩ := h.inv hpos hbase hend
  refine ⟨⟨_, F, _, hinv.regionOk hbase hend⟩, fun calloc size h₁ h₂ => ?_, fun calloc a ha => ?_⟩
  · obtain ⟨st', p, -, -, heq, -⟩ := hinv.alloc calloc ⟨h₁, h₂⟩ hbase hend
    simp [heq]
  · obtain ⟨st', -, -, heq, -⟩ := hinv.free calloc ha
    simp [heq]

/-- Allocators that take the first address above all records. -/
def Calloc.bump : Calloc := ⟨.bump, .bump⟩

/-- A memory with the sentinel alone. -/
def startMem : Mem := Store.empty.set sentinel ⟨null, sentinel, sentinel, 0, null⟩

theorem startMem_ok : SentinelOk startMem := ⟨_, _, rfl⟩

theorem vaddr_region_ok_general : ∃ st, Reachable 0xc0000000 0x10000 st [⟨0xc0002000, 1⟩] ∧
    ((∃ L F ns, RegionOk 0xc0000000 0x10000 st [⟨0xc0002000, 1⟩] L F ns) ∧
      (∀ calloc size, 1 ≤ size → size < 2 ^ 32 → (c4rtVaddrAlloc calloc st size).isSome) ∧
      ∀ calloc, ∀ a ∈ [(⟨0xc0002000, 1⟩ : Live)], (c4rtVaddrFree calloc st a.ptr).isSome) := by
  have h₀ : Reachable 0xc0000000 0x10000 _ [] := .create .bump startMem .empty startMem_ok rfl
  have h₁ := h₀.alloc .bump 5000 (by decide) rfl
  have h₂ := h₁.alloc .bump 1 (by decide) rfl
  have h₃ := h₂.free (a := ⟨0xc0000000, 5000⟩) .bump (by decide) rfl
  exact ⟨_, h₃, vaddr_region_ok (by decide) (by decide) (by decide) h₃⟩

/-- In a region that starts at address `0` the first allocation returns `NULL`, though it takes a
page: no live pointer goes with this page. -/
theorem not_regionOk_base_zero : 1 ≤ 1 ∧ 0 + 1 * pageSize ≤ 2 ^ 32 ∧ ∃ st live,
    Reachable 0 1 st live ∧ ¬ ∃ L F ns, RegionOk 0 1 st live L F ns := by
  have h₀ : Reachable 0 1 _ [] := .create .bump startMem .empty startMem_ok rfl
  have h₁ := h₀.alloc .bump 1 (by decide) rfl
  refine ⟨by decide, by decide, _, _, h₁, ?_⟩
  rintro ⟨L, F, ns, h⟩
  obtain rfl := Option.some.inj h.layout
  obtain rfl := Option.some.inj h.records
  have := h.live_iff.length_eq
  revert this
  decide

end C4OS.Addrman
