import C4OS.Addrman.Runs

/-!
# Releases of addresses that are not allocated

`c4rt_vaddr_free` looks for the vnode that starts at the page of its argument, whatever the rest of
the address is and whether the vnode is in use or free. It changes nothing exactly when there is no
such vnode (`Laid.free_unchanged_iff`).

A run allocates, and frees any addresses (`Call`). The live allocations are those that were not
freed by their own address (`Call.run`). The run is `Right` when every release of an address that
is not live leaves the region as it is and no page belongs to two live allocations at any time. It
is, exactly when these releases go to pages at which no vnode starts (`vaddr_misfrees_right_iff`).

An address inside the first page of a block releases the block, and its pages are handed out again
(`vaddr_free_inside_block`); the address of a free block puts its vnode into the tree of free vnodes
once more (`freeVnode_of_free`).
-/

namespace C4OS.Addrman

open Foundations Andtree

/-- The two trees and the vnodes are as before. -/
structure Unchanged (st st' : Region) : Prop where
  layout : (inorder st'.layout.fuel st'.mem st'.layout.root).map (List.map Item.data) =
    (inorder st.layout.fuel st.mem st.layout.root).map (List.map Item.data)
  freeNodes : (inorder st'.freeNodes.fuel st'.mem st'.freeNodes.root).map (List.map Item.data) =
    (inorder st.freeNodes.fuel st.mem st.freeNodes.root).map (List.map Item.data)
  vnodes : ∀ v, st'.vmem.get v = st.vmem.get v

theorem Unchanged.refl (st : Region) : Unchanged st st := ⟨rfl, rfl, fun _ => rfl⟩

section Misfrees

variable {st st' : Region} {L L' xs ys : List Block} {b : Block} {F F' : List Ptr} {pages : ℕ}

/-- The search for a page at which no vnode starts. -/
theorem Laid.findPage_none (h : Laid st L F pages) {o : ℕ} (ho : o ≤ 2 ^ 20)
    (hnone : ∀ b ∈ L, b.offset ≠ o) :
    andtreeFindKey (vnodeGetOffset st.vmem) st.mem st.layout (toInt o) = some null := by
  have hkey : toInt o = o := toInt_eq ho
  have hfit : Pair.Fits (vnodeGetOffset st.vmem) (toInt o) (L.map Block.id) :=
    h.stored.fits (by omega)
  obtain ⟨p, hp, ⟨-, n, -, hnL, hnkey⟩ | ⟨rfl, -⟩⟩ :=
    Pair.findKey h.indexed (h.stored.sorted h.increasing) hfit
  · obtain ⟨c, hc, hcn⟩ := List.mem_map.1 hnL
    rw [← hcn, h.stored.getOffset hc, hkey] at hnkey
    exact absurd (by omega) (hnone c hc)
  · exact hp

/-- The blocks in use can be read off the records. -/
theorem length_inUse (L : List Block) :
    (inUse L).length = ((L.map Block.toVnode).filter fun n => !n.isFree).length := by
  rw [List.filter_map, List.length_map]
  rfl

/-- As many blocks are in use as before. -/
theorem Unchanged.length_inUse_eq (hu : Unchanged st st') (h : Laid st L F pages)
    (h' : Laid st' L' F' pages) : (inUse L').length = (inUse L).length := by
  have hids : L'.map Block.id = L.map Block.id := by
    have hlay := hu.layout
    rw [Pair.inorder_eq h.indexed, Pair.inorder_eq h'.indexed] at hlay
    exact Option.some.inj hlay
  have hget : st'.vmem.get = st.vmem.get := by
    funext v
    exact hu.vnodes v
  have hrec := h'.records
  rw [hids, hget, h.records] at hrec
  rw [length_inUse, length_inUse, ← Option.some.inj hrec]

/-- `free_vnode` of a free vnode: it is put into the tree of free vnodes once more, and is not
joined with its neighbours, which are in use. -/
theorem freeVnode_of_free (h : Laid st (xs ++ b :: ys) F pages) (calloc : Calloc) (hb : b.isFree)
    (hmer : Merged (xs ++ b :: ys)) :
    ∃ st' F', freeVnode calloc st b.id = some st' ∧ Indexed st' (xs ++ b :: ys) F' ∧
      F'.Perm (b.id :: F) := by
  have hbL : b ∈ xs ++ b :: ys := by simp
  have hgb := h.held b hbL
  have hb0 : b.id ≠ null := Store.ne_zero_of_get hgb
  set vm := st.vmem.set b.id b.toVnode with hvm
  have hmod : st.modifyVnode b.id (fun n => { n with isFree := true }) =
      some { st with vmem := vm } := by
    rw [Region.modifyVnode, Store.modify_eq hgb, hvm, ← hb]
    rfl
  -- the records are the same
  have hget : vm.get = st.vmem.get := by
    funext v
    by_cases hv : v = b.id
    · rw [hv, hvm, Store.get_set_self _ hb0, hgb]
    · exact Store.get_set_of_ne _ hv _
  have hstored : Stored vm (xs ++ b :: ys) := by
    unfold Stored
    rw [hget]
    exact h.stored
  have hsize : vnodeGetSize vm = vnodeGetSize st.vmem := by
    funext v
    exact getSize_congr (congrFun hget v)
  have hsort : Pair.Sorted (vnodeGetSize vm) F := by
    rw [hsize]
    exact h.sorted
  have hok : SizesOk vm (b.id :: F) := hstored.sizesOk fun v hv => by
    rcases List.mem_cons.1 hv with rfl | hv
    · exact List.mem_map_of_mem hbL
    · exact h.free_mem hv
  have hix : Indexed { st with vmem := vm } (xs ++ b :: ys) F := h.indexed.of_vmem vm rfl
  obtain ⟨st₁, F₁, hst₁, ⟨hvm₁, -⟩, hix₁, hF₁, -⟩ := hix.insertFree calloc hsort hok
  have hstored₁ : Stored st₁.vmem (xs ++ b :: ys) := by
    rw [hvm₁]
    exact hstored
  refine ⟨st₁, F₁, ?_, hix₁, hF₁⟩
  have hloop : mergeLoop calloc st₁.layout.fuel st₁ b.id = some st₁ := by
    obtain ⟨hx, hby, hxb⟩ := List.isChain_append.1 hmer
    rcases tryMerge_prev hstored₁ calloc with ⟨zs, a, rfl, ha, -⟩ | ⟨hprev, -⟩
    · exact absurd ⟨ha, hb⟩ (hxb a (by simp) b (by simp))
    rcases tryMerge_next hstored₁ calloc with ⟨c, zs, rfl, -, hc⟩ | ⟨hnext, -⟩
    · exact absurd ⟨hb, hc⟩ (hby.rel_head? (by simp))
    obtain ⟨n, hn⟩ : ∃ n, st₁.layout.fuel = n + 2 := ⟨st₁.layout.nodes, rfl⟩
    rw [hn, mergeLoop, if_neg hb0, neighbours_eq hix₁ hstored₁ h.increasing]
    simp [hprev, hnext, mergeLoop]
  simp only [freeVnode, hmod, hst₁, Option.bind_eq_bind, Option.bind_some]
  exact hloop

/-- `c4rt_vaddr_free` at the page of a block. -/
theorem c4rtVaddrFree_page (h : Laid st L F pages) (calloc : Calloc) (hb : b ∈ L) {p : Ptr}
    (hp : b.offset = pageOffset st p) :
    c4rtVaddrFree calloc st p = freeVnode calloc st b.id := by
  obtain ⟨q, n, hq, hq0, hn, hnb⟩ := h.findOffset hb
  simp [c4rtVaddrFree, ← hp, hq, hq0, hn, hnb]

theorem pageOffset_lt (st : Region) (p : Ptr) : pageOffset st p < 2 ^ 20 := by
  unfold pageOffset pageSize
  omega

/-- A release at the page of a block changes something. -/
theorem not_unchanged_of_page (h : Laid st L F pages) (hmer : Merged L) (calloc : Calloc)
    (hb : b ∈ L) {p : Ptr} (hp : b.offset = pageOffset st p) :
    ∃ st', c4rtVaddrFree calloc st p = some st' ∧ ¬ Unchanged st st' := by
  rw [c4rtVaddrFree_page h calloc hb hp]
  obtain ⟨xs, ys, rfl⟩ := List.append_of_mem hb
  cases hf : b.isFree with
  | true =>
    obtain ⟨st', F', hfree, hix, hF'⟩ := freeVnode_of_free h calloc hf hmer
    refine ⟨st', hfree, fun hu => ?_⟩
    have hlist := hu.freeNodes
    rw [Pair.inorder_eq h.indexed.symm, Pair.inorder_eq hix.symm] at hlist
    have hlen := hF'.length_eq
    rw [Option.some.inj hlist, List.length_cons] at hlen
    omega
  | false =>
    obtain ⟨st', F', L', hfree, -, hlaid, -, huse⟩ := freeVnode_laid h calloc hf hmer
    refine ⟨st', hfree, fun hu => ?_⟩
    have hlen := hu.length_inUse_eq h hlaid
    rw [huse, inUse_append, inUse_append, inUse_cons_used hf, List.length_append,
      List.length_append, List.length_cons] at hlen
    omega

/-- The vnodes of the layout. -/
def Region.vnodes (st : Region) : List Vnode :=
  ((inorder st.layout.fuel st.mem st.layout.root).bind fun items =>
    (items.map Item.data).mapM st.vmem.get).getD []

theorem Laid.vnodes (h : Laid st L F pages) : st.vnodes = L.map Block.toVnode := by
  obtain ⟨items, hitems, hids⟩ := Option.map_eq_some_iff.1 (Pair.inorder_eq h.indexed)
  rw [Region.vnodes, hitems, Option.bind_some, hids, h.records, Option.getD_some]

/-- No vnode of the layout, in use or free, starts at a page. -/
def NoVnodeAt (st : Region) (page : ℕ) : Prop := ∀ n ∈ st.vnodes, n.offset ≠ page

instance (st : Region) (page : ℕ) : Decidable (NoVnodeAt st page) :=
  inferInstanceAs (Decidable (∀ n ∈ st.vnodes, n.offset ≠ page))

/-- A release at a page where no vnode starts. -/
theorem Laid.free_eq (h : Laid st L F pages) (calloc : Calloc) {p : Ptr}
    (hp : NoVnodeAt st (pageOffset st p)) : c4rtVaddrFree calloc st p = some st := by
  have hnone : ∀ b ∈ L, b.offset ≠ pageOffset st p := by
    rw [NoVnodeAt, h.vnodes] at hp
    exact fun b hb => hp _ (List.mem_map_of_mem hb)
  simp [c4rtVaddrFree, h.findPage_none (pageOffset_lt st p).le hnone]

/-- A release returns, and it changes nothing exactly when no vnode starts at the page of the
address. -/
theorem Laid.free_unchanged_iff (h : Laid st L F pages) (hmer : Merged L) (calloc : Calloc)
    (p : Ptr) : ∃ st', c4rtVaddrFree calloc st p = some st' ∧
      (Unchanged st st' ↔ NoVnodeAt st (pageOffset st p)) := by
  by_cases hp : NoVnodeAt st (pageOffset st p)
  · exact ⟨st, h.free_eq calloc hp, iff_of_true (.refl st) hp⟩
  · have hblock : ∃ b ∈ L, b.offset = pageOffset st p := by
      by_contra hnone
      refine hp ?_
      rw [NoVnodeAt, h.vnodes, List.forall_mem_map]
      exact fun b hb heq => hnone ⟨b, hb, heq⟩
    obtain ⟨b, hb, hbp⟩ := hblock
    obtain ⟨st', hfree, hu⟩ := not_unchanged_of_page h hmer calloc hb hbp
    exact ⟨st', hfree, iff_of_false hu hp⟩

end Misfrees

/-! ## Runs with any releases -/

/-- A call of a run: an allocation of at least one byte, or a release of any address. -/
inductive Call
  | alloc (calloc : Calloc) (size : ℕ) (hsize : 1 ≤ size ∧ size < 2 ^ 32)
  | free (calloc : Calloc) (p : Ptr)

/-- What a call does, and the live allocations after it. -/
def Call.run (st : Region) (live : List Live) : Call → Option (Region × List Live)
  | .alloc calloc size _ => do
    let (st, ptr) ← c4rtVaddrAlloc calloc st size
    return (st, if ptr = null then live else ⟨ptr, size⟩ :: live)
  | .free calloc p => do
    let st ← c4rtVaddrFree calloc st p
    return (st, live.eraseP (·.ptr = p))

/-- The release of an address that is not the start of a live allocation, where the region and the
page of the address are as `P` says. -/
def Call.Misfree (st : Region) (live : List Live) (P : ℕ → Prop) : Call → Prop
  | .alloc .. => True
  | .free _ p => p ∉ live.map Live.ptr → P (pageOffset st p)

/-- No page belongs to two live allocations. -/
def Separate (live : List Live) : Prop :=
  live.Pairwise fun a b => a.ptr + roundUp a.size ≤ b.ptr ∨ b.ptr + roundUp b.size ≤ a.ptr

/-- The calls return, releases of addresses that are not allocated change nothing, and no page is
handed out twice. -/
def Right : Region → List Live → List Call → Prop
  | _, live, [] => Separate live
  | st, live, call :: calls => Separate live ∧ ∃ st' live', call.run st live = some (st', live') ∧
      call.Misfree st live (fun _ => Unchanged st st') ∧ Right st' live' calls

/-- The releases of addresses that are not allocated go to pages at which no vnode starts. -/
def Harmless : Region → List Live → List Call → Prop
  | _, _, [] => True
  | st, live, call :: calls => call.Misfree st live (NoVnodeAt st) ∧
      match call.run st live with
      | some (st', live') => Harmless st' live' calls
      | none => True

instance (st : Region) (live : List Live) (call : Call) :
    Decidable (call.Misfree st live (NoVnodeAt st)) :=
  match call with
  | .alloc .. => .isTrue trivial
  | .free _ p => inferInstanceAs (Decidable (p ∉ live.map Live.ptr → NoVnodeAt st (pageOffset st p)))

instance decidableHarmless :
    (st : Region) → (live : List Live) → (calls : List Call) → Decidable (Harmless st live calls)
  | _, _, [] => .isTrue trivial
  | st, live, call :: calls =>
    @instDecidableAnd _ _ _ <|
      match call.run st live with
      | some (st', live') => decidableHarmless st' live' calls
      | none => .isTrue trivial

section Runs

variable {base pages : ℕ} {st : Region} {live : List Live}

/-- The invariant of the runs that are right so far. Where the region starts at address `0` there
may be an allocation that the caller does not know of, since its pointer is `NULL`. -/
def Kept (base pages : ℕ) (st : Region) (live : List Live) : Prop :=
  ∃ all L F, Inv base pages st all L F ∧ live.Perm (all.filter fun a => a.ptr ≠ null)

theorem Kept.separate (h : Kept base pages st live) : Separate live := by
  obtain ⟨all, L, F, hinv, hlive⟩ := h
  have hsymm : ∀ {a b : Live}, a.ptr + roundUp a.size ≤ b.ptr ∨ b.ptr + roundUp b.size ≤ a.ptr →
      b.ptr + roundUp b.size ≤ a.ptr ∨ a.ptr + roundUp a.size ≤ b.ptr := fun h => h.symm
  have hall : Separate all := by
    refine (List.pairwise_map.1 hinv.apart).imp fun {a b} hab => ?_
    rw [roundUp_eq, roundUp_eq]
    exact hab
  exact (hlive.pairwise_iff hsymm).2 (hall.filter _)

theorem Kept.alloc (h : Kept base pages st live) (calloc : Calloc) {size : ℕ}
    (hsize : 1 ≤ size ∧ size < 2 ^ 32) (hend : base + pages * pageSize ≤ 2 ^ 32) :
    ∃ st' live', (Call.alloc calloc size hsize).run st live = some (st', live') ∧
      Kept base pages st' live' := by
  obtain ⟨all, L, F, hinv, hlive⟩ := h
  rcases hinv.alloc_cases calloc hsize hend with halloc | ⟨st', ptr, L', F', halloc, -, hinv'⟩
  · exact ⟨st, live, by simp [Call.run, halloc], all, L, F, hinv, hlive⟩
  · refine ⟨st', _, by simp only [Call.run, halloc]; rfl, _, L', F', hinv', ?_⟩
    by_cases hptr : ptr = null
    · simpa [hptr] using hlive
    · simpa [hptr] using hlive

/-- The release of a live allocation. -/
theorem Kept.free (h : Kept base pages st live) (calloc : Calloc) {p : Ptr}
    (hp : p ∈ live.map Live.ptr) :
    ∃ st' live', (Call.free calloc p).run st live = some (st', live') ∧
      Kept base pages st' live' := by
  obtain ⟨all, L, F, hinv, hlive⟩ := h
  obtain ⟨b, hb, hbp⟩ := List.mem_map.1 hp
  obtain ⟨a, l₁, l₂, -, ha, rfl, herase⟩ :=
    List.exists_of_eraseP (p := fun a : Live => a.ptr = p) hb (by simpa using hbp)
  obtain rfl : a.ptr = p := by simpa using ha
  obtain ⟨hall, hne⟩ : a ∈ all ∧ a.ptr ≠ null := by
    simpa using (hlive.mem_iff.1 (by simp) : a ∈ all.filter fun a => a.ptr ≠ null)
  obtain ⟨st', L', F', hfree, hinv'⟩ := hinv.free calloc hall
  refine ⟨st', _, by simp only [Call.run, hfree]; rfl, _, L', F', hinv', ?_⟩
  -- the same allocation is taken out of both lists
  have hperm := (List.perm_middle.symm.trans hlive).trans ((List.perm_cons_erase hall).filter _)
  rw [List.filter_cons_of_pos (by simpa using hne)] at hperm
  rw [herase]
  exact hperm.cons_inv

/-- The release of an address that is not allocated. -/
theorem Kept.misfree (h : Kept base pages st live) (calloc : Calloc) {p : Ptr}
    (hp : p ∉ live.map Live.ptr) :
    (∃ st', (Call.free calloc p).run st live = some (st', live) ∧
      (Unchanged st st' ↔ NoVnodeAt st (pageOffset st p))) ∧
    (NoVnodeAt st (pageOffset st p) →
      (Call.free calloc p).run st live = some (st, live)) := by
  obtain ⟨all, L, F, ⟨hlaid, hmer, -, -⟩, -⟩ := h
  have herase : live.eraseP (·.ptr = p) = live :=
    List.eraseP_of_forall_not fun a ha => by
      simpa using fun heq : a.ptr = p => hp (heq ▸ List.mem_map_of_mem ha)
  obtain ⟨st', hfree, hu⟩ := hlaid.free_unchanged_iff hmer calloc p
  refine ⟨⟨st', by simp [Call.run, hfree, herase], hu⟩, fun hnone => ?_⟩
  simp [Call.run, hlaid.free_eq calloc hnone, herase]

/-- A run from a state that keeps the invariant. -/
theorem Kept.right_iff (h : Kept base pages st live) (hend : base + pages * pageSize ≤ 2 ^ 32)
    (calls : List Call) : Right st live calls ↔ Harmless st live calls := by
  induction calls generalizing st live with
  | nil => exact iff_of_true h.separate trivial
  | cons call calls ih =>
    rw [Right, Harmless, and_iff_right h.separate]
    -- a call that keeps the invariant, with nothing to say about a misfree
    have hkeeps {st' live'} (hrun : call.run st live = some (st', live'))
        (hkept : Kept base pages st' live')
        (hmis : call.Misfree st live (fun _ => Unchanged st st') ↔
          call.Misfree st live (NoVnodeAt st)) :
        (∃ st' live', call.run st live = some (st', live') ∧
          call.Misfree st live (fun _ => Unchanged st st') ∧ Right st' live' calls) ↔
        call.Misfree st live (NoVnodeAt st) ∧ match call.run st live with
          | some (st', live') => Harmless st' live' calls
          | none => True := by
      simp only [hrun, Option.some.injEq, Prod.mk.injEq]
      constructor
      · rintro ⟨_, _, ⟨rfl, rfl⟩, hu, hright⟩
        exact ⟨hmis.1 hu, (ih hkept).1 hright⟩
      · rintro ⟨hnone, hharm⟩
        exact ⟨_, _, ⟨rfl, rfl⟩, hmis.2 hnone, (ih hkept).2 hharm⟩
    cases call with
    | alloc calloc size hsize =>
      obtain ⟨st', live', hrun, hkept⟩ := h.alloc calloc hsize hend
      exact hkeeps hrun hkept Iff.rfl
    | free calloc p =>
      by_cases hp : p ∈ live.map Live.ptr
      · obtain ⟨st', live', hrun, hkept⟩ := h.free calloc hp
        exact hkeeps hrun hkept (iff_of_true (absurd hp) (absurd hp))
      · obtain ⟨⟨st', hrun, hu⟩, hsame⟩ := h.misfree calloc hp
        by_cases hnone : NoVnodeAt st (pageOffset st p)
        · exact hkeeps (hsame hnone) h (iff_of_true (fun _ => .refl st) fun _ => hnone)
        · refine iff_of_false ?_ fun hharm => hnone (hharm.1 hp)
          rintro ⟨st'', live'', hrun', hu', -⟩
          obtain ⟨rfl, -⟩ := Prod.mk.inj (Option.some.inj (hrun.symm.trans hrun'))
          exact hnone (hu.1 (hu' hp))

end Runs

/-- **Releases of addresses that are not allocated.** For every region in the address space and
every run of allocations and releases of any addresses: all calls return, no release of an address
that is not the start of a live allocation changes anything and no page is ever handed out twice,
exactly when none of these releases goes to a page at which a vnode of the layout starts. -/
theorem vaddr_misfrees_right_iff {base pages : ℕ} (hpos : 1 ≤ pages)
    (hend : base + pages * pageSize ≤ 2 ^ 32) {calloc : Calloc} {mem : Mem} {vmem : VMem}
    {st : Region} (hm : SentinelOk mem)
    (hcreate : c4rtVaddrRegionCreate calloc mem vmem base pages = some st) (calls : List Call) :
    Right st [] calls ↔ Harmless st [] calls := by
  obtain ⟨L, F, hinv⟩ := Inv.create hpos hend hm hcreate
  exact Kept.right_iff ⟨[], L, F, hinv, .refl _⟩ hend calls

/-- Two pages and one page are allocated and the two are freed. Releases of the second one of these,
and of addresses outside of the region, go through before and after the next allocation. -/
def misfrees : List Call :=
  [.alloc .bump 5000 (by decide), .alloc .bump 1 (by decide), .free .bump 0xc0001000,
    .free .bump 0xc0000000, .free .bump 0x1000, .alloc .bump 8192 (by decide),
    .free .bump 0xc0001fff, .free .bump 0xd0000000]

theorem vaddr_misfrees_right_iff_general : ∃ st,
    c4rtVaddrRegionCreate .bump startMem .empty 0xc0000000 0x10000 = some st ∧
      Right st [] misfrees := by
  have hharm : ((c4rtVaddrRegionCreate .bump startMem .empty 0xc0000000 0x10000).map
      fun st => decide (Harmless st [] misfrees)) = some true := by decide +kernel
  obtain ⟨st, hst, hdec⟩ := Option.map_eq_some_iff.1 hharm
  exact ⟨st, hst, (vaddr_misfrees_right_iff (show 1 ≤ 0x10000 by decide)
    (show 0xc0000000 + 0x10000 * pageSize ≤ 2 ^ 32 by decide) startMem_ok hst _).2
    (of_decide_eq_true hdec)⟩

/-- The second byte of a block is not the start of an allocation, yet its release gives the block
back, and the next allocation returns the pointer that is still live. -/
theorem vaddr_free_inside_block : ∃ st st' st'',
    Reachable 0xc0000000 0x10000 st [⟨0xc0000000, 1⟩] ∧
      0xc0000001 ∉ [(⟨0xc0000000, 1⟩ : Live)].map Live.ptr ∧
      c4rtVaddrFree .bump st 0xc0000001 = some st' ∧ ¬ Unchanged st st' ∧
      c4rtVaddrAlloc .bump st' 1 = some (st'', 0xc0000000) := by
  have h₀ : Reachable 0xc0000000 0x10000 _ [] := .create .bump startMem .empty startMem_ok rfl
  have h₁ := h₀.alloc .bump 1 (by decide) rfl
  refine ⟨_, _, _, h₁, by decide, rfl, fun hu => ?_, rfl⟩
  have hfree := congrArg (Option.map Vnode.isFree) (hu.vnodes 1)
  revert hfree
  decide

end C4OS.Addrman
