import C4OS.Addrman.Model
import C4OS.Andtree.Pair
import C4OS.Foundations.Tiling
import Mathlib.Data.List.Nodup

/-!
# The layout of a region

The vnodes of a region are a list of blocks, in the order of their offsets. `Laid st L F pages`
says that `layout` holds the blocks `L`, which tile the pages of the region, and that `free_nodes`
holds, in the order `F`, those of them that are free. The operations on the two trees are described
in these terms, then `split_vnode` (`splitVnode_laid`) and the joining half of `try_merge`
(`joinVnodes_laid`): what they do to the list of blocks.
-/

namespace C4OS.Addrman

open Foundations Andtree

/-- A vnode with its address. -/
structure Block extends Vnode where
  id : Ptr
  deriving DecidableEq

/-- The memory holds the blocks of a list, and their fields are in range: no region has more than
`2 ^ 20` pages. -/
def Stored (vm : VMem) (L : List Block) : Prop :=
  ∀ b ∈ L, vm.get b.id = some b.toVnode ∧ b.offset ≤ 2 ^ 20 ∧ b.size ≤ 2 ^ 20

/-- The offsets increase along a list. -/
def Increasing (L : List Block) : Prop := L.Pairwise fun a b => a.offset < b.offset

theorem Increasing.eq_of_offset {L : List Block} (h : Increasing L) {a b : Block} (ha : a ∈ L)
    (hb : b ∈ L) (hab : a.offset = b.offset) : a = b := by
  have hnd : (L.map fun b => b.offset).Nodup := by
    rw [List.Nodup, List.pairwise_map]
    exact h.imp fun hlt => Nat.ne_of_lt hlt
  exact List.inj_on_of_nodup_map hnd ha hb hab

/-- A list of vnodes with sizes in range. -/
def SizesOk (vm : VMem) (F : List Ptr) : Prop :=
  ∀ v ∈ F, 0 ≤ vnodeGetSize vm v ∧ vnodeGetSize vm v ≤ 2 ^ 20

theorem toInt_eq {n : ℕ} (h : n ≤ 2 ^ 20) : toInt n = n := by
  unfold toInt
  rw [Int.bmod_eq_of_le (by omega) (by omega)]

section Keys

variable {vm : VMem} {L : List Block} {b : Block}

theorem Stored.getOffset (h : Stored vm L) (hb : b ∈ L) : vnodeGetOffset vm b.id = b.offset := by
  obtain ⟨hg, ho, -⟩ := h b hb
  simp [vnodeGetOffset, hg, toInt_eq ho]

theorem Stored.getSize (h : Stored vm L) (hb : b ∈ L) : vnodeGetSize vm b.id = b.size := by
  obtain ⟨hg, -, hs⟩ := h b hb
  simp [vnodeGetSize, hg, toInt_eq hs]

theorem Stored.sizesOk (h : Stored vm L) {F : List Ptr} (hF : ∀ v ∈ F, v ∈ L.map Block.id) :
    SizesOk vm F := by
  intro v hv
  obtain ⟨b, hb, rfl⟩ := List.mem_map.1 (hF v hv)
  obtain ⟨-, -, hs⟩ := h b hb
  rw [h.getSize hb]
  omega

theorem Stored.fits (h : Stored vm L) {key : ℤ} (hk : 0 ≤ key ∧ key ≤ 2 ^ 20) :
    Pair.Fits (vnodeGetOffset vm) key (L.map Block.id) := by
  intro v hv
  obtain ⟨b, hb, rfl⟩ := List.mem_map.1 hv
  obtain ⟨-, ho, -⟩ := h b hb
  rw [h.getOffset hb]
  omega

theorem Stored.sorted (h : Stored vm L) (hL : Increasing L) :
    Pair.Sorted (vnodeGetOffset vm) (L.map Block.id) := by
  rw [Pair.Sorted, List.pairwise_map]
  refine hL.imp_of_mem fun ha hb hab => ?_
  rw [h.getOffset ha, h.getOffset hb]
  omega

theorem Stored.nodup (h : Stored vm L) (hL : Increasing L) : (L.map Block.id).Nodup := by
  rw [List.Nodup, List.pairwise_map]
  refine hL.imp_of_mem fun {a b} ha hb hab e => ?_
  have h₁ := h.getOffset ha
  have h₂ := h.getOffset hb
  rw [e] at h₁
  omega

theorem SizesOk.fits {F : List Ptr} (h : SizesOk vm F) {key : ℤ}
    (hk : 0 ≤ key ∧ key ≤ 2 ^ 20) : Pair.Fits (vnodeGetSize vm) key F := by
  intro v hv
  have := h v hv
  omega

end Keys

/-! ## The trees -/

section Trees

variable {st : Region} {L : List Block} {F : List Ptr}

/-- The trees of a region hold the blocks `L` and, in the tree of free vnodes, `F`. -/
def Indexed (st : Region) (L : List Block) (F : List Ptr) : Prop :=
  Pair st.mem st.layout st.freeNodes (L.map Block.id) F

/-- What the operations on the trees do not change. -/
def SameVnodes (st st' : Region) : Prop := st'.vmem = st.vmem ∧ st'.base = st.base

/-- Insertion into `layout`: the blocks are in the order of their offsets again. -/
theorem Indexed.insertLayout {T : List Block} {b : Block} (h : Indexed st L F) (calloc : Calloc)
    (hT : T.Perm (b :: L)) (hst : Stored st.vmem T) (hinc : Increasing T) (hsub : L.Sublist T) :
    ∃ st', st.insertLayout calloc b.id = some st' ∧ SameVnodes st st' ∧ Indexed st' T F := by
  have hb : b ∈ T := hT.mem_iff.2 List.mem_cons_self
  have hstL : Stored st.vmem L := fun c hc => hst c (hsub.subset hc)
  have hkey := hst.getOffset hb
  have hfit : Pair.Fits (vnodeGetOffset st.vmem) (vnodeGetOffset st.vmem b.id) (L.map Block.id) :=
    hstL.fits (by have := (hst b hb).2.1; omega)
  obtain ⟨m', t', a, xs, ys, heq, hpair, hxs, hsort⟩ :=
    Pair.insert h calloc.node b.id (hstL.sorted (hinc.sublist hsub)) hfit
  refine ⟨{ st with mem := m', layout := t' }, by simp [Region.insertLayout, heq], ⟨rfl, rfl⟩, ?_⟩
  -- both sequences are sorted, and they hold the same vnodes
  have hperm : (xs ++ b.id :: ys).Perm (T.map Block.id) := by
    refine List.perm_middle.trans ?_
    rw [← hxs]
    exact (hT.map Block.id).symm
  have hxT : xs ++ b.id :: ys = T.map Block.id := by
    refine hperm.eq_of_pairwise (fun u v hu hv huv hvu => ?_) hsort (hst.sorted hinc)
    obtain ⟨c, hc, rfl⟩ := List.mem_map.1 (hperm.mem_iff.1 hu)
    obtain ⟨d, hd, rfl⟩ := List.mem_map.1 hv
    rw [hst.getOffset hc, hst.getOffset hd] at huv hvu
    rw [hinc.eq_of_offset hc hd (by omega)]
  rw [Indexed, ← hxT]
  exact hpair

/-- Removal from `layout`. -/
theorem Indexed.removeLayout {b : Block} (h : Indexed st L F) (hst : Stored st.vmem L)
    (hinc : Increasing L) (hb : b ∈ L) :
    ∃ st', st.removeLayout b.id = some st' ∧ SameVnodes st st' ∧ Indexed st' (L.erase b) F := by
  have hkey := hst.getOffset hb
  have hnd := hst.nodup hinc
  obtain ⟨m', t', heq, hpair⟩ := Pair.removeData h (hst.sorted hinc)
    (hst.fits (by have := (hst b hb).2.1; omega)) hnd (List.mem_map_of_mem hb)
  refine ⟨{ st with mem := m', layout := t' }, by simp [Region.removeLayout, heq], ⟨rfl, rfl⟩, ?_⟩
  have herase : (L.map Block.id).erase b.id = (L.erase b).map Block.id := by
    obtain ⟨xs, ys, rfl⟩ := List.append_of_mem hb
    rw [List.map_append, List.map_cons, List.nodup_append] at hnd
    have hx : b.id ∉ xs.map Block.id := fun hm => hnd.2.2 _ hm b.id (by simp) rfl
    rw [List.map_append, List.map_cons, List.erase_append_right _ hx, List.erase_cons_head,
      List.erase_append_right _ fun hm => hx (List.mem_map_of_mem hm), List.erase_cons_head,
      List.map_append]
  rw [Indexed, ← herase]
  exact hpair

/-- Insertion into `free_nodes`. -/
theorem Indexed.insertFree {v : Ptr} (h : Indexed st L F) (calloc : Calloc)
    (hsort : Pair.Sorted (vnodeGetSize st.vmem) F) (hok : SizesOk st.vmem (v :: F)) :
    ∃ st' F', st.insertFree calloc v = some st' ∧ SameVnodes st st' ∧ Indexed st' L F' ∧
      F'.Perm (v :: F) ∧ Pair.Sorted (vnodeGetSize st.vmem) F' := by
  have hokF : SizesOk st.vmem F := fun w hw => hok w (List.mem_cons_of_mem _ hw)
  obtain ⟨m', t', a, xs, ys, heq, hpair, rfl, hsort'⟩ :=
    Pair.insert h.symm calloc.node v hsort (hokF.fits (hok v List.mem_cons_self))
  exact ⟨{ st with mem := m', freeNodes := t' }, xs ++ v :: ys, by simp [Region.insertFree, heq],
    ⟨rfl, rfl⟩, hpair.symm, List.perm_middle, hsort'⟩

/-- Removal from `free_nodes`. -/
theorem Indexed.removeFree {v : Ptr} (h : Indexed st L F)
    (hsort : Pair.Sorted (vnodeGetSize st.vmem) F) (hok : SizesOk st.vmem F) (hnd : F.Nodup)
    (hv : v ∈ F) :
    ∃ st', st.removeFree v = some st' ∧ SameVnodes st st' ∧ Indexed st' L (F.erase v) := by
  obtain ⟨m', t', heq, hpair⟩ := Pair.removeData h.symm hsort (hok.fits (hok v hv)) hnd hv
  exact ⟨{ st with mem := m', freeNodes := t' }, by simp [Region.removeFree, heq], ⟨rfl, rfl⟩,
    hpair.symm⟩

end Trees

/-! ## Layouts -/

/-- The blocks `L` of the region tile its pages, and `F` are the free ones. -/
structure Laid (st : Region) (L : List Block) (F : List Ptr) (pages : ℕ) : Prop where
  indexed : Indexed st L F
  held : ∀ b ∈ L, st.vmem.get b.id = some b.toVnode
  tiles : Tiles (fun b : Block => b.offset) (fun b => b.size) 0 L pages
  pages_le : pages ≤ 2 ^ 20
  free : F.Perm ((L.filter fun b => b.isFree).map Block.id)
  sorted : Pair.Sorted (vnodeGetSize st.vmem) F

theorem mem_of_free {L : List Block} {F : List Ptr}
    (hF : F.Perm ((L.filter fun b => b.isFree).map Block.id)) {v : Ptr} (hv : v ∈ F) :
    v ∈ L.map Block.id := by
  obtain ⟨c, hc, rfl⟩ := List.mem_map.1 (hF.mem_iff.1 hv)
  exact List.mem_map_of_mem (List.mem_filter.1 hc).1

namespace Laid

variable {st : Region} {L : List Block} {F : List Ptr} {pages : ℕ}

theorem stored (h : Laid st L F pages) : Stored st.vmem L := by
  intro b hb
  have hbd := h.tiles.bounds hb
  have hp := h.pages_le
  exact ⟨h.held b hb, by omega, by omega⟩

theorem increasing (h : Laid st L F pages) : Increasing L :=
  h.tiles.pairwise.imp_of_mem fun ha _ hab => by
    have := (h.tiles.bounds ha).2.2
    omega

theorem nodup (h : Laid st L F pages) : (L.map Block.id).Nodup := h.stored.nodup h.increasing

theorem free_mem (h : Laid st L F pages) {v : Ptr} (hv : v ∈ F) : v ∈ L.map Block.id :=
  mem_of_free h.free hv

theorem free_nodup (h : Laid st L F pages) : F.Nodup := by
  rw [h.free.nodup_iff]
  exact h.nodup.sublist ((List.filter_sublist).map _)

theorem sizesOk (h : Laid st L F pages) : SizesOk st.vmem F :=
  h.stored.sizesOk fun _ hv => h.free_mem hv

end Laid

theorem sorted_congr {f g : Ptr → ℤ} {F : List Ptr} (h : Pair.Sorted f F)
    (hfg : ∀ v ∈ F, g v = f v) : Pair.Sorted g F :=
  List.Pairwise.imp_of_mem (fun ha hb hab => by rwa [hfg _ ha, hfg _ hb]) h

theorem getSize_congr {vm vm' : VMem} {v : Ptr} (h : vm'.get v = vm.get v) :
    vnodeGetSize vm' v = vnodeGetSize vm v := by
  rw [vnodeGetSize, h, vnodeGetSize]

/-- A write to other vnodes keeps the order of the free ones. -/
theorem sorted_of_held {vm vm' : VMem} {L : List Block} {F : List Ptr}
    (h : Pair.Sorted (vnodeGetSize vm) F) (hF : ∀ v ∈ F, v ∈ L.map Block.id)
    (hg : ∀ c ∈ L, vm'.get c.id = vm.get c.id) : Pair.Sorted (vnodeGetSize vm') F := by
  refine sorted_congr h fun v hv => ?_
  obtain ⟨c, hc, rfl⟩ := List.mem_map.1 (hF v hv)
  exact getSize_congr (hg c hc)

theorem mem_insert {xs ys : List Block} {b c : Block} :
    c ∈ xs ++ b :: ys ↔ c = b ∨ c ∈ xs ++ ys := by
  simp only [List.mem_append, List.mem_cons]
  tauto

/-- The memory after a write to the vnode of one block. -/
theorem Stored.set {vm : VMem} {xs ys : List Block} {b : Block} (h : Stored vm (xs ++ ys))
    (hb0 : b.id ≠ 0) (hb : b.offset ≤ 2 ^ 20 ∧ b.size ≤ 2 ^ 20)
    (hne : ∀ c ∈ xs ++ ys, c.id ≠ b.id) : Stored (vm.set b.id b.toVnode) (xs ++ b :: ys) := by
  intro c hc
  rcases mem_insert.1 hc with rfl | hc
  · exact ⟨Store.get_set_self _ hb0 _, hb⟩
  · rw [Store.get_set_of_ne _ (hne c hc)]
    exact h c hc

theorem Stored.sizesOk_cons {vm : VMem} {xs ys : List Block} {b : Block} {F : List Ptr}
    (h : Stored vm (xs ++ b :: ys)) (hF : ∀ v ∈ F, v ∈ (xs ++ ys).map Block.id) :
    SizesOk vm (b.id :: F) := by
  refine h.sizesOk fun v hv => ?_
  rcases List.mem_cons.1 hv with rfl | hv
  · exact List.mem_map_of_mem (mem_insert.2 (.inl rfl))
  · obtain ⟨c, hc, rfl⟩ := List.mem_map.1 (hF v hv)
    exact List.mem_map_of_mem (mem_insert.2 (.inr hc))

/-- A new block among the free ones. -/
theorem cons_free {xs ys : List Block} {b : Block} {F F' : List Ptr}
    (hF : F.Perm (((xs ++ ys).filter fun b => b.isFree).map Block.id)) (hb : b.isFree)
    (hF' : F'.Perm (b.id :: F)) :
    F'.Perm (((xs ++ b :: ys).filter fun b => b.isFree).map Block.id) := by
  refine (hF'.trans (List.Perm.cons _ hF)).trans ?_
  rw [List.filter_append, List.filter_append, List.filter_cons_of_pos (by exact hb),
    List.map_append, List.map_append, List.map_cons]
  exact List.perm_middle.symm

/-- Taking a block out of the free ones. -/
theorem erase_free {xs ys : List Block} {b : Block} {F : List Ptr}
    (hF : F.Perm (((xs ++ b :: ys).filter fun b => b.isFree).map Block.id)) (hb : b.isFree) :
    (F.erase b.id).Perm (((xs ++ ys).filter fun b => b.isFree).map Block.id) := by
  have hmid : (((xs ++ b :: ys).filter fun b => b.isFree).map Block.id).Perm
      (b.id :: ((xs ++ ys).filter fun b => b.isFree).map Block.id) := by
    refine ((List.perm_middle.filter _).map _).trans ?_
    simp [hb]
  have := (hF.trans hmid).erase b.id
  rwa [List.erase_cons_head] at this

/-! ## Splitting a block -/

/-- The trees do not see a write to a vnode. -/
theorem Indexed.of_vmem {st : Region} {L : List Block} {F : List Ptr} (h : Indexed st L F)
    (vm : VMem) {L' : List Block} (hL : L'.map Block.id = L.map Block.id) :
    Indexed { st with vmem := vm } L' F := by
  rw [Indexed, hL]
  exact h

/-- A block with another size. -/
def Block.withSize (b : Block) (size : ℕ) : Block := ⟨⟨size, b.offset, b.isFree⟩, b.id⟩

/-- The first block of a split. -/
def Block.taken (b : Block) (size : ℕ) : Block := ⟨⟨size, b.offset, false⟩, b.id⟩

/-- What is left of a split. -/
def Block.rest (b : Block) (size : ℕ) (v : Ptr) : Block :=
  ⟨⟨b.size - size, b.offset + size, true⟩, v⟩

/-- The blocks after a split of `b`: all of it is taken, or a new block is left. -/
def SplitTo (b : Block) (size : ℕ) (l : List Block) : Prop :=
  (size = b.size ∧ l = [b.taken size]) ∨ (size < b.size ∧ ∃ v, l = [b.taken size, b.rest size v])

/-- The blocks in front of and behind a block have other addresses. -/
theorem ne_of_nodup {xs ys : List Block} {b c : Block}
    (h : ((xs ++ b :: ys).map Block.id).Nodup) (hc : c ∈ xs ++ ys) : c.id ≠ b.id := by
  intro e
  rw [List.map_append, List.map_cons, List.nodup_append, List.nodup_cons] at h
  rcases List.mem_append.1 hc with hc | hc
  · exact h.2.2 _ (List.mem_map_of_mem hc) b.id (by simp) e
  · exact h.2.1.1 (e ▸ List.mem_map_of_mem hc)

theorem increasing_replace {xs ys : List Block} {b b' : Block} (h : Increasing (xs ++ b :: ys))
    (hb : b'.offset = b.offset) : Increasing (xs ++ b' :: ys) := by
  rw [Increasing, List.pairwise_append, List.pairwise_cons] at h ⊢
  simpa only [List.mem_cons, forall_eq_or_imp, hb] using h

theorem increasing_insert {xs ys : List Block} {b c : Block} (h : Increasing (xs ++ b :: ys))
    (hbc : b.offset < c.offset) (hc : ∀ d ∈ ys, c.offset < d.offset) :
    Increasing (xs ++ b :: c :: ys) := by
  rw [Increasing, List.pairwise_append, List.pairwise_cons] at h ⊢
  obtain ⟨hx, ⟨hby, hy⟩, hxy⟩ := h
  refine ⟨hx, ⟨?_, List.pairwise_cons.2 ⟨hc, hy⟩⟩, fun x hx' d hd => ?_⟩
  · rintro d hd
    rcases List.mem_cons.1 hd with rfl | hd
    · exact hbc
    · exact hby d hd
  · have hxb := hxy x hx' b (by simp)
    rcases List.mem_cons.1 hd with rfl | hd
    · exact hxb
    rcases List.mem_cons.1 hd with rfl | hd
    · omega
    · exact hxy x hx' d (by simp [hd])

/-- The cut of a block that is larger than the size asked for. -/
theorem cutVnode_indexed {st : Region} {xs ys : List Block} {b : Block} {F : List Ptr} {size : ℕ}
    (h : Indexed st (xs ++ b :: ys) F) (calloc : Calloc) (hst : Stored st.vmem (xs ++ b :: ys))
    (hinc : Increasing (xs ++ b :: ys)) (hF : ∀ v ∈ F, v ∈ (xs ++ ys).map Block.id)
    (hsort : Pair.Sorted (vnodeGetSize st.vmem) F) (hpos : 0 < size) (hlt : size < b.size)
    (hend : b.offset + b.size ≤ 2 ^ 20) (hys : ∀ d ∈ ys, b.offset + b.size ≤ d.offset) :
    ∃ st' v F', cutVnode calloc st b.id size = some st' ∧ st'.base = st.base ∧
      (∀ c ∈ [b.withSize size, b.rest size v] ++ (xs ++ ys),
        st'.vmem.get c.id = some c.toVnode) ∧
      Indexed st' (xs ++ b.withSize size :: b.rest size v :: ys) F' ∧
      F'.Perm (v :: F) ∧ Pair.Sorted (vnodeGetSize st'.vmem) F' := by
  have hgb := (hst b (by simp)).1
  have hb0 := Store.ne_zero_of_get hgb
  have hne : ∀ c ∈ xs ++ ys, c.id ≠ b.id := fun c hc => ne_of_nodup (hst.nodup hinc) hc
  -- out of the layout
  obtain ⟨st₁, hst₁, ⟨hvm₁, hbase₁⟩, hix₁⟩ := h.removeLayout hst hinc (b := b) (by simp)
  have herase : (xs ++ b :: ys).erase b = xs ++ ys := by
    rw [List.erase_append_right, List.erase_cons_head]
    exact fun hm => hne b (List.mem_append_left _ hm) rfl
  rw [herase] at hix₁
  -- the new vnode
  set v := calloc.vnode.pick st.vmem with hv
  have hv0 : v ≠ 0 := calloc.vnode.ne_zero _
  have hfresh : st.vmem.get v = none := calloc.vnode.fresh _
  have hvL : ∀ c ∈ xs ++ b :: ys, c.id ≠ v := by
    intro c hc e
    rw [← e, (hst c hc).1] at hfresh
    cases hfresh
  have hvb : b.id ≠ v := hvL b (by simp)
  set vm := (st.vmem.set v (b.rest size v).toVnode).set b.id (b.withSize size).toVnode
    with hvm
  have hgv : vm.get v = some (b.rest size v).toVnode := by
    rw [Store.get_set_of_ne _ hvb.symm, Store.get_set_self _ hv0]
  have hgb' : vm.get b.id = some (b.withSize size).toVnode := Store.get_set_self _ hb0 _
  have hgo : ∀ c ∈ xs ++ ys, vm.get c.id = st.vmem.get c.id := by
    intro c hc
    rw [Store.get_set_of_ne _ (hne c hc), Store.get_set_of_ne _ (hvL c (mem_insert.2 (.inr hc)))]
  have hheld : ∀ c ∈ [b.withSize size, b.rest size v] ++ (xs ++ ys),
      vm.get c.id = some c.toVnode ∧ c.offset ≤ 2 ^ 20 ∧ c.size ≤ 2 ^ 20 := by
    intro c hc
    rw [List.mem_append, List.mem_cons, List.mem_singleton] at hc
    rcases hc with (rfl | rfl) | hc
    · exact ⟨hgb', by simp only [Block.withSize]; omega, by simp only [Block.withSize]; omega⟩
    · exact ⟨hgv, by simp only [Block.rest]; omega, by simp only [Block.rest]; omega⟩
    · rw [hgo c hc]
      exact hst c (mem_insert.2 (.inr hc))
  have hsizes : ((b.size + 2 ^ 32 - size) % 2 ^ 32 = b.size - size) ∧
      (b.offset + size) % 2 ^ 32 = b.offset + size := by omega
  -- the rest goes to the free vnodes
  have hsort₂ : Pair.Sorted (vnodeGetSize vm) F := sorted_of_held hsort hF hgo
  have hstored : ∀ {T : List Block}, (∀ c ∈ T, c ∈ [b.withSize size, b.rest size v] ++ (xs ++ ys)) →
      Stored vm T := fun hT c hc => hheld c (hT c hc)
  have hok₂ : SizesOk vm (v :: F) := Stored.sizesOk_cons (b := b.rest size v)
    (hstored (by simp; tauto)) hF
  obtain ⟨st₃, F', hst₃, ⟨hvm₃, hbase₃⟩, hix₃, hF', hsort₃⟩ :=
    (hix₁.of_vmem vm rfl).insertFree calloc hsort₂ hok₂
  -- both blocks go to the layout
  have hinc₄ : Increasing (xs ++ b.withSize size :: ys) := increasing_replace hinc rfl
  have hinc₅ : Increasing (xs ++ b.withSize size :: b.rest size v :: ys) := by
    refine increasing_insert hinc₄ ?_ fun d hd => ?_
    · simp only [Block.withSize, Block.rest]
      omega
    · have := hys d hd
      simp only [Block.rest]
      omega
  obtain ⟨st₄, hst₄, ⟨hvm₄, hbase₄⟩, hix₄⟩ := hix₃.insertLayout (b := b.withSize size) calloc
    List.perm_middle (hvm₃ ▸ hstored (by simp; tauto)) hinc₄
    ((List.Sublist.refl xs).append (List.sublist_cons_self _ _))
  obtain ⟨st₅, hst₅, ⟨hvm₅, hbase₅⟩, hix₅⟩ := hix₄.insertLayout (b := b.rest size v) calloc
    (T := xs ++ b.withSize size :: b.rest size v :: ys) (by
      refine List.perm_middle.trans ?_
      refine (List.Perm.cons _ List.perm_middle).trans ?_
      refine (List.Perm.swap _ _ _).trans (List.Perm.cons _ List.perm_middle.symm))
    (hvm₄ ▸ hvm₃ ▸ hstored (by simp; tauto)) hinc₅
    ((List.Sublist.refl xs).append (.cons_cons _ (List.sublist_cons_self _ _)))
  have hvm' : st₅.vmem = vm := by rw [hvm₅, hvm₄, hvm₃]
  refine ⟨st₅, v, F', ?_, ?_, ?_, hix₅, hF', hvm' ▸ hsort₃⟩
  · have hmk : makeVnode calloc.vnode st.vmem (b.size - size) (b.offset + size) =
        (st.vmem.set v (b.rest size v).toVnode, v) := rfl
    have hgb₂ : (st.vmem.set v (b.rest size v).toVnode).get b.id = some b.toVnode := by
      rw [Store.get_set_of_ne _ hvb, hgb]
    have hmod : (st.vmem.set v (b.rest size v).toVnode).modify b.id
        (fun n => { n with size := size }) = some vm := Store.modify_eq hgb₂ _
    simp only [cutVnode, hst₁, hvm₁, hgb, hsizes, hmk, Region.modifyVnode, hmod, hst₃,
      Option.bind_eq_bind, Option.bind_some, Option.pure_def]
    exact (congrArg (Option.bind · _) hst₄).trans hst₅
  · rw [hbase₅, hbase₄, hbase₃, ← hbase₁]
  · rw [hvm']
    exact fun c hc => (hheld c hc).1

/-- **`split_vnode`.** -/
theorem splitVnode_laid {st : Region} {xs ys : List Block} {b : Block} {F : List Ptr}
    {pages size : ℕ} (h : Laid st (xs ++ b :: ys) F pages) (calloc : Calloc) (hb : b.isFree)
    (hpos : 0 < size) (hle : size ≤ b.size) :
    ∃ st' F' l, splitVnode calloc st b.id size = some (st', b.id) ∧ st'.base = st.base ∧
      SplitTo b size l ∧ Laid st' (xs ++ l ++ ys) F' pages := by
  have hbL : b ∈ xs ++ b :: ys := by simp
  have hgb := h.held b hbL
  have hb0 := Store.ne_zero_of_get hgb
  have hnd := h.nodup
  have hFb : b.id ∈ F := by
    rw [h.free.mem_iff]
    exact List.mem_map_of_mem (List.mem_filter.2 ⟨hbL, hb⟩)
  -- out of the free vnodes
  obtain ⟨st₁, hst₁, ⟨hvm₁, hbase₁⟩, hix₁⟩ :=
    h.indexed.removeFree h.sorted h.sizesOk h.free_nodup hFb
  have hfree := erase_free h.free hb
  have hmod : st₁.modifyVnode b.id (fun n => { n with isFree := false }) =
      some { st₁ with vmem := st.vmem.set b.id ⟨b.size, b.offset, false⟩ } := by
    simp [Region.modifyVnode, hvm₁, Store.modify_eq hgb]
  set vm₂ := st.vmem.set b.id ⟨b.size, b.offset, false⟩ with hvm₂
  have hg₂ : ∀ v, v ≠ b.id → vm₂.get v = st.vmem.get v := fun v hv => Store.get_set_of_ne _ hv _
  have hgb₂ : vm₂.get b.id = some ⟨b.size, b.offset, false⟩ := Store.get_set_self _ hb0 _
  have hne : ∀ c ∈ xs ++ ys, c.id ≠ b.id := fun c hc => ne_of_nodup hnd hc
  set b₁ : Block := ⟨⟨b.size, b.offset, false⟩, b.id⟩ with hb₁
  have hix₂ : Indexed { st₁ with vmem := vm₂ } (xs ++ b₁ :: ys) (F.erase b.id) :=
    hix₁.of_vmem vm₂ (by simp [hb₁])
  have hstored : Stored st.vmem (xs ++ ys) := fun c hc => h.stored c (mem_insert.2 (.inr hc))
  have hstored₂ : Stored vm₂ (xs ++ b₁ :: ys) :=
    hstored.set (b := b₁) hb0 (h.stored b hbL).2 hne
  have hmem : ∀ v ∈ F.erase b.id, v ∈ (xs ++ ys).map Block.id := fun v hv => mem_of_free hfree hv
  have hsort₂ : Pair.Sorted (vnodeGetSize vm₂) (F.erase b.id) :=
    sorted_of_held (h.sorted.sublist List.erase_sublist) hmem fun c hc => hg₂ _ (hne c hc)
  obtain ⟨k, htx, hoff, hsz, hty⟩ := tiles_append.1 h.tiles
  dsimp only at hoff hsz hty
  by_cases heq : size = b.size
  · -- the block is taken whole
    refine ⟨{ st₁ with vmem := vm₂ }, F.erase b.id, [b.taken size], ?_, hbase₁,
      .inl ⟨heq, rfl⟩, ?_⟩
    · simp [splitVnode, hst₁, hmod, hgb₂, heq]
    · rw [List.append_assoc, List.singleton_append, heq]
      refine ⟨hix₂, fun c hc => (hstored₂ c hc).1, ?_, h.pages_le, ?_, hsort₂⟩
      · exact tiles_append.2 ⟨k, htx, hoff, hsz, hty⟩
      · rw [List.filter_append, List.filter_cons_of_neg (by simp [Block.taken]),
          ← List.filter_append]
        exact hfree
  · -- the block is cut
    have hbd := h.tiles.bounds hbL
    have hp := h.pages_le
    obtain ⟨st₃, v, F', hcut, hbase₃, hheld₃, hix₃, hF', hsort₃⟩ := cutVnode_indexed (b := b₁) hix₂
      calloc hstored₂ (increasing_replace h.increasing rfl) hmem hsort₂ hpos
      (Nat.lt_of_le_of_ne hle heq) (by simp only [hb₁]; omega) fun d hd => by
        have := (hty.bounds hd).1
        simp only [hb₁]
        omega
    refine ⟨st₃, F', [b.taken size, b.rest size v], ?_, hbase₃.trans hbase₁,
      .inr ⟨Nat.lt_of_le_of_ne hle heq, v, rfl⟩, ?_⟩
    · simp only [splitVnode, hst₁, hmod, hgb₂, Option.bind_eq_bind, Option.bind_some, ne_eq, heq,
        not_false_eq_true, if_true]
      exact congrArg (Option.bind · _) hcut
    · rw [List.append_assoc, List.cons_append, List.singleton_append]
      refine ⟨hix₃, fun c hc => hheld₃ c ?_, ?_, h.pages_le, ?_, hsort₃⟩
      · simp only [List.mem_append, List.mem_cons] at hc ⊢
        tauto
      · refine tiles_append.2 ⟨k, htx, hoff, hpos, ?_⟩
        refine ⟨?_, ?_, ?_⟩
        · simp only [Block.rest, Block.taken]
          omega
        · simp only [Block.rest]
          omega
        · rw [show k + (b.taken size).size + (b.rest size v).size = k + b.size by
            simp only [Block.rest, Block.taken]; omega]
          exact hty
      · refine (hF'.trans (List.Perm.cons v hfree)).trans ?_
        rw [List.filter_append, List.filter_append, List.filter_cons_of_neg (by simp [Block.taken]),
          List.filter_cons_of_pos (by simp [Block.rest]), List.map_append, List.map_append,
          List.map_cons]
        exact List.perm_middle.symm

/-! ## Joining two blocks -/

/-- **The joining half of `try_merge`.** -/
theorem joinVnodes_laid {st : Region} {xs ys : List Block} {a b : Block} {F : List Ptr}
    {pages : ℕ} (h : Laid st (xs ++ a :: b :: ys) F pages) (calloc : Calloc) (ha : a.isFree)
    (hb : b.isFree) :
    ∃ st' F', joinVnodes calloc st a.id b.id = some st' ∧ st'.base = st.base ∧
      Laid st' (xs ++ a.withSize (a.size + b.size) :: ys) F' pages := by
  have haL : a ∈ xs ++ a :: b :: ys := by simp
  have hbL : b ∈ xs ++ a :: b :: ys := by simp
  have hga := h.held a haL
  have hgb := h.held b hbL
  have ha0 := Store.ne_zero_of_get hga
  have hnd := h.nodup
  have hnea : ∀ c ∈ xs ++ b :: ys, c.id ≠ a.id := fun c hc => ne_of_nodup hnd hc
  have hneb : ∀ c ∈ xs ++ a :: ys, c.id ≠ b.id := by
    have hswap : (xs ++ [a]) ++ b :: ys = xs ++ a :: b :: ys := by simp
    rw [← hswap] at hnd
    intro c hc
    refine ne_of_nodup hnd ?_
    simpa using hc
  -- out of the layout and of the free vnodes
  obtain ⟨st₁, hst₁, ⟨hvm₁, hbase₁⟩, hix₁⟩ := h.indexed.removeLayout h.stored h.increasing hbL
  have herase : (xs ++ a :: b :: ys).erase b = xs ++ a :: ys := by
    rw [List.erase_append_right, List.erase_cons_tail, List.erase_cons_head]
    · simpa using fun e : a = b => hneb a (by simp) (by rw [e])
    · exact fun hm => hneb b (List.mem_append_left _ hm) rfl
  rw [herase] at hix₁
  have hFa : a.id ∈ F := by
    rw [h.free.mem_iff]
    exact List.mem_map_of_mem (List.mem_filter.2 ⟨haL, ha⟩)
  obtain ⟨st₂, hst₂, ⟨hvm₂, hbase₂⟩, hix₂⟩ := hix₁.removeFree (hvm₁ ▸ h.sorted)
    (hvm₁ ▸ h.sizesOk) h.free_nodup hFa
  have hfree₁ := erase_free h.free ha
  have hFb : b.id ∈ F.erase a.id := by
    rw [hfree₁.mem_iff]
    exact List.mem_map_of_mem (List.mem_filter.2 ⟨by simp, hb⟩)
  have hvm₂' : st₂.vmem = st.vmem := by rw [hvm₂, hvm₁]
  obtain ⟨st₃, hst₃, ⟨hvm₃, hbase₃⟩, hix₃⟩ := hix₂.removeFree
    (hvm₂' ▸ h.sorted.sublist List.erase_sublist)
    (hvm₂' ▸ fun v hv => h.sizesOk v (List.mem_of_mem_erase hv)) (h.free_nodup.erase _) hFb
  have hfree₂ := erase_free hfree₁ hb
  have hvm₃' : st₃.vmem = st.vmem := by rw [hvm₃, hvm₂']
  -- the lower vnode grows
  obtain ⟨k, htx, hoff, hsz, hoff', hsz', hty⟩ := tiles_append.1 h.tiles
  dsimp only at hoff hsz hoff' hsz' hty
  have hp := h.pages_le
  have hle := hty.le
  set vm := st.vmem.set a.id (a.withSize (a.size + b.size)).toVnode with hvm
  have hmod : st₃.modifyVnode a.id (fun n => { n with size := (n.size + b.size) % 2 ^ 32 }) =
      some { st₃ with vmem := vm } := by
    rw [Region.modifyVnode, hvm₃', Store.modify_eq hga, Nat.mod_eq_of_lt (by omega)]
    rfl
  have hg : ∀ c ∈ xs ++ ys, vm.get c.id = st.vmem.get c.id := fun c hc =>
    Store.get_set_of_ne _ (hnea c (mem_insert.2 (.inr hc))) _
  have hother : Stored st.vmem (xs ++ ys) := fun c hc =>
    h.stored c (mem_insert.2 (.inr (mem_insert.2 (.inr hc))))
  have hstored : Stored vm (xs ++ a.withSize (a.size + b.size) :: ys) := by
    refine hother.set (b := a.withSize (a.size + b.size)) ha0 ⟨(h.stored a haL).2.1, ?_⟩
      fun c hc => hnea c (mem_insert.2 (.inr hc))
    simp only [Block.withSize]
    omega
  have hmem : ∀ v ∈ (F.erase a.id).erase b.id, v ∈ (xs ++ ys).map Block.id :=
    fun v hv => mem_of_free hfree₂ hv
  have hsort : Pair.Sorted (vnodeGetSize vm) ((F.erase a.id).erase b.id) :=
    sorted_of_held (h.sorted.sublist (List.erase_sublist.trans List.erase_sublist)) hmem hg
  have hok : SizesOk vm (a.id :: (F.erase a.id).erase b.id) := hstored.sizesOk_cons hmem
  have hix₃' : Indexed { st₃ with vmem := vm } (xs ++ a.withSize (a.size + b.size) :: ys)
      ((F.erase a.id).erase b.id) := hix₃.of_vmem vm (by simp [Block.withSize])
  obtain ⟨st₄, F', hst₄, ⟨hvm₄, hbase₄⟩, hix₄, hF', hsort₄⟩ := hix₃'.insertFree calloc hsort hok
  refine ⟨st₄, F', ?_, ?_, hix₄, ?_, ?_, h.pages_le, ?_, hvm₄ ▸ hsort₄⟩
  · simp only [joinVnodes, hst₁, hst₂, hst₃, hvm₃', hgb, hmod, hst₄, Option.bind_eq_bind,
      Option.bind_some]
  · rw [hbase₄, ← hbase₁, ← hbase₂, ← hbase₃]
  · rw [hvm₄]
    exact fun c hc => (hstored c hc).1
  · refine tiles_append.2 ⟨k, htx, hoff, ?_, ?_⟩
    · simp only [Block.withSize]
      omega
    · rw [show k + (a.withSize (a.size + b.size)).size = k + a.size + b.size by
        simp only [Block.withSize]; omega]
      exact hty
  · exact cons_free (b := a.withSize (a.size + b.size)) hfree₂ ha hF'

end C4OS.Addrman
