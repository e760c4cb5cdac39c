import C4OS.Addrman.Layout
import Mathlib.Data.List.Chain

/-!
# Allocating and freeing blocks

`alloc_vnode` takes a block from the free ones (`allocVnode_laid`), and `free_vnode` gives one back
and joins it with its free neighbours until there is none left (`freeVnode_laid`). No two
neighbouring blocks are free before and after (`Merged`), and the blocks in use are as they should
be.
-/

namespace C4OS.Addrman

open Foundations Andtree

/-- No two neighbours are free. -/
def Merged (L : List Block) : Prop := L.IsChain fun a b => ¬ (a.isFree ∧ b.isFree)

/-- The blocks in use. -/
def inUse (L : List Block) : List Block := L.filter fun b => !b.isFree

@[simp] theorem inUse_append (L M : List Block) : inUse (L ++ M) = inUse L ++ inUse M :=
  List.filter_append ..

theorem inUse_cons_free {b : Block} (h : b.isFree) (L : List Block) :
    inUse (b :: L) = inUse L := by
  simp [inUse, h]

theorem inUse_cons_used {b : Block} (h : b.isFree = false) (L : List Block) :
    inUse (b :: L) = b :: inUse L := by
  simp [inUse, h]

theorem mem_inUse {L : List Block} {b : Block} : b ∈ inUse L ↔ b ∈ L ∧ b.isFree = false := by
  simp [inUse]

/-! ## `try_merge` -/

section TryMerge

variable {st : Region} {xs ys : List Block} {a b : Block} {F : List Ptr} {pages : ℕ}

theorem tryMerge_join (h : Laid st (xs ++ a :: b :: ys) F pages) (calloc : Calloc) (ha : a.isFree)
    (hb : b.isFree) :
    ∃ st' F', tryMerge calloc st a.id b.id = some (st', a.id) ∧ st'.base = st.base ∧
      Laid st' (xs ++ a.withSize (a.size + b.size) :: ys) F' pages := by
  obtain ⟨st', F', hjoin, hbase, hlaid⟩ := joinVnodes_laid h calloc ha hb
  have hga := h.held a (by simp)
  have hgb := h.held b (by simp)
  have hlt : a.offset < b.offset := by
    obtain ⟨-, hL, -⟩ := List.pairwise_append.1 h.increasing
    exact (List.pairwise_cons.1 hL).1 b (by simp)
  refine ⟨st', F', ?_, hbase, hlaid⟩
  simp [tryMerge, Store.ne_zero_of_get hga, Store.ne_zero_of_get hgb, hga, hgb, ha, hb, hlt, hjoin]

theorem tryMerge_null_left (calloc : Calloc) (v : Ptr) :
    tryMerge calloc st null v = some (st, null) := by
  simp [tryMerge]

theorem tryMerge_null_right (calloc : Calloc) (v : Ptr) :
    tryMerge calloc st v null = some (st, null) := by
  simp [tryMerge]

theorem tryMerge_used {L : List Block} (h : Stored st.vmem L) (calloc : Calloc) (ha : a ∈ L)
    (hb : b ∈ L) (hused : ¬ (a.isFree ∧ b.isFree)) :
    tryMerge calloc st a.id b.id = some (st, null) := by
  have hga := (h a ha).1
  have hgb := (h b hb).1
  have hcond : (!a.isFree || !b.isFree) = true := by
    cases ha' : a.isFree <;> cases hb' : b.isFree <;> simp_all
  have hne : ¬ (a.id = null ∨ b.id = null) :=
    not_or.2 ⟨Store.ne_zero_of_get hga, Store.ne_zero_of_get hgb⟩
  simp only [tryMerge, if_neg hne, hga, hgb, Option.bind_eq_bind, Option.bind_some, hcond, if_true,
    Option.pure_def]

end TryMerge

/-! ## The loop of `free_vnode` -/

/-- The neighbours of a block in the layout. -/
theorem neighbours_eq {st : Region} {xs ys : List Block} {b : Block} {F : List Ptr}
    (h : Indexed st (xs ++ b :: ys) F) (hst : Stored st.vmem (xs ++ b :: ys))
    (hinc : Increasing (xs ++ b :: ys)) :
    neighbours st b.id = some ((xs.getLast?.map Block.id).getD null,
      (ys.head?.map Block.id).getD null) := by
  have hbL : b ∈ xs ++ b :: ys := by simp
  have hkey := hst.getOffset hbL
  obtain ⟨p, q, r, hp, hq, hr, hprev, hnext⟩ := Pair.neighbours h (hst.sorted hinc)
    (hst.fits (by have := (hst b hbL).2.1; omega)) (hst.nodup hinc) (List.map_append ..)
  have hprev' : nodeData st.mem q = some ((xs.getLast?.map Block.id).getD null) := by
    rcases hprev with ⟨rfl, hxs⟩ | ⟨hq0, n, zs, hn, hxs⟩
    · simp [nodeData, List.map_eq_nil_iff.1 hxs]
    · have := congrArg List.getLast? hxs
      rw [List.getLast?_map, List.getLast?_concat] at this
      simp [nodeData, hq0, hn, this]
  have hnext' : nodeData st.mem r = some ((ys.head?.map Block.id).getD null) := by
    rcases hnext with ⟨rfl, hys⟩ | ⟨hr0, n, zs, hn, hys⟩
    · simp [nodeData, List.map_eq_nil_iff.1 hys]
    · have := congrArg List.head? hys
      rw [List.head?_map, List.head?_cons] at this
      simp [nodeData, hr0, hn, this]
  simp [neighbours, hp, hq, hr, hprev', hnext']

/-- The attempt to join a block with the one before it. -/
theorem tryMerge_prev {st : Region} {xs ys : List Block} {b : Block}
    (h : Stored st.vmem (xs ++ b :: ys)) (calloc : Calloc) :
    (∃ zs a, xs = zs ++ [a] ∧ a.isFree ∧ b.isFree) ∨
      (tryMerge calloc st ((xs.getLast?.map Block.id).getD null) b.id = some (st, null) ∧
        ∀ a ∈ xs.getLast?, ¬ (a.isFree ∧ b.isFree)) := by
  rcases List.eq_nil_or_concat xs with rfl | ⟨zs, a, rfl⟩
  · exact .inr ⟨tryMerge_null_left calloc _, by simp⟩
  · rw [List.concat_eq_append] at h ⊢
    rw [List.getLast?_concat]
    by_cases hab : a.isFree ∧ b.isFree
    · exact .inl ⟨zs, a, rfl, hab⟩
    · refine .inr ⟨tryMerge_used h calloc (by simp) (by simp) hab, ?_⟩
      simpa using hab

/-- The attempt to join a block with the one after it. -/
theorem tryMerge_next {st : Region} {xs ys : List Block} {b : Block}
    (h : Stored st.vmem (xs ++ b :: ys)) (calloc : Calloc) :
    (∃ c zs, ys = c :: zs ∧ b.isFree ∧ c.isFree) ∨
      (tryMerge calloc st b.id ((ys.head?.map Block.id).getD null) = some (st, null) ∧
        ∀ c ∈ ys.head?, ¬ (b.isFree ∧ c.isFree)) := by
  cases ys with
  | nil => exact .inr ⟨tryMerge_null_right calloc _, by simp⟩
  | cons c zs =>
    by_cases hbc : b.isFree ∧ c.isFree
    · exact .inl ⟨c, zs, rfl, hbc⟩
    · refine .inr ⟨tryMerge_used h calloc (by simp) (by simp) hbc, ?_⟩
      simpa using hbc

/-- **The loop of `free_vnode`.** A free block is joined with its free neighbours. -/
theorem mergeLoop_laid {st : Region} {xs ys : List Block} {b : Block} {F : List Ptr}
    {pages fuel : ℕ} (h : Laid st (xs ++ b :: ys) F pages) (calloc : Calloc) (hb : b.isFree)
    (hxs : Merged xs) (hys : Merged ys) (hfuel : xs.length + ys.length + 1 < fuel) :
    ∃ st' F' L', mergeLoop calloc fuel st b.id = some st' ∧ st'.base = st.base ∧
      Laid st' L' F' pages ∧ Merged L' ∧ inUse L' = inUse (xs ++ ys) := by
  induction fuel generalizing st xs ys b F with
  | zero => omega
  | succ fuel ih =>
    have hb0 : b.id ≠ null := Store.ne_zero_of_get (h.held b (by simp))
    have hnb := neighbours_eq h.indexed h.stored h.increasing
    rcases tryMerge_prev h.stored calloc with ⟨zs, a, rfl, ha, -⟩ | ⟨hprev, hlast⟩
    · -- join with the block before
      have ha0 : a.id ≠ null := Store.ne_zero_of_get (h.held a (by simp))
      have h' : Laid st (zs ++ a :: b :: ys) F pages := by simpa using h
      obtain ⟨st₁, F₁, hjoin, hbase₁, hlaid₁⟩ := tryMerge_join h' calloc ha hb
      have hlen : zs.length + ys.length + 1 < fuel := by
        rw [List.length_append, List.length_singleton] at hfuel
        omega
      obtain ⟨st₂, F₂, L₂, hloop, hbase₂, hlaid₂, hmer₂, huse₂⟩ :=
        ih hlaid₁ ha hxs.left_of_append hys hlen
      refine ⟨st₂, F₂, L₂, ?_, hbase₂.trans hbase₁, hlaid₂, hmer₂, ?_⟩
      · rw [mergeLoop, if_neg hb0, hnb]
        simp only [List.getLast?_concat, Option.map_some, Option.getD_some, Option.bind_eq_bind,
          Option.bind_some, hjoin, ne_eq, ha0, not_false_eq_true, if_true]
        exact hloop
      · rw [huse₂, inUse_append, inUse_append, inUse_append, inUse_cons_free ha]
        simp [inUse]
    rcases tryMerge_next h.stored calloc with ⟨c, zs, rfl, -, hc⟩ | ⟨hnext, hhead⟩
    · -- join with the block after
      obtain ⟨st₁, F₁, hjoin, hbase₁, hlaid₁⟩ := tryMerge_join h calloc hb hc
      have hlen : xs.length + zs.length + 1 < fuel := by
        rw [List.length_cons] at hfuel
        omega
      obtain ⟨st₂, F₂, L₂, hloop, hbase₂, hlaid₂, hmer₂, huse₂⟩ :=
        ih hlaid₁ hb hxs hys.tail hlen
      refine ⟨st₂, F₂, L₂, ?_, hbase₂.trans hbase₁, hlaid₂, hmer₂, ?_⟩
      · rw [mergeLoop, if_neg hb0, hnb]
        simp only [List.head?_cons, Option.map_some, Option.getD_some, Option.bind_eq_bind,
          Option.bind_some, hprev, ne_eq, not_true_eq_false, if_false, hjoin]
        exact hloop
      · rw [huse₂, inUse_append, inUse_append, inUse_cons_free hc]
    · -- no free neighbour
      refine ⟨st, F, xs ++ b :: ys, ?_, rfl, h, ?_, ?_⟩
      · obtain ⟨n, rfl⟩ : ∃ n, fuel = n + 1 := ⟨fuel - 1, by omega⟩
        rw [mergeLoop, if_neg hb0, hnb]
        simp [hprev, hnext, mergeLoop]
      · refine hxs.append (hys.cons hhead) fun a ha c hc => ?_
        obtain rfl : b = c := by simpa using hc
        exact hlast a ha
      · rw [inUse_append, inUse_append, inUse_cons_free hb]

/-! ## `free_vnode` and `alloc_vnode` -/

/-- **`free_vnode`.** A block in use becomes free and is joined with its free neighbours. -/
theorem freeVnode_laid {st : Region} {xs ys : List Block} {b : Block} {F : List Ptr} {pages : ℕ}
    (h : Laid st (xs ++ b :: ys) F pages) (calloc : Calloc) (hb : b.isFree = false)
    (hmer : Merged (xs ++ b :: ys)) :
    ∃ st' F' L', freeVnode calloc st b.id = some st' ∧ st'.base = st.base ∧
      Laid st' L' F' pages ∧ Merged L' ∧ inUse L' = inUse (xs ++ ys) := by
  have hbL : b ∈ xs ++ b :: ys := by simp
  have hgb := h.held b hbL
  have hb0 := Store.ne_zero_of_get hgb
  have hne : ∀ c ∈ xs ++ ys, c.id ≠ b.id := fun c hc => ne_of_nodup h.nodup hc
  set b' : Block := ⟨⟨b.size, b.offset, true⟩, b.id⟩ with hb'
  set vm := st.vmem.set b.id b'.toVnode with hvm
  have hmod : st.modifyVnode b.id (fun n => { n with isFree := true }) =
      some { st with vmem := vm } := by
    rw [Region.modifyVnode, Store.modify_eq hgb]
    rfl
  have hg : ∀ c ∈ xs ++ ys, vm.get c.id = st.vmem.get c.id := fun c hc =>
    Store.get_set_of_ne _ (hne c hc) _
  have hother : Stored st.vmem (xs ++ ys) := fun c hc => h.stored c (mem_insert.2 (.inr hc))
  have hstored : Stored vm (xs ++ b' :: ys) := hother.set (b := b') hb0 (h.stored b hbL).2 hne
  -- the free vnodes are among the others
  have hfree : F.Perm (((xs ++ ys).filter fun b => b.isFree).map Block.id) := by
    have := h.free
    rwa [List.filter_append, List.filter_cons_of_neg (by simp [hb]), ← List.filter_append] at this
  have hF : ∀ v ∈ F, v ∈ (xs ++ ys).map Block.id := fun v hv => mem_of_free hfree hv
  have hsort : Pair.Sorted (vnodeGetSize vm) F := sorted_of_held h.sorted hF hg
  have hok : SizesOk vm (b.id :: F) := hstored.sizesOk_cons hF
  have hix : Indexed { st with vmem := vm } (xs ++ b' :: ys) F :=
    h.indexed.of_vmem vm (by simp [hb'])
  obtain ⟨st₁, F₁, hst₁, ⟨hvm₁, hbase₁⟩, hix₁, hF₁, hsort₁⟩ := hix.insertFree calloc hsort hok
  have hlaid : Laid st₁ (xs ++ b' :: ys) F₁ pages := by
    refine ⟨hix₁, ?_, ?_, h.pages_le, ?_, hvm₁ ▸ hsort₁⟩
    · rw [hvm₁]
      exact fun c hc => (hstored c hc).1
    · exact h.tiles.congr (by simp [hb'])
    · exact cons_free (b := b') hfree rfl hF₁
  have hfuel : xs.length + ys.length + 1 < st₁.layout.fuel := by
    rw [AndTree.fuel, Pair.nodes_eq hix₁, List.length_map, List.length_append, List.length_cons]
    omega
  obtain ⟨st₂, F₂, L₂, hloop, hbase₂, hrest⟩ := mergeLoop_laid hlaid calloc rfl
    hmer.left_of_append hmer.right_of_append.tail hfuel
  refine ⟨st₂, F₂, L₂, ?_, hbase₂.trans hbase₁, hrest⟩
  simp only [freeVnode, hmod, hst₁, Option.bind_eq_bind, Option.bind_some]
  exact hloop

/-- **`alloc_vnode`.** It takes the smallest free block that is large enough, or fails if there is
none. -/
theorem allocVnode_laid {st : Region} {L : List Block} {F : List Ptr} {pages size : ℕ}
    (h : Laid st L F pages) (calloc : Calloc) (hpos : 0 < size) (hsize : size ≤ 2 ^ 20) :
    (allocVnode calloc st size = some (st, null) ∧ ∀ b ∈ L, b.isFree → b.size < size) ∨
    ∃ xs b ys st' F' l, L = xs ++ b :: ys ∧ b.isFree ∧ size ≤ b.size ∧
      (∀ c ∈ L, c.isFree → size ≤ c.size → b.size ≤ c.size) ∧
      allocVnode calloc st size = some (st', b.id) ∧ st'.base = st.base ∧ SplitTo b size l ∧
      Laid st' (xs ++ l ++ ys) F' pages := by
  have hkey : toInt size = size := toInt_eq hsize
  have hfreeF : ∀ b ∈ L, b.isFree → b.id ∈ F := fun b hb hbf => by
    rw [h.free.mem_iff]
    exact List.mem_map_of_mem (List.mem_filter.2 ⟨hb, hbf⟩)
  have hfits : Pair.Fits (vnodeGetSize st.vmem) (toInt size) F := h.sizesOk.fits (by omega)
  obtain ⟨p, hp, ⟨hp0, n, hn, hnF, hge, hmin⟩ | ⟨rfl, hnone⟩⟩ :=
    Pair.findAtLeast h.indexed.symm h.sorted hfits
  · obtain ⟨b, hb, hbn⟩ := List.mem_map.1 (h.free.mem_iff.1 hnF)
    obtain ⟨hbL, hbf⟩ := List.mem_filter.1 hb
    have hle : size ≤ b.size := by
      rw [← hbn, h.stored.getSize hbL] at hge
      omega
    obtain ⟨xs, ys, rfl⟩ := List.append_of_mem hbL
    obtain ⟨st', F', l, hsplit, hbase, hto, hlaid⟩ := splitVnode_laid h calloc hbf hpos hle
    refine .inr ⟨xs, b, ys, st', F', l, rfl, hbf, hle, fun c hc hcf hsz => ?_, ?_, hbase, hto,
      hlaid⟩
    · have := hmin c.id (hfreeF c hc hcf)
      rw [← hbn, h.stored.getSize hbL, h.stored.getSize hc] at this
      omega
    · simp [allocVnode, hp, hp0, hn, ← hbn, h.held b hbL, hle, hsplit]
  · refine .inl ⟨by simp [allocVnode, hp], fun b hb hbf => ?_⟩
    have := hnone b.id (hfreeF b hb hbf)
    rw [h.stored.getSize hb] at this
    omega

/-- A split leaves no two free neighbours, and one more block in use. -/
theorem SplitTo.merged {xs ys l : List Block} {b : Block} {size : ℕ} (h : SplitTo b size l)
    (hb : b.isFree) (hmer : Merged (xs ++ b :: ys)) :
    Merged (xs ++ l ++ ys) ∧ inUse (xs ++ l ++ ys) = inUse xs ++ b.taken size :: inUse ys := by
  have hx : Merged xs := hmer.left_of_append
  have hby : Merged (b :: ys) := hmer.right_of_append
  have hy : Merged ys := hby.tail
  have htaken : (b.taken size).isFree = false := rfl
  have hxt : ∀ M, Merged (b.taken size :: M) → Merged (xs ++ b.taken size :: M) := by
    intro M hM
    refine hx.append hM fun a _ c hc => ?_
    obtain rfl : b.taken size = c := by simpa using hc
    simp [htaken]
  rcases h with ⟨-, rfl⟩ | ⟨-, v, rfl⟩
  · rw [List.append_assoc, List.singleton_append]
    refine ⟨hxt _ (hy.cons fun c _ => by simp [htaken]), ?_⟩
    rw [inUse_append, inUse_cons_used htaken]
  · have hrest : (b.rest size v).isFree := rfl
    rw [List.append_assoc, List.cons_append, List.singleton_append]
    refine ⟨hxt _ (List.IsChain.cons (hy.cons fun c hc => ?_) fun c _ => by simp [htaken]), ?_⟩
    · have := hby.rel_head? hc
      simpa [hb, hrest] using this
    · rw [inUse_append, inUse_cons_used htaken, inUse_cons_free hrest]

end C4OS.Addrman
