import C4OS.Andtree.Search

/-!
# The operations on a tree

`Holds m t s` says that the memory `m` holds a balanced tree `s` under the header `t`, with the
right number of nodes. Each operation of `andtree.c` returns and takes one such tree to another;
the theorems here say what becomes of the in-order list of its items. What an operation changes in
memory is within the records of the tree and the record it allocates.
-/

namespace C4OS.Andtree

open Foundations

/-- The header `t` holds the balanced tree `s`. -/
structure Holds (m : Mem) (t : AndTree) (s : AATree Item) : Prop where
  focus : Focus m t [] s
  balanced : s.Balanced
  nodes : t.nodes = s.toList.length

variable {m : Mem} {t : AndTree} {s : AATree Item} {getKey : Ptr → ℤ}

theorem Holds.root_eq (h : Holds m t s) : t.root = root s := h.focus.root_eq

theorem Holds.fuel_lt (h : Holds m t s) : s.toList.length < t.fuel := by
  rw [AndTree.fuel, h.nodes]
  omega

theorem Holds.addrs_nodup (h : Holds m t s) : (addrs s).Nodup := h.focus.nodup_plug

theorem andtreeInit_holds (h : SentinelOk m) : Holds m andtreeInit .nil :=
  ⟨⟨trivial, trivial, by simp [ctxAddrs], h, rfl⟩, trivial, rfl⟩

/-- A change of the memory away from the tree. -/
theorem Holds.frame {m' : Mem} (h : Holds m t s) (hm : ∀ a ∈ addrs s, m'.get a = m.get a)
    (hs : SentinelOk m') : Holds m' t s :=
  ⟨⟨trivial, h.focus.sub.frame hm, h.focus.nodup, hs, h.focus.root_eq⟩, h.balanced, h.nodes⟩

/-! ## Insertion -/

/-- Where an insertion puts its item: after the keys that are at most its own. -/
theorem inserted_between {b : Item} (hsort : SortedBy getKey s.toList)
    (hfit : FitsInt getKey (getKey b.data) s.toList) :
    ∃ xs ys, s.toList = xs ++ ys ∧ (inserted getKey b s).toList = xs ++ b :: ys ∧
      (∀ x ∈ xs, getKey x.data ≤ getKey b.data) ∧ ∀ y ∈ ys, getKey b.data < getKey y.data := by
  have hgo : ∀ x ∈ s.toList, (insertSide getKey b.data x = .left ↔
      getKey b.data < getKey x.data) := by
    intro x hx
    rw [insertSide, intSub_eq (hfit x hx)]
    split
    · simp only [true_iff]
      omega
    · simp only [reduceCtorEq, false_iff]
      omega
  have hpair : s.toList.Pairwise fun x y =>
      insertSide getKey b.data x = .left → insertSide getKey b.data y = .left := by
    refine hsort.imp_of_mem fun hx hy hxy hleft => ?_
    rw [hgo _ hx] at hleft
    rw [hgo _ hy]
    omega
  obtain ⟨hbefore, hafter⟩ := Ctx.descend_between _ s [] hpair
  simp only [Ctx.before, Ctx.after, List.nil_append, List.append_nil] at hbefore hafter
  have hplug := congrArg AATree.toList (Ctx.plug_descend (insertSide getKey b.data) s [])
  rw [Ctx.toList_plug, Ctx.plug, AATree.toList_nil, List.append_nil] at hplug
  refine ⟨_, _, hplug.symm, ?_, fun x hx => ?_, fun y hy => ?_⟩
  · rw [inserted, AATree.toList_repairInsert, Ctx.toList_plug]
    simp
  · rw [hbefore, List.mem_filter, decide_eq_true_iff] at hx
    have := (hgo x hx.1).not.1 (by rw [hx.2]; simp)
    omega
  · rw [hafter, List.mem_filter, decide_eq_true_iff] at hy
    exact (hgo y hy.1).1 hy.2

/-- **`andtree_insert`.** -/
theorem Holds.insert (h : Holds m t s) (calloc : Allocator AndNode) (d : Ptr)
    (hsort : SortedBy getKey s.toList) (hfit : FitsInt getKey (getKey d) s.toList) :
    ∃ m' t' a s' xs ys, andtreeInsert calloc getKey m t d = some (m', t', a) ∧ Holds m' t' s' ∧
      m.get a = none ∧ Store.AgreeOff (insert a (footprint s)) m m' ∧
      s.toList = xs ++ ys ∧ s'.toList = xs ++ ⟨a, d⟩ :: ys ∧
      (∀ x ∈ xs, getKey x.data ≤ getKey d) ∧ ∀ y ∈ ys, getKey d < getKey y.data := by
  obtain ⟨m', t', a, heq, hfresh, hfoc, hnodes, hag⟩ :=
    andtreeInsert_eq calloc getKey d h.focus h.nodes
  obtain ⟨xs, ys, hxs, hins, hle, hlt⟩ := inserted_between (b := ⟨a, d⟩) hsort hfit
  refine ⟨m', t', a, _, xs, ys, heq, ⟨hfoc, ?_, ?_⟩, hfresh, hag, hxs, hins, hle, hlt⟩
  · have hbal : (Ctx.plug (Ctx.descend (insertSide getKey d) s []) .nil).Balanced := by
      rw [Ctx.plug_descend]
      exact h.balanced
    exact ((AATree.grows_leaf _).repairInsert hbal).1
  · rw [hnodes, h.nodes, hxs, hins, List.length_append, List.length_append, List.length_cons]
    omega

/-! ## Removal -/

/-- **`andtree_remove`.** -/
theorem Holds.remove {b : Item} (h : Holds m t s) (hb : b ∈ s.toList) :
    ∃ m' t' s' xs ys, andtreeRemove m t b.addr = some (m', t') ∧ Holds m' t' s' ∧
      Store.AgreeOff (footprint s) m m' ∧ (∀ p ∈ addrs s', p ∈ addrs s) ∧
      s.toList = xs ++ b :: ys ∧ s'.toList.map Item.data = (xs ++ ys).map Item.data := by
  obtain ⟨m', t', s', heq, hfoc, hbal, hnodes, hag, hsub, xs, ys, hxs, hdata⟩ :=
    andtreeRemove_eq h.focus h.balanced h.nodes hb
  refine ⟨m', t', s', xs, ys, heq, ⟨hfoc, hbal, ?_⟩, hag, hsub, hxs, hdata⟩
  have hlen := congrArg List.length hdata
  have hn := h.nodes
  rw [hxs] at hn
  simp only [List.length_map, List.length_append, List.length_cons] at hlen hn
  omega

/-- The removal of a node that a search found. -/
theorem Holds.removeFound {P : Item → Prop} {p : Ptr} (h : Holds m t s)
    (hp : Found P s.toList p) :
    (∃ m' t' s' b xs ys, removeFound m t p = some (m', t', b.data) ∧ Holds m' t' s' ∧ P b ∧
      Store.AgreeOff (footprint s) m m' ∧ (∀ p ∈ addrs s', p ∈ addrs s) ∧
      s.toList = xs ++ b :: ys ∧ s'.toList.map Item.data = (xs ++ ys).map Item.data) ∨
    removeFound m t p = some (m, t, null) ∧ ∀ b ∈ s.toList, ¬ P b := by
  rcases hp with ⟨hp, b, hb, rfl, hPb⟩ | ⟨rfl, hnone⟩
  · obtain ⟨n, hn, hnd⟩ := h.focus.sub.get_mem hb
    obtain ⟨m', t', s', xs, ys, heq, hrest⟩ := h.remove hb
    refine .inl ⟨m', t', s', b, xs, ys, ?_, hrest.1, hPb, hrest.2⟩
    simp [Andtree.removeFound, hp, hn, heq, hnd]
  · exact .inr ⟨by simp [Andtree.removeFound], hnone⟩

/-- **`andtree_remove_key`.** -/
theorem Holds.removeKey {key : ℤ} (h : Holds m t s) (hsort : SortedBy getKey s.toList)
    (hfit : FitsInt getKey key s.toList) :
    (∃ m' t' s' b xs ys, andtreeRemoveKey getKey m t key = some (m', t', b.data) ∧
      Holds m' t' s' ∧ getKey b.data = key ∧
      Store.AgreeOff (footprint s) m m' ∧ (∀ p ∈ addrs s', p ∈ addrs s) ∧
      s.toList = xs ++ b :: ys ∧ s'.toList.map Item.data = (xs ++ ys).map Item.data) ∨
    andtreeRemoveKey getKey m t key = some (m, t, null) ∧
      ∀ b ∈ s.toList, getKey b.data ≠ key := by
  obtain ⟨p, hp, hfound⟩ := findKeyLoop_eq h.focus.sub h.focus.sent hsort hfit h.fuel_lt
  rw [← h.root_eq] at hp
  have heq : andtreeRemoveKey getKey m t key = Andtree.removeFound m t p := by
    simp [andtreeRemoveKey, andtreeFindKey, hp]
  rw [heq]
  exact h.removeFound hfound

/-- **`andtree_remove_data`.** -/
theorem Holds.removeData {d : Ptr} (h : Holds m t s) (hsort : SortedBy getKey s.toList)
    (hfit : FitsInt getKey (getKey d) s.toList) :
    (∃ m' t' s' b xs ys, andtreeRemoveData getKey m t d = some (m', t', b.data) ∧
      Holds m' t' s' ∧ b.data = d ∧
      Store.AgreeOff (footprint s) m m' ∧ (∀ p ∈ addrs s', p ∈ addrs s) ∧
      s.toList = xs ++ b :: ys ∧ s'.toList.map Item.data = (xs ++ ys).map Item.data) ∨
    andtreeRemoveData getKey m t d = some (m, t, null) ∧ ∀ b ∈ s.toList, b.data ≠ d := by
  obtain ⟨p, hp, hfound⟩ := findDataLoop_eq h.focus.sub h.focus.sent hsort hfit h.fuel_lt
  rw [← h.root_eq] at hp
  have heq : andtreeRemoveData getKey m t d = Andtree.removeFound m t p := by
    simp [andtreeRemoveData, andtreeFindData, hp]
  rw [heq]
  exact h.removeFound hfound

/-! ## The sequence of the items -/

/-- The nodes below a pointer with their data, in order. -/
def inorder : ℕ → Mem → Ptr → Option (List Item)
  | 0, _, _ => none
  | fuel + 1, m, p => do
    if ← isNil m p then return []
    else
      let n ← m.get p
      let l ← inorder fuel m n.left
      let r ← inorder fuel m n.right
      return l ++ ⟨p, n.data⟩ :: r

theorem inorder_eq {m : Mem} {par : Ptr} {s : AATree Item} {fuel : ℕ} (h : Repr m par s)
    (hs : SentinelOk m) (hfuel : s.toList.length < fuel) :
    inorder fuel m (root s) = some s.toList := by
  induction fuel generalizing par s with
  | zero => omega
  | succ fuel ih =>
    cases s with
    | nil => simp [inorder, isNil_sentinel hs]
    | node b k l r =>
      have hl : inorder fuel m (root l) = some l.toList :=
        ih h.2.2.2.1 (length_childOn_lt .left hfuel)
      have hr : inorder fuel m (root r) = some r.toList :=
        ih h.2.2.2.2 (length_childOn_lt .right hfuel)
      simp [inorder, h.isNil_node, h.2.2.1, hl, hr]

theorem Holds.inorder_eq (h : Holds m t s) : inorder t.fuel m t.root = some s.toList := by
  rw [h.root_eq]
  exact Andtree.inorder_eq h.focus.sub h.focus.sent h.fuel_lt

end C4OS.Andtree
