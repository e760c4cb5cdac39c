import C4OS.Andtree.Operations
import Mathlib.Data.Set.Card

/-!
# Runs of the balanced trees

A run starts with `andtree_init` and makes insertions and removals, in any order and with any
allocator. The key function may change its values between two operations, though not for data that
are in the tree, and the key differences an operation takes fit in an `int` (`Reachable`).

* `andtree_balanced_links`: in every state of a run the nodes that can be reached from the root
  satisfy the level conditions, their `parent` pointers are right, and `nodes` counts them.
* `andtree_refines_sorted`: in every state of a run the tree holds a sorted sequence of data, and
  every operation returns and does to this sequence what its name says.
-/

namespace C4OS.Andtree

open Foundations

/-! ## States and operations -/

/-- The memory, the header of the tree and the present values of the key function. -/
structure State where
  mem : Mem
  tree : AndTree
  getKey : Ptr → ℤ

/-- The operations that change a tree. -/
inductive Op
  | insert (calloc : Allocator AndNode) (data : Ptr)
  | remove (node : Ptr)
  | removeKey (key : ℤ)
  | removeData (data : Ptr)

/-- One operation and the pointer it returns, `NULL` for `andtree_remove`. -/
def State.step (st : State) : Op → Option (State × Ptr)
  | .insert calloc data => do
    let (m, t, node) ← andtreeInsert calloc st.getKey st.mem st.tree data
    return ({ st with mem := m, tree := t }, node)
  | .remove node => do
    let (m, t) ← andtreeRemove st.mem st.tree node
    return ({ st with mem := m, tree := t }, null)
  | .removeKey key => do
    let (m, t, data) ← andtreeRemoveKey st.getKey st.mem st.tree key
    return ({ st with mem := m, tree := t }, data)
  | .removeData data => do
    let (m, t, data) ← andtreeRemoveData st.getKey st.mem st.tree data
    return ({ st with mem := m, tree := t }, data)

/-- The nodes of the tree with their data, in order. -/
def State.items (st : State) : Option (List Item) := inorder st.tree.fuel st.mem st.tree.root

/-- What the caller owes: the differences of the keys compared fit in an `int`, and a node that is
to be removed is in the tree. -/
def Op.Allowed (st : State) (op : Op) : Prop :=
  ∃ l, st.items = some l ∧
    match op with
    | .insert _ data => FitsInt st.getKey (st.getKey data) l
    | .remove node => ∃ b ∈ l, b.addr = node
    | .removeKey key => FitsInt st.getKey key l
    | .removeData data => FitsInt st.getKey (st.getKey data) l

/-- The states of the runs of a tree. -/
inductive Reachable : State → Prop
  | init (m : Mem) (getKey : Ptr → ℤ) (hm : SentinelOk m) : Reachable ⟨m, andtreeInit, getKey⟩
  | rekey {st : State} {l : List Item} (getKey : Ptr → ℤ) (h : Reachable st)
      (hl : st.items = some l) (hkey : ∀ b ∈ l, getKey b.data = st.getKey b.data) :
      Reachable { st with getKey := getKey }
  | step {st st' : State} {ret : Ptr} (op : Op) (h : Reachable st) (hop : op.Allowed st)
      (hstep : st.step op = some (st', ret)) : Reachable st'

/-! ## The invariant -/

/-- The tree of a state is balanced, and sorted by the key function. -/
def State.Inv (st : State) (s : AATree Item) : Prop :=
  Holds st.mem st.tree s ∧ SortedBy st.getKey s.toList

theorem State.Inv.items_eq {st : State} {s : AATree Item} (h : st.Inv s) :
    st.items = some s.toList := h.1.inorder_eq

/-- What an operation does to the sequence of the items. -/
def Op.Spec (getKey : Ptr → ℤ) (l l' : List Item) (unchanged : Prop) (ret : Ptr) : Op → Prop
  | .insert _ data => ∃ xs ys, l = xs ++ ys ∧ l' = xs ++ ⟨ret, data⟩ :: ys ∧
      (∀ x ∈ xs, getKey x.data ≤ getKey data) ∧ ∀ y ∈ ys, getKey data < getKey y.data
  | .remove node => ∃ xs data ys, l = xs ++ ⟨node, data⟩ :: ys ∧
      l'.map Item.data = (xs ++ ys).map Item.data
  | .removeKey key =>
      (∃ xs b ys, l = xs ++ b :: ys ∧ getKey b.data = key ∧ ret = b.data ∧
        l'.map Item.data = (xs ++ ys).map Item.data) ∨
      ((∀ b ∈ l, getKey b.data ≠ key) ∧ ret = null ∧ unchanged)
  | .removeData data =>
      (∃ xs b ys, l = xs ++ b :: ys ∧ b.data = data ∧ ret = data ∧
        l'.map Item.data = (xs ++ ys).map Item.data) ∨
      ((∀ b ∈ l, b.data ≠ data) ∧ ret = null ∧ unchanged)

theorem sortedBy_iff {getKey : Ptr → ℤ} {l : List Item} :
    SortedBy getKey l ↔ (l.map Item.data).Pairwise fun a b => getKey a ≤ getKey b := by
  rw [SortedBy, List.pairwise_map]

/-- A sequence that has lost an element is still sorted. -/
theorem SortedBy.erased {getKey : Ptr → ℤ} {l l' xs ys : List Item} {b : Item}
    (h : SortedBy getKey l) (hl : l = xs ++ b :: ys)
    (hdata : l'.map Item.data = (xs ++ ys).map Item.data) : SortedBy getKey l' := by
  rw [sortedBy_iff, hdata, ← sortedBy_iff]
  rw [hl] at h
  exact h.sublist ((List.Sublist.refl xs).append (List.sublist_cons_self b ys))

/-- A sequence stays sorted when an element is put after all that are not greater. -/
theorem SortedBy.insert {getKey : Ptr → ℤ} {xs ys : List Item} {b : Item}
    (h : SortedBy getKey (xs ++ ys)) (hle : ∀ x ∈ xs, getKey x.data ≤ getKey b.data)
    (hlt : ∀ y ∈ ys, getKey b.data < getKey y.data) : SortedBy getKey (xs ++ b :: ys) := by
  rw [SortedBy, List.pairwise_append] at h ⊢
  obtain ⟨hxs, hys, hxy⟩ := h
  refine ⟨hxs, List.pairwise_cons.2 ⟨fun y hy => (hlt y hy).le, hys⟩, fun x hx y hy => ?_⟩
  rcases List.mem_cons.1 hy with rfl | hy
  · exact hle x hx
  · exact hxy x hx y hy

/-- **One operation.** It returns, keeps the invariant and does what it should to the sequence. -/
theorem State.Inv.step {st : State} {s : AATree Item} {op : Op} (h : st.Inv s)
    (hop : op.Allowed st) :
    ∃ st' ret s', st.step op = some (st', ret) ∧ st'.Inv s' ∧ st'.getKey = st.getKey ∧
      op.Spec st.getKey s.toList s'.toList (st' = st) ret := by
  obtain ⟨l, hl, hop⟩ := hop
  obtain rfl : _ = l := Option.some.inj (h.items_eq.symm.trans hl)
  obtain ⟨hh, hsort⟩ := h
  cases op with
  | insert calloc d =>
    obtain ⟨m', t', a, s', xs, ys, heq, hh', -, -, hxs, hys, hle, hlt⟩ :=
      hh.insert calloc d hsort hop
    refine ⟨⟨m', t', st.getKey⟩, a, s', by simp [State.step, heq], ⟨hh', ?_⟩, rfl,
      xs, ys, hxs, hys, hle, hlt⟩
    rw [hxs] at hsort
    rw [hys]
    exact hsort.insert hle hlt
  | remove p =>
    obtain ⟨b, hb, rfl⟩ := hop
    obtain ⟨m', t', s', xs, ys, heq, hh', -, -, hxs, hdata⟩ := hh.remove hb
    exact ⟨⟨m', t', st.getKey⟩, null, s', by simp [State.step, heq],
      ⟨hh', hsort.erased hxs hdata⟩, rfl, xs, b.data, ys, hxs, hdata⟩
  | removeKey key =>
    rcases hh.removeKey hsort hop with
      ⟨m', t', s', b, xs, ys, heq, hh', hb, -, -, hxs, hdata⟩ | ⟨heq, hnone⟩
    · exact ⟨⟨m', t', st.getKey⟩, b.data, s', by simp [State.step, heq],
        ⟨hh', hsort.erased hxs hdata⟩, rfl, .inl ⟨xs, b, ys, hxs, hb, rfl, hdata⟩⟩
    · exact ⟨st, null, s, by simp [State.step, heq], ⟨hh, hsort⟩, rfl, .inr ⟨hnone, rfl, rfl⟩⟩
  | removeData d =>
    rcases hh.removeData hsort hop with
      ⟨m', t', s', b, xs, ys, heq, hh', hb, -, -, hxs, hdata⟩ | ⟨heq, hnone⟩
    · exact ⟨⟨m', t', st.getKey⟩, b.data, s', by simp [State.step, heq],
        ⟨hh', hsort.erased hxs hdata⟩, rfl, .inl ⟨xs, b, ys, hxs, hb, hb, hdata⟩⟩
    · exact ⟨st, null, s, by simp [State.step, heq], ⟨hh, hsort⟩, rfl, .inr ⟨hnone, rfl, rfl⟩⟩

/-- **Every run keeps the invariant.** -/
theorem Reachable.inv {st : State} (h : Reachable st) : ∃ s, st.Inv s := by
  induction h with
  | init m getKey hm => exact ⟨.nil, andtreeInit_holds hm, List.Pairwise.nil⟩
  | rekey getKey _ hl hkey ih =>
    obtain ⟨s, hs⟩ := ih
    obtain rfl : _ = _ := Option.some.inj (hs.items_eq.symm.trans hl)
    refine ⟨s, hs.1, hs.2.imp_of_mem fun ha hb hab => ?_⟩
    dsimp only
    rw [hkey _ ha, hkey _ hb]
    exact hab
  | step op _ hop hstep ih =>
    obtain ⟨s, hs⟩ := ih
    obtain ⟨st₁, ret₁, s', heq, hs', -⟩ := hs.step hop
    rw [hstep, Option.some.injEq, Prod.mk.injEq] at heq
    exact ⟨s', heq.1 ▸ hs'⟩

/-! ## The sequence of data -/

/-- **The tree is a sorted sequence.** In every state of a run the data are sorted by key, and every
operation returns and does to the sequence of items what `Op.Spec` says. -/
theorem andtree_refines_sorted {st : State} (h : Reachable st) :
    ∃ l, st.items = some l ∧ SortedBy st.getKey l ∧
      ∀ op : Op, op.Allowed st → ∃ st' ret l', st.step op = some (st', ret) ∧
        st'.items = some l' ∧ op.Spec st.getKey l l' (st' = st) ret := by
  obtain ⟨s, hs⟩ := h.inv
  refine ⟨s.toList, hs.items_eq, hs.2, fun op hop => ?_⟩
  obtain ⟨st', ret, s', heq, hs', -, hspec⟩ := hs.step hop
  exact ⟨st', ret, s'.toList, heq, hs'.items_eq, hspec⟩

/-- A memory with the sentinel alone, and a key function under which `2 * k` and `2 * k + 1` have
the key `k`. -/
def State.start : State :=
  ⟨Store.empty.set sentinel ⟨null, sentinel, sentinel, 0, null⟩, andtreeInit, fun d => (d / 2 : ℕ)⟩

theorem State.start_reachable : Reachable State.start := .init _ _ ⟨_, _, rfl⟩

theorem andtree_refines_sorted_dupes : ∃ st l, Reachable st ∧ st.items = some l ∧
    l.map Item.data = [8, 10, 11] ∧ SortedBy st.getKey l ∧
    ∃ st' ret l', st.step (.removeData 10) = some (st', ret) ∧ st'.items = some l' ∧
      Op.Spec st.getKey l l' (st' = st) ret (.removeData 10) := by
  have h₁ := State.start_reachable.step (.insert .bump 10) ⟨_, rfl, by decide⟩ rfl
  have h₂ := h₁.step (.insert .bump 11) ⟨_, rfl, by decide⟩ rfl
  have h₃ := h₂.step (.insert .bump 8) ⟨_, rfl, by decide⟩ rfl
  obtain ⟨l, hl, hsort, hops⟩ := andtree_refines_sorted h₃
  obtain rfl : _ = l := Option.some.inj hl
  exact ⟨_, _, h₃, hl, by decide, hsort, hops _ ⟨_, hl, by decide⟩⟩

/-! ## Levels and links -/

/-- The nodes that can be reached from the root. -/
inductive InTree (m : Mem) (t : AndTree) : Ptr → Prop
  | root (h : isNil m t.root = some false) : InTree m t t.root
  | leaf {p : Ptr} {n : AndNode} (side : Side) (h : InTree m t p) (hn : m.get p = some n)
      (hleaf : isNil m (n.leaf side) = some false) : InTree m t (n.leaf side)

/-- The levels and links of a tree in memory. -/
structure LevelsAndLinks (m : Mem) (t : AndTree) : Prop where
  nil_level : ∃ n, m.get sentinel = some n ∧ n.level = 0
  levels : ∀ p, InTree m t p → ∃ n l r rr, m.get p = some n ∧ m.get n.left = some l ∧
    m.get n.right = some r ∧ m.get r.right = some rr ∧
    l.level = n.level - 1 ∧ 0 < n.level ∧ (r.level = n.level ∨ r.level = n.level - 1) ∧
    rr.level < n.level
  parents : ∀ p n side, InTree m t p → m.get p = some n → isNil m (n.leaf side) = some false →
    ∃ c, m.get (n.leaf side) = some c ∧ c.parent = p
  root_parent : isNil m t.root = some false → ∃ n, m.get t.root = some n ∧ n.parent = null
  count : Set.encard {p | InTree m t p} = t.nodes

section Links

variable {m : Mem} {t : AndTree} {s : AATree Item} {p : Ptr}

/-- The focus on the node at an address of the tree. -/
theorem Holds.focus_addr (h : Holds m t s) (hp : p ∈ addrs s) :
    ∃ C b k l r, b.addr = p ∧ s = Ctx.plug C (.node b k l r) ∧ Focus m t C (.node b k l r) := by
  obtain ⟨b, hb, rfl⟩ := List.mem_map.1 hp
  obtain ⟨xs, ys, hxs⟩ := List.append_of_mem hb
  obtain ⟨C, k, l, r, rfl, -⟩ := exists_position hxs
  exact ⟨C, b, k, l, r, rfl, rfl, h.focus.of_root⟩

/-- Below a node in the tree every node is in the tree. -/
theorem inTree_of_focus {C : Ctx Item} (h : Focus m t C s) (hroot : s ≠ .nil → InTree m t (root s))
    (hp : p ∈ addrs s) : InTree m t p := by
  induction s generalizing C with
  | nil => simp at hp
  | node b k l r ihl ihr =>
    have hb := hroot (by simp)
    have hg := h.sub.2.2.1
    rw [addrs_node, List.mem_append, List.mem_cons] at hp
    rcases hp with hp | rfl | hp
    · refine ihl h.down_left (fun hl => InTree.leaf .left hb hg ?_) hp
      cases l with
      | nil => exact absurd rfl hl
      | node c j x y => exact h.down_left.sub.isNil_node
    · exact hb
    · refine ihr h.down_right (fun hr => InTree.leaf .right hb hg ?_) hp
      cases r with
      | nil => exact absurd rfl hr
      | node c j x y => exact h.down_right.sub.isNil_node

theorem Holds.inTree_iff (h : Holds m t s) : InTree m t p ↔ p ∈ addrs s := by
  constructor
  · intro hp
    induction hp with
    | root hnil =>
      rw [h.root_eq] at hnil ⊢
      cases s with
      | nil => simp [isNil_sentinel h.focus.sent] at hnil
      | node b k l r => simp
    | leaf side _ hn hleaf ih =>
      obtain ⟨C, b, k, l, r, rfl, rfl, hfoc⟩ := h.focus_addr ih
      obtain rfl : _ = _ := Option.some.inj (hfoc.sub.2.2.1.symm.trans hn)
      rw [leaf_eq_childOn] at hleaf ⊢
      rw [(addrs_plug_perm _ _).mem_iff, List.mem_append]
      refine .inr ?_
      cases hc : childOn side l r with
      | nil => simp [hc, isNil_sentinel h.focus.sent] at hleaf
      | node c j x y =>
        have hmem : c ∈ (childOn side l r).toList := by simp [hc]
        exact List.mem_map_of_mem (mem_of_childOn hmem)
  · intro hp
    refine inTree_of_focus h.focus (fun hs => ?_) hp
    have hroot := h.root_eq
    cases s with
    | nil => exact absurd rfl hs
    | node b k l r =>
      rw [← hroot]
      exact .root (by rw [hroot]; exact h.focus.sub.isNil_node)

/-- A balanced tree in memory has the levels and links it should have. -/
theorem Holds.levelsAndLinks (h : Holds m t s) : LevelsAndLinks m t := by
  have hsent := h.focus.sent
  refine ⟨?_, fun p hp => ?_, fun p n side hp hn hleaf => ?_, fun hnil => ?_, ?_⟩
  · obtain ⟨q, d, hs⟩ := hsent
    exact ⟨_, hs, rfl⟩
  · obtain ⟨C, b, k, l, r, rfl, rfl, hfoc⟩ := h.focus_addr (h.inTree_iff.1 hp)
    obtain ⟨-, hk, hg, hl, hr⟩ := hfoc.sub
    obtain ⟨ln, hln, hllev, -⟩ := hl.get_root hsent
    obtain ⟨rn, hrn, hrlev, hrr⟩ := hr.get_root hsent
    have hbal : (AATree.node b k l r).Balanced := Ctx.balanced_of_plug h.balanced
    obtain ⟨-, -, hbl, hbr, hbrr⟩ := hbal
    obtain ⟨rrn, hrrn, hrrlev⟩ : ∃ rrn, m.get (root r.right) = some rrn ∧
        rrn.level = r.right.level := by
      cases r with
      | nil =>
        obtain ⟨q, d, hs⟩ := hsent
        exact ⟨_, hs, rfl⟩
      | node c j x y =>
        obtain ⟨rrn, hrrn, hlev, -⟩ := hr.2.2.2.2.get_root hsent
        exact ⟨rrn, hrrn, hlev⟩
    refine ⟨_, ln, rn, rrn, hg, hln, hrn, by rw [hrr, hrrn], ?_⟩
    rw [hllev, hrlev, hrrlev]
    dsimp only
    omega
  · obtain ⟨C, b, k, l, r, rfl, rfl, hfoc⟩ := h.focus_addr (h.inTree_iff.1 hp)
    obtain rfl : _ = _ := Option.some.inj (hfoc.sub.2.2.1.symm.trans hn)
    have hsub := hfoc.sub.childOn side
    rw [leaf_eq_childOn] at hleaf ⊢
    cases hc : childOn side l r with
    | nil => simp [hc, isNil_sentinel hsent] at hleaf
    | node c j x y =>
      rw [hc] at hsub
      exact ⟨_, hsub.2.2.1, rfl⟩
  · rw [h.root_eq] at hnil ⊢
    cases s with
    | nil => simp [isNil_sentinel hsent] at hnil
    | node b k l r => exact ⟨_, h.focus.sub.2.2.1, rfl⟩
  · have hset : {p | InTree m t p} = ((addrs s).toFinset : Set Ptr) := by
      ext p
      simp [h.inTree_iff]
    rw [hset, Set.encard_coe_eq_coe_finsetCard, List.toFinset_card_of_nodup h.addrs_nodup,
      length_addrs, h.nodes]

end Links

/-- **Levels and links.** In every state of a run the level conditions hold at every node of the
tree, the `parent` pointers are the inverse of the leaf pointers, the parent of the root is `NULL`
and `nodes` is the number of nodes; and every operation that is allowed returns. -/
theorem andtree_balanced_links {st : State} (h : Reachable st) :
    LevelsAndLinks st.mem st.tree ∧
      ∀ op : Op, op.Allowed st → ∃ st' ret, st.step op = some (st', ret) ∧
        LevelsAndLinks st'.mem st'.tree := by
  obtain ⟨s, hs⟩ := h.inv
  refine ⟨hs.1.levelsAndLinks, fun op hop => ?_⟩
  obtain ⟨st', ret, s', heq, hs', -⟩ := hs.step hop
  exact ⟨st', ret, heq, hs'.1.levelsAndLinks⟩

theorem andtree_balanced_links_three : ∃ st, Reachable st ∧ st.tree.nodes = 3 ∧
    LevelsAndLinks st.mem st.tree ∧
    ∃ st' ret, st.step (.removeKey 4) = some (st', ret) ∧ LevelsAndLinks st'.mem st'.tree := by
  have h₁ := State.start_reachable.step (.insert .bump 10) ⟨_, rfl, by decide⟩ rfl
  have h₂ := h₁.step (.insert .bump 11) ⟨_, rfl, by decide⟩ rfl
  have h₃ := h₂.step (.insert .bump 8) ⟨_, rfl, by decide⟩ rfl
  exact ⟨_, h₃, rfl, (andtree_balanced_links h₃).1,
    (andtree_balanced_links h₃).2 _ ⟨_, rfl, by decide⟩⟩

end C4OS.Andtree
