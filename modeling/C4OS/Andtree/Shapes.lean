import C4OS.Andtree.Runs

/-!
# Runs under any key function

The shape of a tree does not depend on the order of its keys: whatever values the key function
takes, and whether or not the differences of keys wrap around, an insertion hangs its node at some
empty place and a search for a node to remove ends at a node of the tree or at `NULL`. `Reached` is
the states of the runs in which nothing is asked of the keys; between two operations the key
function and the memory away from the tree, the fields of the sentinel that other trees write among
it, may change.

`Reached.holds` says that every such state holds a balanced tree, and `Holds.steps` that every
operation returns in it.
-/

namespace C4OS.Andtree

open Foundations

/-! ## Searches that land in the tree -/

section Lands

variable {m : Mem} {par : Ptr} {s : AATree Item} {fuel : ℕ}

/-- `NULL`, or the address of an item. -/
def Lands (l : List Item) (p : Ptr) : Prop := p = null ∨ ∃ b ∈ l, b.addr = p

theorem Lands.of_childOn {b : Item} {k : ℕ} {l r : AATree Item} {p : Ptr} (side : Side)
    (h : Lands (childOn side l r).toList p) : Lands (AATree.node b k l r).toList p := by
  rcases h with h | ⟨c, hc, hcp⟩
  · exact .inl h
  · exact .inr ⟨c, mem_of_childOn hc, hcp⟩

theorem lands_self {b : Item} {k : ℕ} {l r : AATree Item} :
    Lands (AATree.node b k l r).toList b.addr := .inr ⟨b, by simp, rfl⟩

theorem findKeyLoop_lands (getKey : Ptr → ℤ) (key : ℤ) (h : Repr m par s) (hs : SentinelOk m)
    (hfuel : s.toList.length < fuel) :
    ∃ p, findKeyLoop getKey m key fuel (root s) = some p ∧ Lands s.toList p := by
  induction fuel generalizing par s with
  | zero => omega
  | succ fuel ih =>
    cases s with
    | nil => exact ⟨null, by simp [findKeyLoop, isNil_sentinel hs], .inl rfl⟩
    | node b k l r =>
      have hg := h.2.2.1
      by_cases hz : intSub key (getKey b.data) = 0
      · exact ⟨b.addr, by simp [findKeyLoop, h.isNil_node, andtreeCompare, hg, hz], lands_self⟩
      · set side := direction (intSub key (getKey b.data)) with hside
        obtain ⟨p, hp, hlands⟩ := ih (h.childOn side) (length_childOn_lt side hfuel)
        refine ⟨p, ?_, hlands.of_childOn side⟩
        rw [← hp, root_node, findKeyLoop]
        simp [h.isNil_node, andtreeCompare, hg, hz, ← hside, leaf_eq_childOn]

theorem andtreeFindDupeData_lands (getKey : Ptr → ℤ) (d : Ptr) (h : Repr m par s)
    (hs : SentinelOk m) (hfuel : s.toList.length < fuel) :
    ∃ p, andtreeFindDupeData getKey m d fuel (root s) = some p ∧ Lands s.toList p := by
  induction fuel generalizing par s with
  | zero => omega
  | succ fuel ih =>
    cases s with
    | nil => exact ⟨null, by simp [andtreeFindDupeData, isNil_sentinel hs], .inl rfl⟩
    | node b k l r =>
      have hg := h.2.2.1
      have hchild : ∀ side, ∃ p, andtreeFindDupeData getKey m d fuel (root (childOn side l r)) =
          some p ∧ Lands (childOn side l r).toList p :=
        fun side => ih (h.childOn side) (length_childOn_lt side hfuel)
      by_cases hd : b.data = d
      · exact ⟨b.addr, by simp [andtreeFindDupeData, h.isNil_node, hg, hd], lands_self⟩
      · set side := direction (intSub (getKey d) (getKey b.data)) with hside
        obtain ⟨p, hp, hpl⟩ := hchild .left
        obtain ⟨q, hq, hql⟩ := hchild .right
        obtain ⟨o, ho, hol⟩ := hchild side
        simp only [childOn] at hp hq
        by_cases hz : intSub (getKey d) (getKey b.data) = 0
        · refine ⟨if p ≠ null then p else if q ≠ null then q else o, ?_, ?_⟩
          · rw [hz] at hside
            by_cases hp0 : p = null
            · by_cases hq0 : q = null
              · simp [andtreeFindDupeData, h.isNil_node, hg, hd, andtreeCompare, hz, hp, hq, hp0,
                  hq0, ← hside, leaf_eq_childOn, ho]
              · simp [andtreeFindDupeData, h.isNil_node, hg, hd, andtreeCompare, hz, hp, hq, hp0,
                  hq0]
            · simp [andtreeFindDupeData, h.isNil_node, hg, hd, andtreeCompare, hz, hp, hp0]
          · split
            · exact Lands.of_childOn .left hpl
            · split
              · exact Lands.of_childOn .right hql
              · exact hol.of_childOn side
        · refine ⟨o, ?_, hol.of_childOn side⟩
          rw [← ho, root_node, andtreeFindDupeData]
          simp [h.isNil_node, andtreeCompare, hg, hd, hz, ← hside, leaf_eq_childOn]

theorem findDataLoop_lands (getKey : Ptr → ℤ) (d : Ptr) (h : Repr m par s) (hs : SentinelOk m)
    (hfuel : s.toList.length < fuel) :
    ∃ p, findDataLoop getKey m d fuel (root s) = some p ∧ Lands s.toList p := by
  induction fuel generalizing par s with
  | zero => omega
  | succ fuel ih =>
    cases s with
    | nil => exact ⟨null, by simp [findDataLoop, isNil_sentinel hs], .inl rfl⟩
    | node b k l r =>
      have hg := h.2.2.1
      by_cases hz : intSub (getKey d) (getKey b.data) = 0
      · obtain ⟨p, hp, hlands⟩ := andtreeFindDupeData_lands getKey d h hs hfuel
        refine ⟨p, ?_, hlands⟩
        rw [← hp, root_node, findDataLoop]
        simp [h.isNil_node, andtreeCompare, hg, hz]
      · set side := direction (intSub (getKey d) (getKey b.data)) with hside
        obtain ⟨p, hp, hlands⟩ := ih (h.childOn side) (length_childOn_lt side hfuel)
        refine ⟨p, ?_, hlands.of_childOn side⟩
        rw [← hp, root_node, findDataLoop]
        simp [h.isNil_node, andtreeCompare, hg, hz, ← hside, leaf_eq_childOn]

end Lands

/-! ## One operation -/

section Operations

variable {m : Mem} {t : AndTree} {s : AATree Item}

/-- An insertion leaves the tree with the new item at the position its comparisons lead to. -/
theorem Holds.insert_eq (h : Holds m t s) (calloc : Allocator AndNode) (getKey : Ptr → ℤ)
    (d : Ptr) : ∃ m' t' a, andtreeInsert calloc getKey m t d = some (m', t', a) ∧
      m.get a = none ∧ Holds m' t' (inserted getKey ⟨a, d⟩ s) := by
  obtain ⟨m', t', a, heq, hfresh, hfoc, hnodes, -⟩ :=
    andtreeInsert_eq calloc getKey d h.focus h.nodes
  have hplug := Ctx.plug_descend (insertSide getKey d) s []
  have hbal : (Ctx.plug (Ctx.descend (insertSide getKey d) s []) .nil).Balanced := by
    rw [hplug]
    exact h.balanced
  refine ⟨m', t', a, heq, hfresh, hfoc, ((AATree.grows_leaf _).repairInsert hbal).1, ?_⟩
  have hlen := congrArg (fun s => s.toList.length) hplug
  simp only [Ctx.toList_plug, Ctx.plug, AATree.toList_nil, List.append_nil,
    List.length_append] at hlen
  rw [hnodes, h.nodes, inserted, AATree.toList_repairInsert, Ctx.toList_plug]
  simp only [AATree.toList_node, AATree.toList_nil, List.nil_append, List.length_append,
    List.length_cons, List.length_nil]
  omega

theorem Holds.inserts (h : Holds m t s) (calloc : Allocator AndNode) (getKey : Ptr → ℤ) (d : Ptr) :
    ∃ m' t' a s', andtreeInsert calloc getKey m t d = some (m', t', a) ∧ Holds m' t' s' := by
  obtain ⟨m', t', a, heq, -, hholds⟩ := h.insert_eq calloc getKey d
  exact ⟨m', t', a, _, heq, hholds⟩

theorem Holds.removesFound {p : Ptr} (h : Holds m t s) (hp : Lands s.toList p) :
    ∃ m' t' d s', Andtree.removeFound m t p = some (m', t', d) ∧ Holds m' t' s' := by
  rcases hp with rfl | ⟨b, hb, rfl⟩
  · exact ⟨m, t, null, s, by simp [Andtree.removeFound], h⟩
  · obtain ⟨n, hn, -⟩ := h.focus.sub.get_mem hb
    obtain ⟨m', t', s', -, -, heq, hholds, -⟩ := h.remove hb
    have hne := Store.ne_zero_of_get hn
    exact ⟨m', t', n.data, s', by simp [Andtree.removeFound, hne, hn, heq], hholds⟩

/-- **One operation.** It returns, and it leaves a balanced tree. -/
theorem Holds.steps {st : State} (h : Holds st.mem st.tree s) (op : Op)
    (hop : ∀ node, op = .remove node → InTree st.mem st.tree node) :
    ∃ st' ret s', st.step op = some (st', ret) ∧ Holds st'.mem st'.tree s' := by
  obtain ⟨m, t, getKey⟩ := st
  cases op with
  | insert calloc d =>
    obtain ⟨m', t', a, s', heq, hholds⟩ := h.inserts calloc getKey d
    exact ⟨⟨m', t', getKey⟩, a, s', by simp [State.step, heq], hholds⟩
  | remove p =>
    obtain ⟨b, hb, rfl⟩ := List.mem_map.1 (h.inTree_iff.1 (hop p rfl))
    obtain ⟨m', t', s', -, -, heq, hholds, -⟩ := h.remove hb
    exact ⟨⟨m', t', getKey⟩, null, s', by simp [State.step, heq], hholds⟩
  | removeKey key =>
    obtain ⟨p, hp, hlands⟩ := findKeyLoop_lands getKey key h.focus.sub h.focus.sent
      h.fuel_lt
    obtain ⟨m', t', d, s', heq, hholds⟩ := h.removesFound hlands
    rw [← h.root_eq] at hp
    exact ⟨⟨m', t', getKey⟩, d, s',
      by simp [State.step, andtreeRemoveKey, andtreeFindKey, hp, heq], hholds⟩
  | removeData d =>
    obtain ⟨p, hp, hlands⟩ := findDataLoop_lands getKey d h.focus.sub h.focus.sent
      h.fuel_lt
    obtain ⟨m', t', e, s', heq, hholds⟩ := h.removesFound hlands
    rw [← h.root_eq] at hp
    exact ⟨⟨m', t', getKey⟩, e, s',
      by simp [State.step, andtreeRemoveData, andtreeFindData, hp, heq], hholds⟩

end Operations

/-! ## Runs -/

/-- The states of the runs of a tree. Only a node that is to be removed has to be in the tree. -/
inductive Reached : State → Prop
  | init (m : Mem) (getKey : Ptr → ℤ) (hm : SentinelOk m) : Reached ⟨m, andtreeInit, getKey⟩
  | elsewhere {st : State} (m : Mem) (getKey : Ptr → ℤ) (h : Reached st)
      (hm : ∀ p, InTree st.mem st.tree p → m.get p = st.mem.get p) (hs : SentinelOk m) :
      Reached ⟨m, st.tree, getKey⟩
  | step {st st' : State} {ret : Ptr} (op : Op) (h : Reached st)
      (hop : ∀ node, op = .remove node → InTree st.mem st.tree node)
      (hstep : st.step op = some (st', ret)) : Reached st'

/-- **Every run keeps a balanced tree.** -/
theorem Reached.holds {st : State} (h : Reached st) : ∃ s, Holds st.mem st.tree s := by
  induction h with
  | init m getKey hm => exact ⟨.nil, andtreeInit_holds hm⟩
  | elsewhere m getKey _ hm hs ih =>
    obtain ⟨s, hholds⟩ := ih
    exact ⟨s, hholds.frame (fun a ha => hm a (hholds.inTree_iff.2 ha)) hs⟩
  | step op _ hop hstep ih =>
    obtain ⟨s, hholds⟩ := ih
    obtain ⟨st₁, ret₁, s', heq, hholds'⟩ := hholds.steps op hop
    rw [hstep, Option.some.injEq, Prod.mk.injEq] at heq
    exact ⟨s', heq.1 ▸ hholds'⟩

end C4OS.Andtree
