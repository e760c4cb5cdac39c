import C4OS.Andtree.Shapes

/-!
# The checker of the balanced trees

`andtree_check`, which the debug build asserts after every insertion and removal. It tests the level
conditions piece by piece, and two of the pieces are missing: the comparison of the levels skips an
empty leaf, so a node above level one with exactly one empty leaf passes, and it is made above level
one only, so a node on level one with a leaf above level one passes.

`balanced_iff` divides the ways for a tree not to be balanced into those that are reported and those
that are overlooked, and `andtree_check_iff` says that the checker is right about a tree unless all
that is wrong with it is overlooked.
-/

namespace C4OS.Andtree

open Foundations

/-! ## The checker -/

/-- The tests of `check_tree` on one leaf of a node above level one. -/
def checkLeaf (m : Mem) (n : AndNode) (side : Side) (valid : Bool) : Option Bool := do
  if ← isNil m (n.leaf side) then return valid
  else
    let c ← m.get (n.leaf side)
    -- missing pseudonode
    let valid := if c.level < n.level - 1 then false else valid
    -- invalid levels
    return if n.level < c.level then false else valid

/-- The tests of `check_tree` that are made above level one. -/
def checkLevels (m : Mem) (n : AndNode) (valid : Bool) : Option Bool :=
  if n.level > 1 then do
    let left ← isNil m n.left
    let right ← isNil m n.right
    -- external node
    let valid := if left && right then false else valid
    let valid ← checkLeaf m n .left valid
    checkLeaf m n .right valid
  else some valid

/-- `check_tree`, without what it prints. -/
def checkTree (m : Mem) : ℕ → Ptr → Option Bool
  | 0, _ => none
  | fuel + 1, node => do
    if ← isNil m node then return true
    else
      let n ← m.get node
      let left ← checkTree m fuel n.left
      let right ← checkTree m fuel n.right
      let valid ← checkLevels m n (left && right)
      let l ← m.get n.left
      -- horizontal left link
      let valid := if l.level = n.level then false else valid
      let r ← m.get n.right
      let rr ← m.get r.right
      -- too many horizontal right links
      return if rr.level = n.level then false else valid

/-- `andtree_check`. -/
def andtreeCheck (fuel : ℕ) (m : Mem) (t : AndTree) : Option Bool := checkTree m fuel t.root

/-! ## Trees with any levels -/

section Levels

variable {β : Type*}

/-- Some node, on its level and with its leaves, has the property. -/
def HasNode (P : ℕ → AATree β → AATree β → Prop) : AATree β → Prop
  | .nil => False
  | .node _ k l r => P k l r ∨ HasNode P l ∨ HasNode P r

/-- Every node is above level zero. -/
def Leveled : AATree β → Prop
  | .nil => True
  | .node _ k l r => 0 < k ∧ Leveled l ∧ Leveled r

/-- A leaf on level `c` does not belong below a node on level `k`. -/
def WrongLevel (k c : ℕ) : Prop := c ≠ 0 ∧ (c < k - 1 ∨ k < c)

/-- What the checker reports of a node. -/
def Reported (k : ℕ) (l r : AATree β) : Prop :=
  (1 < k ∧ (l.level = 0 ∧ r.level = 0 ∨ WrongLevel k l.level ∨ WrongLevel k r.level)) ∨
    l.level = k ∨ r.right.level = k

/-- What the checker overlooks: exactly one empty leaf above level one, and a leaf above level one
below a node on level one. -/
def Overlooked (k : ℕ) (l r : AATree β) : Prop :=
  (1 < k ∧ (l.level = 0 ∧ r.level ≠ 0 ∨ l.level ≠ 0 ∧ r.level = 0)) ∨
    (k = 1 ∧ (1 < l.level ∨ 1 < r.level))

/-- Below balanced leaves, the balance of a node. -/
theorem balanced_node_iff {b : β} {k : ℕ} {l r : AATree β} (hk : 0 < k) (hl : l.Balanced)
    (hr : r.Balanced) :
    (AATree.node b k l r).Balanced ↔ ¬ Reported k l r ∧ ¬ Overlooked k l r := by
  have hrr := hr.right_level_le
  rw [AATree.balanced_node, Reported, Overlooked, WrongLevel, WrongLevel]
  simp only [hl, hr, true_and]
  omega

/-- **A tree is balanced if nothing is reported and nothing is overlooked.** -/
theorem balanced_iff {s : AATree β} (h : Leveled s) :
    s.Balanced ↔ ¬ HasNode Reported s ∧ ¬ HasNode Overlooked s := by
  induction s with
  | nil => simp [HasNode]
  | node b k l r ihl ihr =>
    obtain ⟨hk, hl, hr⟩ := h
    have hnode : (AATree.node b k l r).Balanced ↔
        l.Balanced ∧ r.Balanced ∧ ¬ Reported k l r ∧ ¬ Overlooked k l r := by
      constructor
      · intro hbal
        have hbl := (AATree.balanced_node.1 hbal).1
        have hbr := (AATree.balanced_node.1 hbal).2.1
        exact ⟨hbl, hbr, (balanced_node_iff hk hbl hbr).1 hbal⟩
      · rintro ⟨hbl, hbr, hlocal⟩
        exact (balanced_node_iff hk hbl hbr).2 hlocal
    rw [hnode, ihl hl, ihr hr, HasNode, HasNode]
    simp only [not_or]
    constructor
    · rintro ⟨⟨hrl, hol⟩, ⟨hrr, hor⟩, hrep, hover⟩
      exact ⟨⟨hrep, hrl, hrr⟩, hover, hol, hor⟩
    · rintro ⟨⟨hrep, hrl, hrr⟩, hover, hol, hor⟩
      exact ⟨⟨hrl, hol⟩, ⟨hrr, hor⟩, hrep, hover⟩

end Levels

/-! ## The checker on a tree in memory -/

section Check

variable {m : Mem} {p : Ptr} {s : AATree Item}

/-- The memory `m` holds the nodes of `s` below the pointer `p`. Nothing is said of the parents. -/
def Linked (m : Mem) (p : Ptr) : AATree Item → Prop
  | .nil => p = sentinel
  | .node b k l r => p = b.addr ∧ 0 < k ∧
      ∃ n, m.get p = some n ∧ n.level = k ∧ n.data = b.data ∧ Linked m n.left l ∧ Linked m n.right r

theorem Linked.leveled (h : Linked m p s) : Leveled s := by
  induction s generalizing p with
  | nil => trivial
  | node b k l r ihl ihr =>
    obtain ⟨-, hk, n, -, -, -, hl, hr⟩ := h
    exact ⟨hk, ihl hl, ihr hr⟩

/-- The record a pointer leads to, the sentinel included. -/
theorem Linked.get (h : Linked m p s) (hs : SentinelOk m) :
    ∃ n, p ≠ null ∧ m.get p = some n ∧ n.level = s.level ∧ Linked m n.right s.right := by
  cases s with
  | nil =>
    obtain rfl : p = sentinel := h
    obtain ⟨par, d, hget⟩ := hs
    exact ⟨_, one_ne_zero, hget, rfl, rfl⟩
  | node b k l r =>
    obtain ⟨-, -, n, hget, hk, -, -, hr⟩ := h
    exact ⟨n, Store.ne_zero_of_get hget, hget, hk, hr⟩

theorem Linked.isNil (h : Linked m p s) (hs : SentinelOk m) :
    isNil m p = some (s.level == 0) := by
  obtain ⟨n, hp, hget, hk, -⟩ := h.get hs
  simp [Andtree.isNil, hp, hget, hk]

/-- The tests on one leaf. -/
theorem checkLeaf_eq {n : AndNode} (side : Side) (valid : Bool) (h : Linked m (n.leaf side) s)
    (hs : SentinelOk m) :
    ∃ b, checkLeaf m n side valid = some b ∧
      (b = true ↔ valid = true ∧ ¬ WrongLevel n.level s.level) := by
  obtain ⟨c, -, hget, hc, -⟩ := h.get hs
  by_cases h0 : s.level = 0
  · exact ⟨valid, by simp [checkLeaf, h.isNil hs, h0], by simp [WrongLevel, h0]⟩
  · refine ⟨if n.level < c.level then false else if c.level < n.level - 1 then false else valid,
      by simp [checkLeaf, h.isNil hs, h0, hget], ?_⟩
    rw [← hc, WrongLevel]
    rw [← hc] at h0
    split_ifs <;> simp <;> omega

/-- The tests that are made above level one. -/
theorem checkLevels_eq {n : AndNode} {l r : AATree Item} (valid : Bool) (hl : Linked m n.left l)
    (hr : Linked m n.right r) (hs : SentinelOk m) :
    ∃ b, checkLevels m n valid = some b ∧ (b = true ↔ valid = true ∧ ¬ (1 < n.level ∧
      (l.level = 0 ∧ r.level = 0 ∨ WrongLevel n.level l.level ∨
        WrongLevel n.level r.level))) := by
  by_cases hlev : n.level > 1
  swap
  · exact ⟨valid, if_neg hlev, by simp [hlev]⟩
  obtain ⟨b, hb, hbv⟩ := checkLeaf_eq (n := n) .left
    (if l.level == 0 && r.level == 0 then false else valid) hl hs
  obtain ⟨c, hc, hcv⟩ := checkLeaf_eq (n := n) .right b hr hs
  refine ⟨c, ?_, ?_⟩
  · rw [checkLevels, if_pos hlev]
    simp only [hl.isNil hs, hr.isNil hs, Option.bind_eq_bind, Option.bind_some]
    rw [hb, Option.bind_some, hc]
  · rw [hcv, hbv]
    by_cases h0 : l.level = 0 ∧ r.level = 0
    · simp [h0, hlev]
    · have hif : (if l.level == 0 && r.level == 0 then false else valid) = valid := by
        rw [if_neg]
        simpa using h0
      rw [hif, or_iff_right h0, not_and, and_assoc, ← not_or]
      exact and_congr_right fun _ => ⟨fun h _ => h, fun h => h hlev⟩

/-- **What the checker answers.** -/
theorem checkTree_eq {fuel : ℕ} (h : Linked m p s) (hs : SentinelOk m)
    (hfuel : s.toList.length < fuel) :
    ∃ b, checkTree m fuel p = some b ∧ (b = true ↔ ¬ HasNode Reported s) := by
  induction fuel generalizing p s with
  | zero => omega
  | succ fuel ih =>
    have hnil := h.isNil hs
    cases s with
    | nil => exact ⟨true, by simp [checkTree, hnil], by simp [HasNode]⟩
    | node b k l r =>
      obtain ⟨-, hk, n, hget, rfl, -, hl, hr⟩ := h
      obtain ⟨x, hx, hxv⟩ := ih hl (length_childOn_lt .left hfuel)
      obtain ⟨y, hy, hyv⟩ := ih hr (length_childOn_lt .right hfuel)
      obtain ⟨ln, -, hln, hllev, -⟩ := hl.get hs
      obtain ⟨rn, -, hrn, -, hright⟩ := hr.get hs
      obtain ⟨rrn, -, hrrn, hrrlev, -⟩ := hright.get hs
      obtain ⟨z, hz, hzv⟩ := checkLevels_eq (x && y) hl hr hs
      refine ⟨if rrn.level = n.level then false else if ln.level = n.level then false else z,
        ?_, ?_⟩
      · have hlevel : ((AATree.node b n.level l r).level == 0) = false := by simpa using hk.ne'
        rw [hlevel] at hnil
        simp only [checkTree, hnil, hget, hx, hy, hln, hrn, hrrn, Option.bind_eq_bind,
          Option.bind_some, Bool.false_eq_true, if_false, hz]
        rfl
      · rw [Bool.and_eq_true, hxv, hyv] at hzv
        rw [HasNode, Reported, ← hrrlev, ← hllev]
        rw [← hllev] at hzv
        split_ifs with hrr hll
        · simp [hrr]
        · simp [hll]
        · have hlinks : ¬ (ln.level = n.level ∨ rrn.level = n.level) := not_or.2 ⟨hll, hrr⟩
          rw [hzv, or_iff_left hlinks, ← not_or, ← not_or, or_comm]

theorem Repr.linked {par : Ptr} (h : Repr m par s) : Linked m (root s) s := by
  induction s generalizing par with
  | nil => rfl
  | node b k l r ihl ihr =>
    obtain ⟨-, hk, hget, hl, hr⟩ := h
    exact ⟨rfl, hk, _, hget, rfl, rfl, ihl hl, ihr hr⟩

/-- The assertion of the debug build: the checker accepts the tree of every state of a run. -/
theorem Reached.andtreeCheck {st : State} (h : Reached st) :
    Andtree.andtreeCheck st.tree.fuel st.mem st.tree = some true := by
  obtain ⟨s, hs⟩ := h.holds
  have hlinked := hs.focus.sub.linked
  obtain ⟨b, hb, hbv⟩ := checkTree_eq hlinked hs.focus.sent hs.fuel_lt
  rw [Andtree.andtreeCheck, hs.root_eq, hb, hbv.2 ((balanced_iff hlinked.leveled).1 hs.balanced).1]

end Check

/-- **The checker is right about a tree unless all that is wrong with it is overlooked.** For every
tree of nodes above level zero the checker returns, and its answer is the balance of the tree if
and only if a node of the tree is reported or none is overlooked. -/
theorem andtree_check_iff {m : Mem} {t : AndTree} {s : AATree Item} {fuel : ℕ}
    (h : Linked m t.root s) (hs : SentinelOk m) (hfuel : s.toList.length < fuel) :
    ∃ b, andtreeCheck fuel m t = some b ∧
      ((b = true ↔ s.Balanced) ↔ (HasNode Reported s ∨ ¬ HasNode Overlooked s)) := by
  obtain ⟨b, hb, hbv⟩ := checkTree_eq h hs hfuel
  refine ⟨b, hb, ?_⟩
  rw [hbv, balanced_iff h.leveled]
  by_cases hrep : HasNode Reported s
  · simp [hrep]
  · simp [hrep]

/-- A node on level two whose left leaf is empty and whose right leaf is on level one. -/
def lopsided : AATree Item := .node ⟨2, 10⟩ 2 .nil (.node ⟨3, 11⟩ 1 .nil .nil)

/-- The memory of `lopsided`. -/
def lopsidedMem : Mem :=
  ((Store.empty.set sentinel ⟨null, sentinel, sentinel, 0, null⟩).set 2
    ⟨null, sentinel, 3, 2, 10⟩).set 3 ⟨2, sentinel, sentinel, 1, 11⟩

theorem lopsided_linked : Linked lopsidedMem 2 lopsided :=
  ⟨rfl, two_pos, _, rfl, rfl, rfl, rfl, rfl, one_pos, _, rfl, rfl, rfl, rfl, rfl⟩

theorem lopsidedMem_sentinel : SentinelOk lopsidedMem := ⟨_, _, rfl⟩

theorem andtree_check_iff_lopsided : ∃ b, andtreeCheck 3 lopsidedMem ⟨2, 2⟩ = some b ∧
    ((b = true ↔ lopsided.Balanced) ↔
      (HasNode Reported lopsided ∨ ¬ HasNode Overlooked lopsided)) :=
  andtree_check_iff lopsided_linked lopsidedMem_sentinel (Nat.lt_succ_self 2)

/-- The checker accepts a tree that is not balanced. -/
theorem andtree_check_lopsided :
    ¬ ∀ (m : Mem) (t : AndTree) (s : AATree Item) (fuel : ℕ), Linked m t.root s → SentinelOk m →
      s.toList.length < fuel → ∃ b, andtreeCheck fuel m t = some b ∧ (b = true ↔ s.Balanced) := by
  intro h
  obtain ⟨b, hb, hbal⟩ := h lopsidedMem ⟨2, 2⟩ lopsided 3 lopsided_linked lopsidedMem_sentinel
    (Nat.lt_succ_self 2)
  obtain rfl : true = b := Option.some.inj ((show _ = some true by decide).symm.trans hb)
  have hleft := (hbal.1 rfl).2.2.1
  exact absurd hleft (by decide)

end C4OS.Andtree
