import C4OS.Andtree.Shapes

/-!
# Iterating over the balanced trees

The ends of a tree and the walks from one of them to the other. A step of a walk goes down into a
leaf or climbs the `parent` pointers, in a memory where the rotations and removals of the run have
written the `parent` of the shared sentinel.

`andtree_iteration` says that in every state of a run, whatever the keys are, both walks reach
`NULL` and visit the nodes that can be reached from the root once each, in order and in reverse
order, and that the two steps undo each other.
-/

namespace C4OS.Andtree

open Foundations

/-- `andtree_start`. -/
def andtreeStart (m : Mem) (t : AndTree) : Option Ptr := findMinNode t.fuel m t.root

/-- `andtree_end`. -/
def andtreeEnd (m : Mem) (t : AndTree) : Option Ptr := findMaxNode t.fuel m t.root

/-- The nodes that are visited from `p` on until the step returns `NULL`. -/
def walk (next : Ptr → Option Ptr) : ℕ → Ptr → Option (List Ptr)
  | 0, _ => none
  | fuel + 1, p =>
    if p = null then some []
    else do
      let q ← next p
      let rest ← walk next fuel q
      return p :: rest

/-! ## Walks along a list -/

section Walks

variable {next : Ptr → Option Ptr} {l xs ys : List Item} {b : Item} {fuel : ℕ}

@[simp] theorem headAddr_nil : headAddr [] = null := rfl

@[simp] theorem headAddr_cons : headAddr (b :: ys) = b.addr := rfl

@[simp] theorem lastAddr_nil : lastAddr [] = null := rfl

@[simp] theorem lastAddr_concat : lastAddr (xs ++ [b]) = b.addr := by simp [lastAddr]

/-- A step to the next item walks through the items that follow. -/
theorem walk_head (hl : ∀ c ∈ l, c.addr ≠ null)
    (hnext : ∀ xs b ys, l = xs ++ b :: ys → next b.addr = some (headAddr ys))
    (h : l = xs ++ ys) (hfuel : ys.length < fuel) :
    walk next fuel (headAddr ys) = some (ys.map Item.addr) := by
  induction ys generalizing xs fuel with
  | nil =>
    obtain ⟨fuel, rfl⟩ := Nat.exists_eq_succ_of_ne_zero (Nat.ne_of_gt hfuel)
    rfl
  | cons b ys ih =>
    obtain ⟨fuel, rfl⟩ := Nat.exists_eq_succ_of_ne_zero (Nat.ne_zero_of_lt hfuel)
    have hb : b.addr ≠ null := hl b (h ▸ by simp)
    have hsplit : l = (xs ++ [b]) ++ ys := by rw [h, List.append_cons]
    have hrest := ih hsplit (Nat.lt_of_succ_lt_succ hfuel)
    rw [headAddr_cons, walk, if_neg hb, hnext xs b ys h, Option.bind_eq_bind, Option.bind_some,
      hrest]
    rfl

/-- A step to the previous item walks through the items before, in reverse order. -/
theorem walk_last (hl : ∀ c ∈ l, c.addr ≠ null)
    (hprev : ∀ xs b ys, l = xs ++ b :: ys → next b.addr = some (lastAddr xs))
    (h : l = xs ++ ys) (hfuel : xs.length < fuel) :
    walk next fuel (lastAddr xs) = some (xs.map Item.addr).reverse := by
  induction xs using List.reverseRecOn generalizing ys fuel with
  | nil =>
    obtain ⟨fuel, rfl⟩ := Nat.exists_eq_succ_of_ne_zero (Nat.ne_of_gt hfuel)
    rfl
  | append_singleton xs b ih =>
    obtain ⟨fuel, rfl⟩ := Nat.exists_eq_succ_of_ne_zero (Nat.ne_zero_of_lt hfuel)
    have hsplit : l = xs ++ b :: ys := by rw [h, List.append_assoc, List.singleton_append]
    have hb : b.addr ≠ null := hl b (h ▸ by simp)
    have hlen : xs.length < fuel := by
      rw [List.length_append, List.length_singleton] at hfuel
      exact Nat.lt_of_succ_lt_succ hfuel
    rw [lastAddr_concat, walk, if_neg hb, hprev xs b ys hsplit, Option.bind_eq_bind,
      Option.bind_some, ih hsplit hlen, List.map_append, List.reverse_append]
    rfl

end Walks

/-! ## Walks through a tree -/

section Steps

variable {m : Mem} {t : AndTree} {s : AATree Item} {p q : Ptr}

theorem Holds.addr_ne_null (h : Holds m t s) {c : Item} (hc : c ∈ s.toList) : c.addr ≠ null := by
  intro hnull
  have hmem : c.addr ∈ addrs s := List.mem_map_of_mem hc
  rw [hnull] at hmem
  exact h.focus.sub.zero_notMem hmem

theorem Holds.next (h : Holds m t s) {xs ys : List Item} {b : Item}
    (hs : s.toList = xs ++ b :: ys) : andtreeNext t.fuel m b.addr = some (headAddr ys) :=
  andtreeNext_eq h.focus hs h.fuel_lt

theorem Holds.previous (h : Holds m t s) {xs ys : List Item} {b : Item}
    (hs : s.toList = xs ++ b :: ys) : andtreePrevious t.fuel m b.addr = some (lastAddr xs) :=
  andtreePrevious_eq h.focus hs h.fuel_lt

/-- A node of the tree between the items before and after it. -/
theorem Holds.exists_split (h : Holds m t s) (hp : InTree m t p) :
    ∃ xs b ys, s.toList = xs ++ b :: ys ∧ b.addr = p := by
  obtain ⟨b, hb, rfl⟩ := List.mem_map.1 (h.inTree_iff.1 hp)
  obtain ⟨xs, ys, hs⟩ := List.append_of_mem hb
  exact ⟨xs, b, ys, hs, rfl⟩

/-- The step back from the next node. -/
theorem Holds.previous_next (h : Holds m t s) (hp : InTree m t p)
    (hq : andtreeNext t.fuel m p = some q) (hne : q ≠ null) :
    andtreePrevious t.fuel m q = some p := by
  obtain ⟨xs, b, ys, hs, rfl⟩ := h.exists_split hp
  obtain rfl : headAddr ys = q := Option.some.inj ((h.next hs).symm.trans hq)
  cases ys with
  | nil => exact absurd rfl hne
  | cons c ys =>
    have hback : andtreePrevious t.fuel m c.addr = some (lastAddr (xs ++ [b])) :=
      h.previous (by rw [hs, List.append_cons])
    rwa [lastAddr_concat] at hback

/-- The step on from the previous node. -/
theorem Holds.next_previous (h : Holds m t s) (hp : InTree m t p)
    (hq : andtreePrevious t.fuel m p = some q) (hne : q ≠ null) :
    andtreeNext t.fuel m q = some p := by
  obtain ⟨xs, b, ys, hs, rfl⟩ := h.exists_split hp
  obtain rfl : lastAddr xs = q := Option.some.inj ((h.previous hs).symm.trans hq)
  rcases List.eq_nil_or_concat xs with rfl | ⟨xs, c, rfl⟩
  · exact absurd rfl hne
  · rw [List.concat_eq_append] at hs ⊢
    have hon : andtreeNext t.fuel m c.addr = some (headAddr (b :: ys)) :=
      h.next (by rw [hs, ← List.append_cons])
    rw [lastAddr_concat, hon]
    rfl

end Steps

/-- **Iteration visits the tree in order, both ways.** In every state of a run the walk from
`andtree_start` with `andtree_next` and the walk from `andtree_end` with `andtree_previous` end and
visit the nodes of the tree once each, in order and in reverse order. Both steps return for every
node, and each undoes the other. -/
theorem andtree_iteration {st : State} (h : Reached st) :
    ∃ l, st.items = some l ∧ (l.map Item.addr).Nodup ∧
      (∀ p, InTree st.mem st.tree p ↔ p ∈ l.map Item.addr) ∧
      (∃ p, andtreeStart st.mem st.tree = some p ∧
        walk (andtreeNext st.tree.fuel st.mem) st.tree.fuel p = some (l.map Item.addr)) ∧
      (∃ p, andtreeEnd st.mem st.tree = some p ∧
        walk (andtreePrevious st.tree.fuel st.mem) st.tree.fuel p =
          some (l.map Item.addr).reverse) ∧
      ∀ p, InTree st.mem st.tree p →
        (∃ q, andtreeNext st.tree.fuel st.mem p = some q ∧
          (q ≠ null → andtreePrevious st.tree.fuel st.mem q = some p)) ∧
        ∃ q, andtreePrevious st.tree.fuel st.mem p = some q ∧
          (q ≠ null → andtreeNext st.tree.fuel st.mem q = some p) := by
  obtain ⟨s, hh⟩ := h.holds
  have hnull : ∀ c ∈ s.toList, c.addr ≠ null := fun c => hh.addr_ne_null
  have hroot := hh.root_eq
  refine ⟨s.toList, hh.inorder_eq, hh.addrs_nodup, fun p => hh.inTree_iff,
    ⟨headAddr s.toList, ?_, ?_⟩, ⟨lastAddr s.toList, ?_, ?_⟩, fun p hp => ?_⟩
  · rw [andtreeStart, hroot]
    exact findMinNode_eq hh.focus.sub hh.focus.sent hh.fuel_lt
  · exact walk_head hnull (fun xs b ys => hh.next) (List.nil_append _).symm hh.fuel_lt
  · rw [andtreeEnd, hroot]
    exact findMaxNode_last hh.focus.sub hh.focus.sent hh.fuel_lt
  · exact walk_last hnull (fun xs b ys => hh.previous) (List.append_nil _).symm hh.fuel_lt
  · obtain ⟨xs, b, ys, hsplit, rfl⟩ := hh.exists_split hp
    exact ⟨⟨_, hh.next hsplit, hh.previous_next hp (hh.next hsplit)⟩,
      ⟨_, hh.previous hsplit, hh.next_previous hp (hh.previous hsplit)⟩⟩

/-- A tree of four data after a removal. -/
theorem andtree_iteration_removed : ∃ st l, Reached st ∧ st.items = some l ∧
    l.map Item.data = [8, 10, 12] ∧
    ∃ p, andtreeStart st.mem st.tree = some p ∧
      walk (andtreeNext st.tree.fuel st.mem) st.tree.fuel p = some (l.map Item.addr) := by
  have h₀ : Reached State.start := .init _ _ ⟨_, _, rfl⟩
  have h₁ := h₀.step (.insert .bump 10) nofun rfl
  have h₂ := h₁.step (.insert .bump 14) nofun rfl
  have h₃ := h₂.step (.insert .bump 8) nofun rfl
  have h₄ := h₃.step (.insert .bump 12) nofun rfl
  have h₅ := h₄.step (.removeKey 7) nofun rfl
  obtain ⟨l, hl, -, -, hwalk, -⟩ := andtree_iteration h₅
  obtain rfl : _ = l := Option.some.inj hl
  exact ⟨_, _, h₅, hl, by decide, hwalk⟩

end C4OS.Andtree
