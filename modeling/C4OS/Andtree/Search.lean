import C4OS.Andtree.Remove

/-!
# Searching

The searches of `andtree.c` in a tree whose items are sorted by key, with all the key differences
that are taken inside the range of an `int` (`FitsInt`). `findKeyLoop_eq` and `findDataLoop_eq`
say what the two searches by key and by data find, `findKeyLoop_null` and `findDataLoop_null` that
they find nothing where there is nothing, whatever the differences are, and `andtreeNext_eq` and
`andtreePrevious_eq` that the neighbours of a node are its neighbours in the in-order list.
-/

namespace C4OS.Andtree

open Foundations

/-- The difference of `key` and the key of each item is an `int`. -/
def FitsInt (getKey : Ptr → ℤ) (key : ℤ) (l : List Item) : Prop :=
  ∀ b ∈ l, -2 ^ 31 ≤ key - getKey b.data ∧ key - getKey b.data < 2 ^ 31

instance (getKey : Ptr → ℤ) (key : ℤ) (l : List Item) : Decidable (FitsInt getKey key l) :=
  inferInstanceAs (Decidable (∀ b ∈ l, _))

/-- The items are sorted by key. -/
def SortedBy (getKey : Ptr → ℤ) (l : List Item) : Prop :=
  l.Pairwise fun a b => getKey a.data ≤ getKey b.data

/-- The result of a search: a node among the items with the property, or `NULL` if there is none. -/
def Found (P : Item → Prop) (l : List Item) (p : Ptr) : Prop :=
  (p ≠ null ∧ ∃ b ∈ l, b.addr = p ∧ P b) ∨ (p = null ∧ ∀ b ∈ l, ¬ P b)

/-- The value of an `int`. -/
def IsInt (a : ℤ) : Prop := -2 ^ 31 ≤ a ∧ a < 2 ^ 31

instance (a : ℤ) : Decidable (IsInt a) := inferInstanceAs (Decidable (_ ∧ _))

/-- Only equal keys have the difference zero, also where the subtraction overflows. -/
theorem intSub_eq_zero {a b : ℤ} (ha : IsInt a) (hb : IsInt b) (h : intSub a b = 0) : a = b := by
  obtain ⟨ha, ha'⟩ := ha
  obtain ⟨hb, hb'⟩ := hb
  have hdvd : ((2 ^ 32 : ℕ) : ℤ) ∣ a - b := Int.dvd_of_bmod_eq_zero h
  omega

theorem intSub_eq {a b : ℤ} (h : -2 ^ 31 ≤ a - b ∧ a - b < 2 ^ 31) : intSub a b = a - b := by
  unfold intSub
  rw [Int.bmod_eq_of_le (by omega) (by omega)]

section Find

variable {getKey : Ptr → ℤ} {m : Mem} {par : Ptr} {key : ℤ} {b : Item} {k : ℕ} {l r : AATree Item}

theorem FitsInt.node (h : FitsInt getKey key (AATree.node b k l r).toList) :
    FitsInt getKey key l.toList ∧ intSub key (getKey b.data) = key - getKey b.data ∧
      FitsInt getKey key r.toList := by
  refine ⟨fun c hc => h c ?_, intSub_eq (h b ?_), fun c hc => h c ?_⟩
  · simp [hc]
  · simp
  · simp [hc]

theorem SortedBy.node (h : SortedBy getKey (AATree.node b k l r).toList) :
    SortedBy getKey l.toList ∧ SortedBy getKey r.toList ∧
      (∀ c ∈ l.toList, getKey c.data ≤ getKey b.data) ∧
      ∀ c ∈ r.toList, getKey b.data ≤ getKey c.data := by
  rw [SortedBy, AATree.toList_node, List.pairwise_append, List.pairwise_cons] at h
  exact ⟨h.1, h.2.1.2, fun c hc => h.2.2 c hc b (by simp), h.2.1.1⟩

/-- The subtree on one side. -/
def childOn (side : Side) (l r : AATree Item) : AATree Item :=
  match side with
  | .left => l
  | .right => r

theorem length_childOn_lt {n : ℕ} (side : Side)
    (h : (AATree.node b k l r).toList.length < n + 1) : (childOn side l r).toList.length < n := by
  simp only [AATree.toList_node, List.length_append, List.length_cons] at h
  cases side <;> simp only [childOn] <;> omega

theorem mem_of_childOn {side : Side} {c : Item} (h : c ∈ (childOn side l r).toList) :
    c ∈ (AATree.node b k l r).toList := by
  cases side with
  | left => simp [show c ∈ l.toList from h]
  | right => simp [show c ∈ r.toList from h]

theorem Repr.childOn (h : Repr m par (.node b k l r)) (side : Side) :
    Repr m b.addr (childOn side l r) := by
  cases side with
  | left => exact h.2.2.2.1
  | right => exact h.2.2.2.2

theorem leaf_eq_childOn (side : Side) (d : Ptr) :
    AndNode.leaf ⟨par, root l, root r, k, d⟩ side = root (childOn side l r) := by
  cases side <;> rfl

theorem SortedBy.childOn (h : SortedBy getKey (AATree.node b k l r).toList) (side : Side) :
    SortedBy getKey (childOn side l r).toList := by
  cases side with
  | left => exact h.node.1
  | right => exact h.node.2.1

theorem FitsInt.childOn (h : FitsInt getKey key (AATree.node b k l r).toList) (side : Side) :
    FitsInt getKey key (childOn side l r).toList := by
  cases side with
  | left => exact h.node.1
  | right => exact h.node.2.2

/-- An item with the key is on the side a comparison that is not zero leads to. -/
theorem SortedBy.follow (h : SortedBy getKey (AATree.node b k l r).toList)
    (hne : key - getKey b.data ≠ 0) {c : Item} (hc : c ∈ (AATree.node b k l r).toList)
    (hkey : getKey c.data = key) :
    c ∈ (Andtree.childOn (direction (key - getKey b.data)) l r).toList := by
  obtain ⟨-, -, hl, hr⟩ := h.node
  rw [AATree.toList_node, List.mem_append, List.mem_cons] at hc
  by_cases hdir : key - getKey b.data ≤ 0
  · rw [direction, if_pos hdir]
    rcases hc with hc | rfl | hc
    · exact hc
    · omega
    · have := hr c hc
      omega
  · rw [direction, if_neg hdir]
    rcases hc with hc | rfl | hc
    · have := hl c hc
      omega
    · omega
    · exact hc

/-- What is found in the subtree that holds all the items with the property is found in the
tree. -/
theorem Found.of_childOn {P : Item → Prop} {side : Side} {p : Ptr}
    (h : Found P (Andtree.childOn side l r).toList p)
    (hP : ∀ c ∈ (AATree.node b k l r).toList, P c → c ∈ (Andtree.childOn side l r).toList) :
    Found P (AATree.node b k l r).toList p := by
  refine h.imp ?_ ?_
  · rintro ⟨hp, c, hc, hcp⟩
    exact ⟨hp, c, mem_of_childOn hc, hcp⟩
  · rintro ⟨hp, hnone⟩
    exact ⟨hp, fun c hc hPc => hnone c (hP c hc hPc) hPc⟩

/-- **What the search by key finds.** -/
theorem findKeyLoop_eq {s : AATree Item} {fuel : ℕ} (h : Repr m par s) (hs : SentinelOk m)
    (hsort : SortedBy getKey s.toList) (hfit : FitsInt getKey key s.toList)
    (hfuel : s.toList.length < fuel) :
    ∃ p, findKeyLoop getKey m key fuel (root s) = some p ∧
      Found (getKey ·.data = key) s.toList p := by
  induction fuel generalizing par s with
  | zero => omega
  | succ fuel ih =>
    cases s with
    | nil =>
      refine ⟨null, by simp [findKeyLoop, isNil_sentinel hs], .inr ⟨rfl, by simp⟩⟩
    | node b k l r =>
      have hg := h.2.2.1
      have hsub := hfit.node.2.1
      by_cases hz : key - getKey b.data = 0
      · refine ⟨b.addr, ?_, .inl ⟨Store.ne_zero_of_get hg, b, by simp, rfl, by omega⟩⟩
        simp [findKeyLoop, h.isNil_node, andtreeCompare, hg, hsub, hz]
      · set side := direction (key - getKey b.data) with hside
        obtain ⟨p, hp, hfound⟩ := ih (h.childOn side) (hsort.childOn side) (hfit.childOn side)
          (length_childOn_lt side hfuel)
        refine ⟨p, ?_, hfound.of_childOn fun c hc hkey => hsort.follow hz hc hkey⟩
        rw [← hp, root_node, findKeyLoop]
        simp [h.isNil_node, andtreeCompare, hg, hsub, hz, ← hside, leaf_eq_childOn]

/-- **What the search among equal keys finds.** -/
theorem andtreeFindDupeData_eq {s : AATree Item} {fuel : ℕ} {d : Ptr} (h : Repr m par s)
    (hs : SentinelOk m) (hsort : SortedBy getKey s.toList)
    (hfit : FitsInt getKey (getKey d) s.toList) (hfuel : s.toList.length < fuel) :
    ∃ p, andtreeFindDupeData getKey m d fuel (root s) = some p ∧
      Found (·.data = d) s.toList p := by
  induction fuel generalizing par s with
  | zero => omega
  | succ fuel ih =>
    cases s with
    | nil =>
      refine ⟨null, by simp [andtreeFindDupeData, isNil_sentinel hs], .inr ⟨rfl, by simp⟩⟩
    | node b k l r =>
      have hg := h.2.2.1
      have hsub := hfit.node.2.1
      have hchild : ∀ side, ∃ p, andtreeFindDupeData getKey m d fuel
          (root (Andtree.childOn side l r)) = some p ∧
          Found (·.data = d) (Andtree.childOn side l r).toList p := fun side =>
        ih (h.childOn side) (hsort.childOn side) (hfit.childOn side) (length_childOn_lt side hfuel)
      by_cases hd : b.data = d
      · refine ⟨b.addr, ?_, .inl ⟨Store.ne_zero_of_get hg, b, by simp, rfl, hd⟩⟩
        simp [andtreeFindDupeData, h.isNil_node, hg, hd]
      by_cases hz : getKey d - getKey b.data = 0
      · -- both subtrees are searched
        obtain ⟨p, hp, hpfound⟩ := hchild .left
        obtain ⟨q, hq, hqfound⟩ := hchild .right
        simp only [Andtree.childOn] at hp hq hpfound hqfound
        rcases hpfound with ⟨hp0, c, hc, hcp⟩ | ⟨rfl, hpnone⟩
        · refine ⟨p, ?_, .inl ⟨hp0, c, by simp [hc], hcp⟩⟩
          simp [andtreeFindDupeData, h.isNil_node, hg, hd, andtreeCompare, hsub, hz, hp, hp0]
        rcases hqfound with ⟨hq0, c, hc, hcq⟩ | ⟨rfl, hqnone⟩
        · refine ⟨q, ?_, .inl ⟨hq0, c, by simp [hc], hcq⟩⟩
          simp [andtreeFindDupeData, h.isNil_node, hg, hd, andtreeCompare, hsub, hz, hp, hq, hq0]
        · refine ⟨null, ?_, .inr ⟨rfl, fun c hc => ?_⟩⟩
          · simp [andtreeFindDupeData, h.isNil_node, hg, hd, andtreeCompare, hsub, hz, hp, hq,
              direction, AndNode.leaf]
          · rw [AATree.toList_node, List.mem_append, List.mem_cons] at hc
            rcases hc with hc | rfl | hc
            · exact hpnone c hc
            · exact hd
            · exact hqnone c hc
      · set side := direction (getKey d - getKey b.data) with hside
        obtain ⟨p, hp, hfound⟩ := hchild side
        refine ⟨p, ?_, hfound.of_childOn fun c hc hcd => hsort.follow hz hc (by rw [hcd])⟩
        rw [← hp, root_node, andtreeFindDupeData]
        simp [h.isNil_node, andtreeCompare, hg, hd, hsub, hz, ← hside, leaf_eq_childOn]

/-- **What the search by data finds.** -/
theorem findDataLoop_eq {s : AATree Item} {fuel : ℕ} {d : Ptr} (h : Repr m par s)
    (hs : SentinelOk m) (hsort : SortedBy getKey s.toList)
    (hfit : FitsInt getKey (getKey d) s.toList) (hfuel : s.toList.length < fuel) :
    ∃ p, findDataLoop getKey m d fuel (root s) = some p ∧ Found (·.data = d) s.toList p := by
  induction fuel generalizing par s with
  | zero => omega
  | succ fuel ih =>
    cases s with
    | nil =>
      refine ⟨null, by simp [findDataLoop, isNil_sentinel hs], .inr ⟨rfl, by simp⟩⟩
    | node b k l r =>
      have hg := h.2.2.1
      have hsub := hfit.node.2.1
      by_cases hz : getKey d - getKey b.data = 0
      · obtain ⟨p, hp, hfound⟩ := andtreeFindDupeData_eq h hs hsort hfit hfuel
        refine ⟨p, ?_, hfound⟩
        rw [← hp, root_node, findDataLoop]
        simp [h.isNil_node, andtreeCompare, hg, hsub, hz]
      · set side := direction (getKey d - getKey b.data) with hside
        obtain ⟨p, hp, hfound⟩ := ih (h.childOn side) (hsort.childOn side) (hfit.childOn side)
          (length_childOn_lt side hfuel)
        refine ⟨p, ?_, hfound.of_childOn fun c hc hcd => hsort.follow hz hc (by rw [hcd])⟩
        rw [← hp, root_node, findDataLoop]
        simp [h.isNil_node, andtreeCompare, hg, hsub, hz, ← hside, leaf_eq_childOn]

/-- The search by key ends at `NULL` where no difference with a key on its way is zero, whether or
not the differences fit in an `int`. -/
theorem findKeyLoop_null {s : AATree Item} {fuel : ℕ} (h : Repr m par s) (hs : SentinelOk m)
    (hne : ∀ b ∈ s.toList, intSub key (getKey b.data) ≠ 0) (hfuel : s.toList.length < fuel) :
    findKeyLoop getKey m key fuel (root s) = some null := by
  induction fuel generalizing par s with
  | zero => omega
  | succ fuel ih =>
    cases s with
    | nil => simp [findKeyLoop, isNil_sentinel hs]
    | node b k l r =>
      have hg := h.2.2.1
      have hb : intSub key (getKey b.data) ≠ 0 := hne b (by simp)
      set side := direction (intSub key (getKey b.data)) with hside
      rw [← ih (h.childOn side) (fun c hc => hne c (mem_of_childOn hc))
        (length_childOn_lt side hfuel), root_node, findKeyLoop]
      simp [h.isNil_node, andtreeCompare, hg, hb, ← hside, leaf_eq_childOn]

/-- The search among equal keys ends at `NULL` where no item has the data, whatever the
differences of the keys are. -/
theorem andtreeFindDupeData_null {s : AATree Item} {fuel : ℕ} {d : Ptr} (h : Repr m par s)
    (hs : SentinelOk m) (hnone : ∀ b ∈ s.toList, b.data ≠ d) (hfuel : s.toList.length < fuel) :
    andtreeFindDupeData getKey m d fuel (root s) = some null := by
  induction fuel generalizing par s with
  | zero => omega
  | succ fuel ih =>
    cases s with
    | nil => simp [andtreeFindDupeData, isNil_sentinel hs]
    | node b k l r =>
      have hg := h.2.2.1
      have hb : b.data ≠ d := hnone b (by simp)
      have hchild (side : Side) : andtreeFindDupeData getKey m d fuel
          (root (Andtree.childOn side l r)) = some null :=
        ih (h.childOn side) (fun c hc => hnone c (mem_of_childOn hc))
          (length_childOn_lt side hfuel)
      have hleaf (diff : ℤ) := hchild (direction diff)
      rw [root_node, andtreeFindDupeData]
      by_cases hz : intSub (getKey d) (getKey b.data) = 0
      · have hleft := hchild .left
        have hright := hchild .right
        simp only [Andtree.childOn] at hleft hright
        simp [h.isNil_node, andtreeCompare, hg, hb, hz, hleft, hright, leaf_eq_childOn, hleaf]
      · simp [h.isNil_node, andtreeCompare, hg, hb, hz, leaf_eq_childOn, hleaf]

/-- The search by data ends at `NULL` where no item has the data. -/
theorem findDataLoop_null {s : AATree Item} {fuel : ℕ} {d : Ptr} (h : Repr m par s)
    (hs : SentinelOk m) (hnone : ∀ b ∈ s.toList, b.data ≠ d) (hfuel : s.toList.length < fuel) :
    findDataLoop getKey m d fuel (root s) = some null := by
  induction fuel generalizing par s with
  | zero => omega
  | succ fuel ih =>
    cases s with
    | nil => simp [findDataLoop, isNil_sentinel hs]
    | node b k l r =>
      have hg := h.2.2.1
      by_cases hz : intSub (getKey d) (getKey b.data) = 0
      · have hdupe : andtreeFindDupeData getKey m d _ (root (.node b k l r)) = some null :=
          andtreeFindDupeData_null h hs hnone hfuel
        rw [← hdupe, root_node, findDataLoop]
        simp [h.isNil_node, andtreeCompare, hg, hz]
      · set side := direction (intSub (getKey d) (getKey b.data)) with hside
        rw [← ih (h.childOn side) (fun c hc => hnone c (mem_of_childOn hc))
          (length_childOn_lt side hfuel), root_node, findDataLoop]
        simp [h.isNil_node, andtreeCompare, hg, hz, ← hside, leaf_eq_childOn]

/-- What the search for a lower bound finds: an item with the least key that is at least `key`, or
`NULL` if all keys are below. -/
def FoundAtLeast (getKey : Ptr → ℤ) (key : ℤ) (l : List Item) (p : Ptr) : Prop :=
  (p ≠ null ∧ ∃ b ∈ l, b.addr = p ∧ key ≤ getKey b.data ∧
    ∀ c ∈ l, key ≤ getKey c.data → getKey b.data ≤ getKey c.data) ∨
  (p = null ∧ ∀ b ∈ l, getKey b.data < key)

theorem Repr.get_mem {s : AATree Item} (h : Repr m par s) {c : Item} (hc : c ∈ s.toList) :
    ∃ n, m.get c.addr = some n ∧ n.data = c.data := by
  induction s generalizing par with
  | nil => simp at hc
  | node b k l r ihl ihr =>
    obtain ⟨-, -, hg, hl, hr⟩ := h
    rw [AATree.toList_node, List.mem_append, List.mem_cons] at hc
    rcases hc with hc | rfl | hc
    · exact ihl hl hc
    · exact ⟨_, hg, rfl⟩
    · exact ihr hr hc

/-- **What the search for a lower bound finds.** -/
theorem doFindAtLeast_eq {s : AATree Item} {fuel : ℕ} (h : Repr m par s) (hs : SentinelOk m)
    (hsort : SortedBy getKey s.toList) (hfit : FitsInt getKey key s.toList)
    (hfuel : s.toList.length < fuel) :
    ∃ p, doFindAtLeast getKey m key fuel (root s) = some p ∧
      FoundAtLeast getKey key s.toList p := by
  induction fuel generalizing par s with
  | zero => omega
  | succ fuel ih =>
    cases s with
    | nil => refine ⟨null, by simp [doFindAtLeast, isNil_sentinel hs], .inr ⟨rfl, by simp⟩⟩
    | node b k l r =>
      have hg := h.2.2.1
      have hb0 := Store.ne_zero_of_get hg
      have hsub := hfit.node.2.1
      obtain ⟨-, -, hlb, hbr⟩ := hsort.node
      have hmem : ∀ c, c ∈ (AATree.node b k l r).toList ↔ c ∈ l.toList ∨ c = b ∨ c ∈ r.toList := by
        simp
      have hchild : ∀ side, ∃ p, doFindAtLeast getKey m key fuel
          (root (Andtree.childOn side l r)) = some p ∧
          FoundAtLeast getKey key (Andtree.childOn side l r).toList p := fun side =>
        ih (h.childOn side) (hsort.childOn side) (hfit.childOn side) (length_childOn_lt side hfuel)
      rcases Int.lt_trichotomy (key - getKey b.data) 0 with hneg | hz | hpos
      · -- the node is a candidate, and the left subtree may hold a better one
        have hdir : direction (key - getKey b.data) = .left := if_pos hneg.le
        obtain ⟨p, hp, ⟨hp0, c, hc, rfl, hkc, hmin⟩ | ⟨rfl, hnone⟩⟩ := hchild .left
        · simp only [Andtree.childOn] at hp hc hmin
          obtain ⟨n, hn, hnd⟩ := h.2.2.2.1.get_mem hc
          have hsubc := intSub_eq (hfit c (by simp [hc]))
          have hcb := hlb c hc
          refine ⟨if key - getKey c.data > key - getKey b.data then c.addr else b.addr, ?_,
            .inl ⟨?_, ?_⟩⟩
          · simp [doFindAtLeast, h.isNil_node, andtreeCompare, hg, hsub, hneg.ne, hdir,
              AndNode.leaf, hp, hneg, hp0, hn, hnd, hsubc]
          · split
            · exact hp0
            · exact hb0
          · split
            · refine ⟨c, by simp [hc], rfl, hkc, fun e he hke => ?_⟩
              rcases (hmem e).1 he with he | rfl | he
              · exact hmin e he hke
              · exact hcb
              · exact hcb.trans (hbr e he)
            · refine ⟨b, by simp, rfl, by omega, fun e he hke => ?_⟩
              rcases (hmem e).1 he with he | rfl | he
              · have := hmin e he hke
                omega
              · exact le_rfl
              · exact hbr e he
        · simp only [Andtree.childOn] at hp hnone
          refine ⟨b.addr, ?_, .inl ⟨hb0, b, by simp, rfl, by omega, fun e he hke => ?_⟩⟩
          · simp [doFindAtLeast, h.isNil_node, andtreeCompare, hg, hsub, hneg.ne, hdir,
              AndNode.leaf, hp, hneg]
          · rcases (hmem e).1 he with he | rfl | he
            · have := hnone e he
              omega
            · exact le_rfl
            · exact hbr e he
      · refine ⟨b.addr, ?_, .inl ⟨hb0, b, by simp, rfl, by omega, fun e he hke => by omega⟩⟩
        simp [doFindAtLeast, h.isNil_node, andtreeCompare, hg, hsub, hz]
      · -- only the right subtree can hold the bound
        have hdir : direction (key - getKey b.data) = .right := if_neg (by omega)
        obtain ⟨p, hp, hfound⟩ := hchild .right
        simp only [Andtree.childOn] at hp hfound
        refine ⟨p, ?_, hfound.imp ?_ ?_⟩
        · have hlt : ¬ key - getKey b.data < 0 := by omega
          simp [doFindAtLeast, h.isNil_node, andtreeCompare, hg, hsub, hpos.ne', hdir,
            AndNode.leaf, hp, hlt]
        · rintro ⟨hp0, c, hc, hcp, hkc, hmin⟩
          refine ⟨hp0, c, by simp [hc], hcp, hkc, fun e he hke => ?_⟩
          rcases (hmem e).1 he with he | rfl | he
          · have := hlb e he
            omega
          · omega
          · exact hmin e he hke
        · rintro ⟨hp0, hnone⟩
          refine ⟨hp0, fun e he => ?_⟩
          rcases (hmem e).1 he with he | rfl | he
          · have := hlb e he
            omega
          · omega
          · exact hnone e he

end Find

/-! ## Neighbours -/

section Neighbours

variable {m : Mem} {t : AndTree} {par : Ptr}

/-- The address of the first item, `NULL` for none. -/
def headAddr (l : List Item) : Ptr := (l.head?.map Item.addr).getD null

/-- The address of the last item, `NULL` for none. -/
def lastAddr (l : List Item) : Ptr := (l.getLast?.map Item.addr).getD null

theorem findEnd_left {fuel : ℕ} {s : AATree Item} (h : Repr m par s) (hs : SentinelOk m)
    (hne : s ≠ .nil) (hfuel : s.toList.length < fuel) :
    findEnd .left fuel m (root s) = some (headAddr s.toList) := by
  induction fuel generalizing par s with
  | zero => omega
  | succ fuel ih =>
    cases s with
    | nil => exact absurd rfl hne
    | node b k l r =>
      have hg := h.2.2.1
      cases l with
      | nil => simp [findEnd, hg, AndNode.leaf, isNil_sentinel hs, headAddr]
      | node c j x y =>
        have hl := h.2.2.2.1
        have hlt : (AATree.node c j x y).toList.length < fuel := by simp at hfuel ⊢; omega
        have := ih hl (by simp) hlt
        rw [root_node] at this
        simp [findEnd, hg, AndNode.leaf, hl.isNil_node, this, headAddr]

theorem findEnd_right {fuel : ℕ} {s : AATree Item} (h : Repr m par s) (hs : SentinelOk m)
    (hne : s ≠ .nil) (hfuel : s.toList.length < fuel) :
    findEnd .right fuel m (root s) = some (lastAddr s.toList) := by
  induction fuel generalizing par s with
  | zero => omega
  | succ fuel ih =>
    cases s with
    | nil => exact absurd rfl hne
    | node b k l r =>
      have hg := h.2.2.1
      cases r with
      | nil => simp [findEnd, hg, AndNode.leaf, isNil_sentinel hs, lastAddr]
      | node c j x y =>
        have hr := h.2.2.2.2
        have hlt : (AATree.node c j x y).toList.length < fuel := by simp at hfuel ⊢; omega
        have := ih hr (by simp) hlt
        rw [root_node] at this
        simp [findEnd, hg, AndNode.leaf, hr.isNil_node, this, lastAddr, List.getLast?_append,
          List.getLast?_cons]

theorem findMinNode_eq {fuel : ℕ} {s : AATree Item} (h : Repr m par s) (hs : SentinelOk m)
    (hfuel : s.toList.length < fuel) :
    findMinNode fuel m (root s) = some (headAddr s.toList) := by
  cases s with
  | nil =>
    obtain ⟨p, d, hget⟩ := hs
    simp [findMinNode, hget, headAddr]
  | node b k l r =>
    rw [findMinNode, root_node, h.2.2.1, Option.bind_eq_bind, Option.bind_some, if_neg h.2.1.ne']
    exact findEnd_left h hs (by simp) hfuel

theorem findMaxNode_last {fuel : ℕ} {s : AATree Item} (h : Repr m par s) (hs : SentinelOk m)
    (hfuel : s.toList.length < fuel) :
    findMaxNode fuel m (root s) = some (lastAddr s.toList) := by
  cases s with
  | nil => simp [findMaxNode, isNil_sentinel hs, lastAddr]
  | node b k l r =>
    rw [findMaxNode, root_node, h.isNil_node, Option.bind_eq_bind, Option.bind_some]
    exact findEnd_right h hs (by simp) hfuel

/-- The items next to a position: after it for the right side, before it for the left side. -/
def beside (side : Side) (C : Ctx Item) : Ptr :=
  match side with
  | .right => headAddr C.after
  | .left => lastAddr C.before

theorem beside_cons_same (side : Side) (b : Item) (k : ℕ) (z : AATree Item) (C : Ctx Item) :
    beside side (⟨side, b, k, z⟩ :: C) = beside side C := by
  cases side <;> rfl

theorem beside_cons_flip (side : Side) (b : Item) (k : ℕ) (z : AATree Item) (C : Ctx Item) :
    beside side (⟨side.flip, b, k, z⟩ :: C) = b.addr := by
  cases side <;> simp [beside, Side.flip, Ctx.after, Ctx.before, headAddr, lastAddr]

/-- The way up to the next node on one side. -/
theorem climb_eq {C : Ctx Item} {s : AATree Item} {fuel : ℕ} (side : Side) (h : Focus m t C s)
    (hs : s ≠ .nil) (hfuel : C.length < fuel) :
    climb side m fuel (root s) (above C) = some (beside side C) := by
  induction C generalizing s fuel with
  | nil =>
    obtain ⟨fuel, rfl⟩ : ∃ n, fuel = n + 1 := ⟨fuel - 1, by omega⟩
    cases side <;> simp [climb, above, isNil, beside, Ctx.after, Ctx.before, headAddr, lastAddr]
  | cons f C ih =>
    obtain ⟨fuel, rfl⟩ : ∃ n, fuel = n + 1 := ⟨fuel - 1, by omega⟩
    rw [List.length_cons] at hfuel
    obtain ⟨-, hk, hg, hsib, -⟩ := h.ctx
    have hnil : isNil m f.item.addr = some false := by
      simp [isNil, hg, Store.ne_zero_of_get hg, hk.ne']
    have hup := ih (h.up f) (plug_ne_nil f s) (show C.length < fuel by omega)
    rw [root_plug] at hup
    by_cases hside : f.side = side
    · subst hside
      rw [beside_cons_same]
      simp [climb, hnil, hg, hup]
    · have hflip : f.side = side.flip := by
        cases side <;> cases hf : f.side <;> simp_all [Side.flip]
      -- the node is not the leaf on the other side
      have hne : root f.sibling ≠ root s := by
        cases s with
        | nil => exact absurd rfl hs
        | node b j x y =>
          refine Repr.root_ne ?_ h.sub.1
          have hnd := h.nodup
          rw [List.nodup_append] at hnd
          rw [root_node]
          exact fun hb => hnd.2.2 b.addr (by simp [ctxAddrs, hb]) b.addr (by simp) rfl
      obtain ⟨fside, b, k, z⟩ := f
      dsimp only at hflip hg hnil hne
      subst hflip
      rw [beside_cons_flip]
      have hleaf : (cell side.flip (above C) (root s) (root z) k b.data).leaf side = root z := by
        cases side <;> rfl
      simp [climb, hnil, hg, hleaf, hne]

theorem length_le_of_plug {C : Ctx Item} {b : Item} {k : ℕ} {l r : AATree Item} :
    C.length < (C.plug (.node b k l r)).toList.length ∧
      l.toList.length < (C.plug (.node b k l r)).toList.length ∧
      r.toList.length < (C.plug (.node b k l r)).toList.length := by
  have hC := length_ctx_le C
  rw [← length_addrs (C.plug (.node b k l r)), length_addrs_plug, length_addrs, AATree.toList_node,
    List.length_append, List.length_cons]
  omega

theorem Repr.isNil_mem {s : AATree Item} (h : Repr m par s) {c : Item} (hc : c ∈ s.toList) :
    isNil m c.addr = some false := by
  induction s generalizing par with
  | nil => simp at hc
  | node b k l r ihl ihr =>
    rw [AATree.toList_node, List.mem_append, List.mem_cons] at hc
    rcases hc with hc | rfl | hc
    · exact ihl h.2.2.2.1 hc
    · exact h.isNil_node
    · exact ihr h.2.2.2.2 hc

/-- **`andtree_next` is the next item.** -/
theorem andtreeNext_eq {s : AATree Item} {b : Item} {xs ys : List Item} {fuel : ℕ}
    (h : Focus m t [] s) (hs : s.toList = xs ++ b :: ys) (hfuel : s.toList.length < fuel) :
    andtreeNext fuel m b.addr = some (headAddr ys) := by
  obtain ⟨C, k, l, r, rfl, -, rfl⟩ := exists_position hs
  have hfoc : Focus m t C (.node b k l r) := h.of_root
  obtain ⟨-, -, hg, -, hr⟩ := hfoc.sub
  obtain ⟨hC, -, hrlen⟩ := length_le_of_plug (C := C) (b := b) (k := k) (l := l) (r := r)
  have hmin := findMinNode_eq hr hfoc.sent (hrlen.trans hfuel)
  rw [andtreeNext, if_neg (Store.ne_zero_of_get hg)]
  simp only [hg, hmin, Option.bind_eq_bind, Option.bind_some]
  cases hlist : r.toList with
  | nil =>
    have hclimb := climb_eq .right hfoc (by simp) (hC.trans hfuel)
    rw [root_node] at hclimb
    simp [headAddr, isNil, hclimb, beside]
  | cons c cs =>
    have hc := hr.isNil_mem (c := c) (by simp [hlist])
    simp [headAddr, hc]

/-- **`andtree_previous` is the previous item.** -/
theorem andtreePrevious_eq {s : AATree Item} {b : Item} {xs ys : List Item} {fuel : ℕ}
    (h : Focus m t [] s) (hs : s.toList = xs ++ b :: ys) (hfuel : s.toList.length < fuel) :
    andtreePrevious fuel m b.addr = some (lastAddr xs) := by
  obtain ⟨C, k, l, r, rfl, rfl, -⟩ := exists_position hs
  have hfoc : Focus m t C (.node b k l r) := h.of_root
  obtain ⟨-, -, hg, hl, -⟩ := hfoc.sub
  obtain ⟨hC, hllen, -⟩ := length_le_of_plug (C := C) (b := b) (k := k) (l := l) (r := r)
  have hmax := findMaxNode_last hl hfoc.sent (hllen.trans hfuel)
  rw [andtreePrevious, if_neg (Store.ne_zero_of_get hg)]
  simp only [hg, hmax, Option.bind_eq_bind, Option.bind_some]
  rcases List.eq_nil_or_concat l.toList with hlist | ⟨cs, c, hlist⟩
  · have hclimb := climb_eq .left hfoc (by simp) (hC.trans hfuel)
    rw [root_node] at hclimb
    simp [hlist, lastAddr, isNil, hclimb, beside]
  · have hc := hl.isNil_mem (c := c) (by simp [hlist])
    simp [hlist, lastAddr, hc]

end Neighbours

end C4OS.Andtree
