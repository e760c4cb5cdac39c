import C4OS.Andtree.Shapes
import C4OS.Connman.Clients
import C4OS.Foundations.Overtaking

/-!
# Connects that fail

`handle_connect` puts the record of a new client into the tree of the server before the client has
granted its objects. When a message is not a grant it removes the record by the number of the
client, not by its address, and frees it. The number is random. When a record in the tree already
has it, the removal takes whichever of the two the search meets first.

`failed_connect_iff` says for every server that connects can lead to and every number when the tree
then has the records it had before: the memory of the new record is not that of a record in the
tree, and the repair of the insertion lifts the new node above every node with the number that it
went past on its way down. That is decided by the tree before the connect (`Server.Clears`).
-/

namespace C4OS.Connman

open Foundations Andtree

/-- The states of a server after connects that were granted, that failed, or that were no connects,
of any clients with any numbers. Other memory than that of the tree may change in between. -/
inductive Reached : Server → Prop
  | init (m : Mem) (clientId : Ptr → ℕ) (hm : SentinelOk m) : Reached (serverInit m clientId)
  | elsewhere {s : Server} (m : Mem) (clientId : Ptr → ℕ) (h : Reached s)
      (hm : ∀ p, InTree s.mem s.tree p → m.get p = s.mem.get p) (hs : SentinelOk m) :
      Reached ⟨m, s.tree, clientId⟩
  | connect {s s' : Server} {request granted : Bool} {ptr ret : Ptr} {id : ℕ}
      (calloc : Allocator AndNode) (h : Reached s)
      (hrun : handleConnect calloc s request granted ptr id = some (s', ret)) : Reached s'

/-- The records in the tree of a server with their numbers, in order. -/
def Server.records (s : Server) : Option (List (Ptr × ℕ)) := do
  let l ← inorder s.tree.fuel s.mem s.tree.root
  return l.map fun b => (b.data, s.clientId b.data)

/-- The tree has the records it had before, and the freed record is not among them. -/
def Restored (s s' : Server) (freed : Ptr) : Prop :=
  ∃ l l', s.records = some l ∧ s'.records = some l' ∧ l'.Perm l ∧ freed ∉ l'.map Prod.fst

/-! ## The condition -/

/-- The tree below a pointer. -/
def shape : ℕ → Mem → Ptr → Option (AATree Item)
  | 0, _, _ => none
  | fuel + 1, m, p => do
    if ← isNil m p then return .nil
    else
      let n ← m.get p
      let l ← shape fuel m n.left
      let r ← shape fuel m n.right
      return .node ⟨p, n.data⟩ n.level l r

/-- The way on of `andtree_find_key` at an item. -/
def searchTurn (getKey : Ptr → ℤ) (key : ℤ) (b : Item) : Option Side :=
  if intSub key (getKey b.data) = 0 then none else some (direction (intSub key (getKey b.data)))

/-- The way on of `andtree_bin_insert` at an item. -/
def insertTurn (getKey : Ptr → ℤ) (key : ℤ) (b : Item) : Side :=
  if intSub key (getKey b.data) < 0 then .left else .right

/-- The repair of an insertion lifts the new node above every node with the number `id` that it goes
past on its way down. -/
def Server.Clears (s : Server) (tree : AATree Item) (id : ℕ) : Prop :=
  (Growth.raised none).Clears (searchTurn s.getClientId (toInt id)) 0
    (Ctx.descend (insertTurn s.getClientId (toInt id)) tree [])

instance (s : Server) (tree : AATree Item) (id : ℕ) : Decidable (s.Clears tree id) :=
  inferInstanceAs (Decidable (Growth.Clears _ _ _ _))

section Tree

variable {m : Mem} {t : AndTree} {tree : AATree Item} {par : Ptr} {getKey getKey' : Ptr → ℤ}
  {key : ℤ} {fuel : ℕ}

theorem shape_eq (h : Repr m par tree) (hs : SentinelOk m) (hfuel : tree.toList.length < fuel) :
    shape fuel m (root tree) = some tree := by
  induction fuel generalizing par tree with
  | zero => omega
  | succ fuel ih =>
    cases tree with
    | nil => simp [shape, isNil_sentinel hs]
    | node b k l r =>
      have hl : shape fuel m (root l) = some l := ih h.2.2.2.1 (length_childOn_lt .left hfuel)
      have hr : shape fuel m (root r) = some r := ih h.2.2.2.2 (length_childOn_lt .right hfuel)
      simp [shape, h.isNil_node, h.2.2.1, hl, hr]

theorem shape_of_holds (h : Holds m t tree) : shape t.fuel m t.root = some tree := by
  rw [h.root_eq]
  exact shape_eq h.focus.sub h.focus.sent h.fuel_lt

/-- `andtree_find_key` is the search of the tree. -/
theorem findKeyLoop_search (h : Repr m par tree) (hs : SentinelOk m)
    (hfuel : tree.toList.length < fuel) : findKeyLoop getKey m key fuel (root tree) =
      some (((tree.search (searchTurn getKey key)).map Item.addr).getD null) := by
  induction fuel generalizing par tree with
  | zero => omega
  | succ fuel ih =>
    cases tree with
    | nil => simp [findKeyLoop, isNil_sentinel hs, AATree.search]
    | node b k l r =>
      have hg := h.2.2.1
      by_cases hz : intSub key (getKey b.data) = 0
      · have hstop : searchTurn getKey key b = none := if_pos hz
        rw [AATree.search_stop hstop]
        simp [findKeyLoop, h.isNil_node, andtreeCompare, hg, hz]
      · set side := direction (intSub key (getKey b.data)) with hside
        have hgo : searchTurn getKey key b = some side := if_neg hz
        have hsearch : (AATree.node b k l r).search (searchTurn getKey key) =
            (childOn side l r).search (searchTurn getKey key) := by
          cases hs : side with
          | left => exact AATree.search_left (hs ▸ hgo)
          | right => exact AATree.search_right (hs ▸ hgo)
        rw [hsearch, ← ih (h.childOn side) (length_childOn_lt side hfuel), root_node, findKeyLoop]
        simp [h.isNil_node, andtreeCompare, hg, hz, ← hside, leaf_eq_childOn]

/-- An insertion goes the way of the search, and to the right where the search stops. -/
theorem leads_insertTurn {f : Frame Item} (h : f.side = insertTurn getKey key f.item) :
    Growth.Leads (searchTurn getKey key) f := by
  rw [Growth.Leads, h, searchTurn, insertTurn, direction]
  rcases Int.lt_trichotomy (intSub key (getKey f.item.data)) 0 with hlt | heq | hgt
  · rw [if_neg hlt.ne, if_pos hlt.le, if_pos hlt]
    exact .inl rfl
  · rw [if_pos heq, if_neg heq.not_lt]
    exact .inr ⟨rfl, rfl⟩
  · rw [if_neg hgt.ne', if_neg hgt.not_ge, if_neg hgt.not_gt]
    exact .inl rfl

/-- **What a search for the key of a new item finds.** -/
theorem search_inserted_iff (getKey : Ptr → ℤ) {b : Item} (h : tree.Balanced)
    (hb : b ∉ tree.toList) :
    (inserted getKey b tree).search (searchTurn getKey (getKey b.data)) = some b ↔
      (Growth.raised none).Clears (searchTurn getKey (getKey b.data)) 0
        (Ctx.descend (insertTurn getKey (getKey b.data)) tree []) := by
  have hframe {f : Frame Item} (hf : f ∈ Ctx.descend (insertTurn getKey (getKey b.data)) tree []) :
      f.item ∈ tree.toList ∧ f.side = insertTurn getKey (getKey b.data) f.item :=
    (Ctx.mem_descend hf).resolve_left List.not_mem_nil
  have hself : searchTurn getKey (getKey b.data) b = none := by simp [searchTurn, intSub]
  refine Growth.search_repairInsert_iff ?_ (fun f hf => leads_insertTurn (hframe hf).2) ?_ hself
  · rw [Ctx.plug_descend]
    exact h
  · rintro f hf rfl
    exact hb (hframe hf).1

/-- Only the keys of the items in the tree matter. -/
theorem clears_insertTurn_congr (h : ∀ b ∈ tree.toList, getKey b.data = getKey' b.data) :
    (Growth.raised none).Clears (searchTurn getKey key) 0
        (Ctx.descend (insertTurn getKey key) tree []) ↔
      (Growth.raised none).Clears (searchTurn getKey' key) 0
        (Ctx.descend (insertTurn getKey' key) tree []) := by
  have hdescend : Ctx.descend (insertTurn getKey key) tree [] =
      Ctx.descend (insertTurn getKey' key) tree [] :=
    Ctx.descend_congr (fun b hb => by rw [insertTurn, insertTurn, h b hb]) []
  rw [hdescend]
  refine Growth.clears_congr (fun f hf => ?_) _ _
  have hmem := ((Ctx.mem_descend hf).resolve_left List.not_mem_nil).1
  rw [searchTurn, searchTurn, h _ hmem]

end Tree

/-! ## The states of a server -/

variable {s s' : Server} {tree : AATree Item} {ptr ret : Ptr} {id : ℕ}

theorem handleConnect_holds (h : Holds s.mem s.tree tree) (calloc : Allocator AndNode)
    (request granted : Bool) (ptr : Ptr) (id : ℕ) : ∃ s' ret tree',
      handleConnect calloc s request granted ptr id = some (s', ret) ∧
        Holds s'.mem s'.tree tree' := by
  cases request with
  | false => exact ⟨s, null, tree, rfl, h⟩
  | true =>
    obtain ⟨m', t', a, tree', hins, hholds⟩ := h.inserts calloc
      (fun p => toInt (Function.update s.clientId ptr id p)) ptr
    cases granted with
    | true => exact ⟨_, ptr, tree', run_bind hins rfl, hholds⟩
    | false =>
      obtain ⟨p, hp, hlands⟩ := findKeyLoop_lands
        (fun p => toInt (Function.update s.clientId ptr id p)) (toInt id) hholds.focus.sub
        hholds.focus.sent hholds.fuel_lt
      rw [← hholds.root_eq] at hp
      obtain ⟨m₂, t₂, d, tree₂, hrem, hholds₂⟩ := hholds.removesFound hlands
      exact ⟨_, null, tree₂, run_bind hins (run_bind (run_bind hp hrem) rfl), hholds₂⟩

/-- **Every state holds a balanced tree.** -/
theorem Reached.holds (h : Reached s) : ∃ tree, Holds s.mem s.tree tree := by
  induction h with
  | init m clientId hm => exact ⟨.nil, andtreeInit_holds hm⟩
  | elsewhere m clientId _ hm hs ih =>
    obtain ⟨tree, htree⟩ := ih
    exact ⟨tree, htree.frame (fun a ha => hm a (htree.inTree_iff.2 ha)) hs⟩
  | connect calloc _ hrun ih =>
    obtain ⟨tree, htree⟩ := ih
    obtain ⟨s₁, ret₁, tree', hrun', htree'⟩ := handleConnect_holds htree calloc _ _ _ _
    cases hrun.symm.trans hrun'
    exact ⟨tree', htree'⟩

theorem Server.records_eq (h : Holds s.mem s.tree tree) :
    s.records = some (tree.toList.map fun b => (b.data, s.clientId b.data)) :=
  run_bind h.inorder_eq rfl

theorem restored_iff {tree' : AATree Item} (h : Holds s.mem s.tree tree)
    (h' : Holds s'.mem s'.tree tree') : Restored s s' ptr ↔
      (tree'.toList.map fun b => (b.data, s'.clientId b.data)).Perm
          (tree.toList.map fun b => (b.data, s.clientId b.data)) ∧
        ptr ∉ tree'.toList.map Item.data := by
  rw [Restored, Server.records_eq h, Server.records_eq h']
  constructor
  · rintro ⟨l, l', hl, hl', hperm, hfreed⟩
    cases hl
    cases hl'
    rw [List.map_map] at hfreed
    exact ⟨hperm, hfreed⟩
  · rintro ⟨hperm, hfreed⟩
    refine ⟨_, _, rfl, rfl, hperm, ?_⟩
    rw [List.map_map]
    exact hfreed

/-- The items after an insertion, in any order. -/
theorem toList_inserted_perm (getKey : Ptr → ℤ) (b : Item) (tree : AATree Item) :
    (inserted getKey b tree).toList.Perm (b :: tree.toList) := by
  have hplug := congrArg AATree.toList (Ctx.plug_descend (insertSide getKey b.data) tree [])
  rw [Ctx.toList_plug, Ctx.plug, AATree.toList_nil, List.append_nil] at hplug
  rw [inserted, AATree.toList_repairInsert, Ctx.toList_plug, ← hplug]
  simp

/-- **A connect that fails.** The search for the number meets the new item, and the items are as
before, or it does not, and the new one stays. -/
theorem handleConnect_failed (h : Holds s.mem s.tree tree) (calloc : Allocator AndNode)
    (ptr : Ptr) (id : ℕ) : ∃ s' a tree',
      handleConnect calloc s true false ptr id = some (s', null) ∧
        s'.clientId = Function.update s.clientId ptr id ∧ Holds s'.mem s'.tree tree' ∧
        ⟨a, ptr⟩ ∉ tree.toList ∧
        if (inserted s'.getClientId ⟨a, ptr⟩ tree).search
            (searchTurn s'.getClientId (toInt id)) = some ⟨a, ptr⟩ then
          (tree'.toList.map Item.data).Perm (tree.toList.map Item.data)
        else ptr ∈ tree'.toList.map Item.data := by
  set getKey : Ptr → ℤ := fun p => toInt (Function.update s.clientId ptr id p)
  obtain ⟨m₁, t₁, a, hins, hfresh, hholds⟩ := h.insert_eq calloc getKey ptr
  have hnew : (⟨a, ptr⟩ : Item) ∉ tree.toList := fun hmem =>
    h.focus.sub.notMem_of_get hfresh (List.mem_map_of_mem hmem)
  have hperm := toList_inserted_perm getKey ⟨a, ptr⟩ tree
  have hfind : andtreeFindKey getKey m₁ t₁ (toInt id) =
      some ((((inserted getKey ⟨a, ptr⟩ tree).search
        (searchTurn getKey (toInt id))).map Item.addr).getD null) := by
    rw [andtreeFindKey, hholds.root_eq]
    exact findKeyLoop_search hholds.focus.sub hholds.focus.sent hholds.fuel_lt
  cases hsearch : (inserted getKey ⟨a, ptr⟩ tree).search (searchTurn getKey (toInt id)) with
  | none =>
    -- nothing is found, and nothing removed
    rw [hsearch] at hfind
    refine ⟨⟨m₁, t₁, _⟩, a, _, run_bind hins (run_bind (run_bind hfind rfl) rfl), rfl, hholds,
      hnew, ?_⟩
    rw [if_neg (fun heq => by cases hsearch.symm.trans heq)]
    exact List.mem_map_of_mem (hperm.mem_iff.2 List.mem_cons_self)
  | some e =>
    rw [hsearch] at hfind
    have he := AATree.search_mem hsearch
    obtain ⟨n, hn, -⟩ := hholds.focus.sub.get_mem he
    obtain ⟨m₂, t₂, tree₂, xs, ys, hrem, hholds₂, -, -, hxs, hdata⟩ := hholds.remove he
    have hfound : removeFound m₁ t₁ e.addr = some (m₂, t₂, n.data) := by
      simp [removeFound, Store.ne_zero_of_get hn, hn, hrem]
    refine ⟨⟨m₂, t₂, _⟩, a, tree₂, run_bind hins (run_bind (run_bind hfind hfound) rfl), rfl,
      hholds₂, hnew, ?_⟩
    rw [hxs] at hperm
    rw [hdata]
    split
    case isTrue heq =>
      obtain rfl : e = ⟨a, ptr⟩ := Option.some.inj (hsearch.symm.trans heq)
      exact ((List.perm_middle.symm.trans hperm).cons_inv).map Item.data
    case isFalse hne =>
      -- another item has been removed
      have hmem : (⟨a, ptr⟩ : Item) ∈ xs ++ e :: ys := hperm.mem_iff.2 List.mem_cons_self
      have hne : (⟨a, ptr⟩ : Item) ≠ e := fun heq => hne (hsearch.trans (congrArg some heq.symm))
      refine List.mem_map_of_mem (f := Item.data) (a := ⟨a, ptr⟩) ?_
      simpa [hne] using hmem

/-- **A failed connect leaves the server as it was** exactly when the memory of the new record is
not that of a record in the tree and the new node gets above every node with its number that it goes
past. -/
theorem failed_connect_iff (h : Reached s) (calloc : Allocator AndNode) (ptr : Ptr) (id : ℕ) :
    ∃ tree s', shape s.tree.fuel s.mem s.tree.root = some tree ∧
      handleConnect calloc s true false ptr id = some (s', null) ∧
      (Restored s s' ptr ↔ ptr ∉ tree.toList.map Item.data ∧ s.Clears tree id) := by
  obtain ⟨tree, htree⟩ := h.holds
  obtain ⟨s', a, tree', hrun, hid, htree', hnew, hcases⟩ := handleConnect_failed htree calloc ptr id
  refine ⟨tree, s', shape_of_holds htree, hrun, ?_⟩
  rw [restored_iff htree htree']
  by_cases hptr : ptr ∈ tree.toList.map Item.data
  · -- the memory of a record in the tree has been given out again
    refine iff_of_false (fun ⟨hperm, hfreed⟩ => hfreed ?_) fun hcond => hcond.1 hptr
    have hperm := hperm.map Prod.fst
    rw [List.map_map, List.map_map] at hperm
    exact hperm.symm.subset hptr
  have hne : ∀ b ∈ tree.toList, b.data ≠ ptr := fun b hb heq => hptr (heq ▸ List.mem_map_of_mem hb)
  have hold {b : Item} (hb : b ∈ tree.toList) : s'.clientId b.data = s.clientId b.data := by
    rw [hid]
    exact Function.update_of_ne (hne b hb) ..
  have hkey : s'.getClientId ptr = toInt id := by
    rw [Server.getClientId, hid, Function.update_self]
  have hkeys : ∀ b ∈ tree.toList, s'.getClientId b.data = s.getClientId b.data := fun b hb => by
    rw [Server.getClientId, hold hb, Server.getClientId]
  have hclears := search_inserted_iff s'.getClientId htree.balanced hnew
  rw [hkey, clears_insertTurn_congr hkeys] at hclears
  rw [Server.Clears, ← hclears]
  split at hcases
  case isTrue heq =>
    have hfreed : ptr ∉ tree'.toList.map Item.data := fun hmem => hptr (hcases.subset hmem)
    refine iff_of_true ⟨?_, hfreed⟩ ⟨hptr, heq⟩
    have hrecords (l : List Item) : l.map (fun b => (b.data, s'.clientId b.data)) =
        (l.map Item.data).map fun d => (d, s'.clientId d) := by
      rw [List.map_map]
      rfl
    have hbefore : tree.toList.map (fun b => (b.data, s.clientId b.data)) =
        tree.toList.map fun b => (b.data, s'.clientId b.data) :=
      List.map_congr_left fun b hb => by rw [hold hb]
    rw [hbefore, hrecords, hrecords]
    exact hcases.map _
  case isFalse heq => exact iff_of_false (fun h => h.2 hcases) fun h => heq h.2

/-- The new record with the number `5` is lifted above the older one. -/
theorem failed_connect_lifted : ∃ s s', Reached s ∧ s.records = some [(10, 5), (20, 7)] ∧
    handleConnect .bump s true false 30 5 = some (s', null) ∧ Restored s s' 30 := by
  have h₀ : Reached emptyServer := .init _ _ ⟨_, _, rfl⟩
  have h₁ := @Reached.connect _ _ true true 10 _ 5 .bump h₀ rfl
  have h₂ := @Reached.connect _ _ true true 20 _ 7 .bump h₁ rfl
  obtain ⟨tree, s', hshape, hrun, hiff⟩ := failed_connect_iff h₂ .bump 30 5
  obtain rfl : _ = tree := Option.some.inj hshape
  exact ⟨_, s', h₂, rfl, hrun, hiff.2 (by decide)⟩

/-- A client that fails to connect under the number of the only other one takes its place. -/
theorem failed_connect_takes_over : ¬∀ (s s' : Server) (calloc : Allocator AndNode) (ptr : Ptr)
    (id : ℕ) (l : List (Ptr × ℕ)), Reached s → s.records = some l → ptr ≠ null →
      ptr ∉ l.map Prod.fst → id < 2 ^ 32 →
      handleConnect calloc s true false ptr id = some (s', null) → Restored s s' ptr := by
  intro h
  have h₀ : Reached emptyServer := .init _ _ ⟨_, _, rfl⟩
  have h₁ := @Reached.connect _ _ true true 10 _ 5 .bump h₀ rfl
  obtain ⟨l, l', -, hl', -, hfreed⟩ :=
    h _ _ .bump 20 5 [(10, 5)] h₁ rfl (by decide) (by decide) (by decide) rfl
  obtain rfl : _ = l' := Option.some.inj hl'
  exact absurd hfreed (by decide)

end C4OS.Connman
