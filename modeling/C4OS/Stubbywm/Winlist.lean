import C4OS.Foundations.Events
import C4OS.Foundations.Links
import C4OS.Foundations.Store
import C4OS.Stubbywm.Model
import Mathlib.Data.List.Perm.Subperm

/-!
# The list of windows

The functions of `winlist.c`, with the nodes in memory. A node has links in both directions, and the
list has its first and its last node. `Listed` says which windows are in the list, and
`windowListInsert_listed` and `windowListRemove_listed` what the two functions do: a new window
comes behind the others, and a removed one goes without a change of the order (`run_listed`).

The number of nodes that the list keeps is that of the windows that were ever inserted, since
`window_list_remove` does not change it. So it is right until the first window is removed
(`window_list_iff`).
-/

namespace C4OS.Stubbywm

open Foundations

/-- The address of a node. -/
abbrev Ptr : Type := ℕ

/-- The null pointer. -/
abbrev null : Ptr := 0

/-- `window_node_t`. -/
structure WindowNode where
  window : Window
  next : Ptr
  prev : Ptr

/-- `window_list_t`. -/
structure WindowList where
  start : Ptr
  endNode : Ptr
  nodes : ℕ

/-- The memory of the nodes, and the list. -/
structure Heap where
  mem : Store WindowNode
  list : WindowList

/-- `window_list_insert`, where `calloc` has returned `newNode`. -/
def windowListInsert (h : Heap) (newNode : Ptr) (win : Window) : Option Heap := do
  if newNode = null then none
  let mem := h.mem.set newNode ⟨win, null, null⟩
  let mem ←
    if h.list.endNode = null then some mem
    else do
      let mem ← mem.modify h.list.endNode fun n => { n with next := newNode }
      mem.modify newNode fun n => { n with prev := h.list.endNode }
  let start := if h.list.start = null then newNode else h.list.start
  return ⟨mem, ⟨start, newNode, word (h.list.nodes + 1)⟩⟩

/-- An assignment to the node that a link leads to, if there is one. -/
def modifyUnlessNull (mem : Store WindowNode) (a : Ptr) (f : WindowNode → WindowNode) :
    Option (Store WindowNode) :=
  if a = null then some mem else mem.modify a f

/-- `window_list_remove`. -/
def windowListRemove (h : Heap) (node : Ptr) : Option Heap := do
  let n ← h.mem.get node
  let mem ← modifyUnlessNull h.mem n.prev fun m => { m with next := n.next }
  let n ← mem.get node
  let mem ← modifyUnlessNull mem n.next fun m => { m with prev := n.prev }
  let n ← mem.get node
  let start := if node = h.list.start then n.next else h.list.start
  let endNode := if node = h.list.endNode then n.prev else h.list.endNode
  return ⟨mem.free node, ⟨start, endNode, h.list.nodes⟩⟩

/-! ## The links -/

/-- A link of a node, as a function on addresses. -/
def linkOf (mem : Store WindowNode) (link : WindowNode → Ptr) (a : Ptr) : Ptr :=
  ((mem.get a).map link).getD null

theorem linkOf_of_get {mem : Store WindowNode} {link : WindowNode → Ptr} {a : Ptr} {n : WindowNode}
    (h : mem.get a = some n) : linkOf mem link a = link n := by
  rw [linkOf, h, Option.map_some, Option.getD_some]

theorem modifyUnlessNull_eq {mem : Store WindowNode} {a : Ptr} (f : WindowNode → WindowNode)
    (h : a ≠ null → ∃ n, mem.get a = some n) :
    ∃ mem', modifyUnlessNull mem a f = some mem' ∧
      ∀ c, mem'.get c = if c = a then (mem.get c).map f else mem.get c := by
  by_cases ha : a = null
  · refine ⟨mem, if_pos ha, fun c => ?_⟩
    split
    case isTrue hc =>
      rw [hc, ha]
      rfl
    case isFalse => rfl
  · obtain ⟨n, hn⟩ := h ha
    refine ⟨_, (if_neg ha).trans (Store.modify_eq hn f), fun c => ?_⟩
    split
    case isTrue hc =>
      rw [hc, hn]
      exact Store.get_set_self _ ha _
    case isFalse hc => exact Store.get_set_of_ne _ hc _

/-! ## What is in the list -/

/-- The nodes that are visited from a pointer on along one of the links, with their windows. -/
inductive Visits (mem : Store WindowNode) (link : WindowNode → Ptr) :
    Ptr → List (Ptr × Window) → Prop
  | null : Visits mem link null []
  | node {a : Ptr} {n : WindowNode} {l : List (Ptr × Window)} (h : mem.get a = some n)
      (hl : Visits mem link (link n) l) : Visits mem link a ((a, n.window) :: l)

/-- Following `next` from the start and following `prev` from the end visits the same nodes in
opposite orders. -/
structure Listed (h : Heap) (l : List (Ptr × Window)) : Prop where
  forward : Visits h.mem WindowNode.next h.list.start l
  backward : Visits h.mem WindowNode.prev h.list.endNode l.reverse

/-- A change of the list. -/
inductive Op
  | insert (newNode : Ptr) (win : Window)
  | remove (node : Ptr)

/-- What a change is to do: a new window comes behind the others, and a removed one is deleted. -/
def Op.apply (l : List (Ptr × Window)) : Op → List (Ptr × Window)
  | .insert newNode win => l ++ [(newNode, win)]
  | .remove node => l.filter fun x => x.1 ≠ node

/-- A change may be made: the memory that `calloc` returns is not in use, and a removed node is in
the list. -/
def Op.Allowed (h : Heap) : Op → Prop
  | .insert newNode _ => newNode ≠ null ∧ newNode < 2 ^ 32 ∧ h.mem.get newNode = none
  | .remove node =>
    ∃ l, Visits h.mem WindowNode.next h.list.start l ∧ node ∈ l.map Prod.fst

/-- A change is made. -/
def Op.make (h : Heap) : Op → Option Heap
  | .insert newNode win => windowListInsert h newNode win
  | .remove node => windowListRemove h node

/-- A change that may be made, is made. -/
def Step (h : Heap) (op : Op) (h' : Heap) : Prop := op.Allowed h ∧ op.make h = some h'

/-! ## The invariant -/

/-- The nodes of the list are linked, each one with its window. -/
structure Linked (h : Heap) (l : List (Ptr × Window)) : Prop where
  held : ∀ x ∈ l, ∃ n, h.mem.get x.1 = some n ∧ n.window = x.2
  lt : ∀ x ∈ l, x.1 < 2 ^ 32
  nodup : (l.map Prod.fst).Nodup
  seg : Seg (linkOf h.mem WindowNode.next) (linkOf h.mem WindowNode.prev) null (l.map Prod.fst) null
  start : h.list.start = (l.map Prod.fst).headD null
  endNode : h.list.endNode = (l.map Prod.fst).getLastD null

theorem visits_of_seg {mem : Store WindowNode} {link : WindowNode → Ptr} {prv : Ptr → Ptr}
    {p : Ptr} {l : List (Ptr × Window)} (h : ∀ x ∈ l, ∃ n, mem.get x.1 = some n ∧ n.window = x.2)
    (hseg : Seg (linkOf mem link) prv p (l.map Prod.fst) null) :
    Visits mem link ((l.map Prod.fst).headD null) l := by
  induction l generalizing p with
  | nil => exact .null
  | cons x l ih =>
    obtain ⟨⟨n, hn, hwin⟩, h⟩ := List.forall_mem_cons.1 h
    obtain ⟨-, hlink, hseg⟩ := hseg
    rw [linkOf_of_get hn] at hlink
    have hl := ih h hseg
    rw [← hlink] at hl
    have hvisits := Visits.node hn hl
    rwa [hwin] at hvisits

/-- What is visited from a pointer on is determined. -/
theorem Visits.unique {mem : Store WindowNode} {link : WindowNode → Ptr} {p : Ptr}
    {l l' : List (Ptr × Window)} (h : Visits mem link p l) (h' : Visits mem link p l') :
    l = l' := by
  induction h generalizing l' with
  | null =>
    cases h' with
    | null => rfl
    | node hn => cases hn
  | node hn _ ih =>
    cases h' with
    | null => cases hn
    | node hn' hl' =>
      obtain rfl := Option.some.inj (hn.symm.trans hn')
      rw [ih hl']

namespace Linked

variable {h h' : Heap} {l : List (Ptr × Window)} {a : Ptr} {win : Window}

theorem ne_null (hl : Linked h l) (ha : a ∈ l.map Prod.fst) : a ≠ null := by
  obtain ⟨x, hx, rfl⟩ := List.mem_map.1 ha
  obtain ⟨n, hn, -⟩ := hl.held x hx
  exact Store.ne_zero_of_get hn

theorem null_notMem (hl : Linked h l) : null ∉ l.map Prod.fst := fun hmem => hl.ne_null hmem rfl

theorem exists_get (hl : Linked h l) (ha : a ∈ l.map Prod.fst) : ∃ n, h.mem.get a = some n := by
  obtain ⟨x, hx, rfl⟩ := List.mem_map.1 ha
  obtain ⟨n, hn, -⟩ := hl.held x hx
  exact ⟨n, hn⟩

theorem listed (hl : Linked h l) : Listed h l := by
  constructor
  · rw [hl.start]
    exact visits_of_seg hl.held hl.seg
  · have hseg := seg_reverse.1 hl.seg
    rw [← List.map_reverse] at hseg
    have hvisits := visits_of_seg (fun x hx => hl.held x (List.mem_reverse.1 hx)) hseg
    rwa [List.map_reverse, headD_reverse, ← hl.endNode] at hvisits

/-- The addresses have 32 bits, and none is null. -/
theorem length_lt (hl : Linked h l) : l.length < 2 ^ 32 := by
  have hnd : (null :: l.map Prod.fst).Nodup := List.nodup_cons.2 ⟨hl.null_notMem, hl.nodup⟩
  have hsub : null :: l.map Prod.fst ⊆ List.range (2 ^ 32) := by
    intro a ha
    rw [List.mem_range]
    rcases List.mem_cons.1 ha with rfl | ha
    · decide
    · obtain ⟨x, hx, rfl⟩ := List.mem_map.1 ha
      exact hl.lt x hx
  have hle := (hnd.subperm hsub).length_le
  rwa [List.length_range, List.length_cons, List.length_map] at hle

theorem start_eq_null_iff (hl : Linked h l) : h.list.start = null ↔ l = [] := by
  rw [hl.start]
  cases l with
  | nil => exact iff_of_true rfl rfl
  | cons x l => exact iff_of_false (hl.ne_null List.mem_cons_self) (List.cons_ne_nil _ _)

theorem end_eq_null_or (hl : Linked h l) :
    h.list.endNode = null ∨ h.list.endNode ∈ l.map Prod.fst := by
  rw [hl.endNode]
  by_cases hnull : (l.map Prod.fst).getLastD null = null
  · exact .inl hnull
  · exact .inr (getLastD_mem hnull)

end Linked

/-! ## A new window -/

/-- The memory with one more node, behind the last one. -/
structure Inserted (h : Heap) (newNode : Ptr) (win : Window) (mem : Store WindowNode) : Prop where
  get_self : mem.get newNode = some ⟨win, null, h.list.endNode⟩
  get_of_ne : ∀ c, c ≠ newNode → mem.get c =
    if c = h.list.endNode then (h.mem.get c).map (fun n => { n with next := newNode })
    else h.mem.get c

namespace Inserted

variable {h : Heap} {newNode c : Ptr} {win : Window} {mem : Store WindowNode}

/-- The nodes of the list keep their windows. -/
theorem held (hmem : Inserted h newNode win mem) (hne : c ≠ newNode) {n : WindowNode}
    (hn : h.mem.get c = some n) : ∃ n', mem.get c = some n' ∧ n'.window = n.window := by
  have hget := hmem.get_of_ne c hne
  split at hget
  · rw [hn] at hget
    exact ⟨_, hget, rfl⟩
  · exact ⟨n, hget.trans hn, rfl⟩

/-- They keep the links back. -/
theorem linkOf_prev (hmem : Inserted h newNode win mem) (hne : c ≠ newNode) :
    linkOf mem WindowNode.prev c = linkOf h.mem WindowNode.prev c := by
  rw [linkOf, hmem.get_of_ne c hne, linkOf]
  split
  · cases h.mem.get c with
    | none => rfl
    | some n => rfl
  · rfl

/-- The last one gets a link to the new node. -/
theorem linkOf_next (hmem : Inserted h newNode win mem) (hne : c ≠ newNode) {n : WindowNode}
    (hn : h.mem.get c = some n) : linkOf mem WindowNode.next c =
      if c = h.list.endNode then newNode else linkOf h.mem WindowNode.next c := by
  have hget := hmem.get_of_ne c hne
  by_cases hlast : c = h.list.endNode
  · rw [if_pos hlast, hn] at hget
    rw [if_pos hlast]
    exact linkOf_of_get hget
  · rw [if_neg hlast] at hget
    rw [if_neg hlast, linkOf, hget, linkOf]

end Inserted

/-- The memory after `window_list_insert`. -/
theorem windowListInsert_mem {h : Heap} {newNode : Ptr} (win : Window) (hne : newNode ≠ null)
    (hfresh : h.mem.get newNode = none)
    (hend : h.list.endNode ≠ null → ∃ n, h.mem.get h.list.endNode = some n) :
    ∃ mem, windowListInsert h newNode win = some ⟨mem,
        ⟨if h.list.start = null then newNode else h.list.start, newNode,
          word (h.list.nodes + 1)⟩⟩ ∧ Inserted h newNode win mem := by
  have hself := Store.get_set_self h.mem hne ⟨win, null, null⟩
  by_cases hnull : h.list.endNode = null
  · refine ⟨h.mem.set newNode ⟨win, null, null⟩, ?_, ⟨?_, fun c hc => ?_⟩⟩
    · simp [windowListInsert, hne, hnull]
    · rw [hself, hnull]
    · rw [Store.get_set_of_ne _ hc, hnull]
      split
      case isTrue hc => rw [hc, Store.get_zero, Option.map_none]
      case isFalse => rfl
  · obtain ⟨n, hn⟩ := hend hnull
    have hdiff : h.list.endNode ≠ newNode := by
      rintro heq
      rw [heq, hfresh] at hn
      cases hn
    have hget : (h.mem.set newNode ⟨win, null, null⟩).get h.list.endNode = some n := by
      rw [Store.get_set_of_ne _ hdiff, hn]
    have hfirst := Store.modify_eq hget fun n => { n with next := newNode }
    set mem₁ := (h.mem.set newNode ⟨win, null, null⟩).set h.list.endNode { n with next := newNode }
    have hget' : mem₁.get newNode = some ⟨win, null, null⟩ := by
      rw [Store.get_set_of_ne _ hdiff.symm, hself]
    have hsecond := Store.modify_eq hget' fun n => { n with prev := h.list.endNode }
    refine ⟨mem₁.set newNode ⟨win, null, h.list.endNode⟩, ?_,
      ⟨Store.get_set_self _ hne _, fun c hc => ?_⟩⟩
    · simp [windowListInsert, hne, hnull, hfirst, hsecond]
    · rw [Store.get_set_of_ne _ hc]
      split
      case isTrue hc =>
        rw [hc, hn]
        exact Store.get_set_self _ hnull _
      case isFalse hend => rw [Store.get_set_of_ne _ hend, Store.get_set_of_ne _ hc]

/-- **A window is appended.** -/
theorem windowListInsert_linked {h : Heap} {l : List (Ptr × Window)} {newNode : Ptr}
    (hl : Linked h l) (win : Window) (hne : newNode ≠ null) (hlt : newNode < 2 ^ 32)
    (hfresh : h.mem.get newNode = none) :
    ∃ h', windowListInsert h newNode win = some h' ∧ Linked h' (l ++ [(newNode, win)]) ∧
      h'.list.nodes = word (h.list.nodes + 1) := by
  have hend : h.list.endNode ≠ null → ∃ n, h.mem.get h.list.endNode = some n := fun hnull =>
    hl.exists_get (hl.end_eq_null_or.resolve_left hnull)
  obtain ⟨mem, heq, hins⟩ := windowListInsert_mem win hne hfresh hend
  have hnotMem : newNode ∉ l.map Prod.fst := by
    intro hmem
    obtain ⟨n, hn⟩ := hl.exists_get hmem
    rw [hfresh] at hn
    cases hn
  have hneq : ∀ c ∈ l.map Prod.fst, c ≠ newNode := fun c hc he => hnotMem (he ▸ hc)
  have hmap : (l ++ [(newNode, win)]).map Prod.fst = l.map Prod.fst ++ [newNode] := List.map_append
  refine ⟨_, heq, ⟨?_, ?_, ?_, ?_, ?_, ?_⟩, rfl⟩
  · intro x hx
    rcases List.mem_append.1 hx with hx | hx
    · obtain ⟨n, hn, hwin⟩ := hl.held x hx
      obtain ⟨n', hn', hwin'⟩ := hins.held (hneq _ (List.mem_map_of_mem hx)) hn
      exact ⟨n', hn', hwin'.trans hwin⟩
    · obtain rfl := List.mem_singleton.1 hx
      exact ⟨_, hins.get_self, rfl⟩
  · intro x hx
    rcases List.mem_append.1 hx with hx | hx
    · exact hl.lt x hx
    · obtain rfl := List.mem_singleton.1 hx
      exact hlt
  · rw [hmap, List.nodup_append]
    refine ⟨hl.nodup, List.nodup_singleton _, fun c hc d hd => ?_⟩
    rw [List.mem_singleton.1 hd]
    exact hneq c hc
  · rw [hmap]
    refine hl.seg.concat hl.nodup (linkOf_of_get hins.get_self) ?_ (fun c hc => ?_) fun c hc =>
      hins.linkOf_prev (hneq c hc)
    · rw [linkOf_of_get hins.get_self, ← hl.endNode]
    · obtain ⟨n, hn⟩ := hl.exists_get hc
      rw [← hl.endNode]
      exact hins.linkOf_next (hneq c hc) hn
  · rw [hmap]
    cases l with
    | nil => exact if_pos (hl.start.trans rfl)
    | cons x l =>
      rw [if_neg (mt hl.start_eq_null_iff.1 (List.cons_ne_nil _ _)), hl.start]
      rfl
  · rw [hmap, List.getLastD_concat]

/-! ## A window that goes -/

/-- The memory after `window_list_remove`. -/
theorem windowListRemove_mem {h : Heap} {node : Ptr} {n : WindowNode}
    (hn : h.mem.get node = some n)
    (hprev : n.prev = null ∨ n.prev ≠ node ∧ ∃ m, h.mem.get n.prev = some m)
    (hnext : n.next = null ∨ n.next ≠ node ∧ ∃ m, h.mem.get n.next = some m) :
    ∃ mem, windowListRemove h node = some ⟨mem,
        ⟨if node = h.list.start then n.next else h.list.start,
          if node = h.list.endNode then n.prev else h.list.endNode, h.list.nodes⟩⟩ ∧
      ∀ c m, c ≠ node → h.mem.get c = some m → mem.get c = some ⟨m.window,
        if c = n.prev then n.next else m.next, if c = n.next then n.prev else m.prev⟩ := by
  have hnode := Store.ne_zero_of_get hn
  have hheld : n.prev ≠ null → ∃ m, h.mem.get n.prev = some m := fun hne =>
    (hprev.resolve_left hne).2
  obtain ⟨mem₁, heq₁, hget₁⟩ := modifyUnlessNull_eq (fun m => { m with next := n.next }) hheld
  have hn₁ : mem₁.get node = some n := by
    rw [hget₁, if_neg, hn]
    rcases hprev with hnull | ⟨hne, -⟩
    · rw [hnull]
      exact hnode
    · exact hne.symm
  have hheld₁ : n.next ≠ null → ∃ m, mem₁.get n.next = some m := by
    intro hne
    obtain ⟨-, m, hm⟩ := hnext.resolve_left hne
    rw [hget₁, hm]
    split
    · exact ⟨_, rfl⟩
    · exact ⟨_, rfl⟩
  obtain ⟨mem₂, heq₂, hget₂⟩ := modifyUnlessNull_eq (fun m => { m with prev := n.prev }) hheld₁
  have hn₂ : mem₂.get node = some n := by
    rw [hget₂, if_neg, hn₁]
    rcases hnext with hnull | ⟨hne, -⟩
    · rw [hnull]
      exact hnode
    · exact hne.symm
  refine ⟨mem₂.free node, ?_, fun c m hc hm => ?_⟩
  · simp only [windowListRemove, hn, heq₁, hn₁, heq₂, hn₂, Option.bind_eq_bind, Option.bind_some,
      Option.pure_def]
  · rw [Store.get_free_of_ne _ hc, hget₂, hget₁, hm]
    split_ifs <;> rfl

theorem map_fst_apply_remove {l : List (Ptr × Window)} (hnd : (l.map Prod.fst).Nodup) (node : Ptr) :
    (Op.apply l (.remove node)).map Prod.fst = (l.map Prod.fst).erase node := by
  rw [hnd.erase_eq_filter, List.filter_map, Op.apply]
  congr 1
  refine List.filter_congr fun x _ => ?_
  rw [Function.comp_apply, bne, beq_eq_decide, decide_not]

/-- **A window is removed, and the others keep their order.** -/
theorem windowListRemove_linked {h : Heap} {l : List (Ptr × Window)} {node : Ptr}
    (hl : Linked h l) (hmem : node ∈ l.map Prod.fst) :
    ∃ h', windowListRemove h node = some h' ∧ Linked h' (Op.apply l (.remove node)) ∧
      h'.list.nodes = h.list.nodes := by
  obtain ⟨n, hn⟩ := hl.exists_get hmem
  have hnext : linkOf h.mem WindowNode.next node = n.next := linkOf_of_get hn
  have hprev : linkOf h.mem WindowNode.prev node = n.prev := linkOf_of_get hn
  obtain ⟨hp, hq⟩ := hl.seg.neighbours hl.nodup hmem
  rw [hprev] at hp
  rw [hnext] at hq
  obtain ⟨mem, heq, hget⟩ := windowListRemove_mem hn
    (hp.imp_right fun hp => ⟨hp.2, hl.exists_get hp.1⟩)
    (hq.imp_right fun hq => ⟨hq.2, hl.exists_get hq.1⟩)
  have hmap := map_fst_apply_remove hl.nodup node
  -- the links of the others
  have hother : ∀ c ∈ (l.map Prod.fst).erase node, ∃ m, h.mem.get c = some m ∧
      mem.get c = some ⟨m.window, if c = n.prev then n.next else m.next,
        if c = n.next then n.prev else m.prev⟩ := by
    intro c hc
    obtain ⟨hne, hc⟩ := (hl.nodup.mem_erase_iff).1 hc
    obtain ⟨m, hm⟩ := hl.exists_get hc
    exact ⟨m, hm, hget c m hne hm⟩
  have hnexts : ∀ c ∈ (l.map Prod.fst).erase node, linkOf mem WindowNode.next c =
      if c = linkOf h.mem WindowNode.prev node then linkOf h.mem WindowNode.next node
      else linkOf h.mem WindowNode.next c := by
    intro c hc
    obtain ⟨m, hm, hm'⟩ := hother c hc
    rw [linkOf_of_get hm', linkOf_of_get hm, hnext, hprev]
  have hprevs : ∀ c ∈ (l.map Prod.fst).erase node, linkOf mem WindowNode.prev c =
      if c = linkOf h.mem WindowNode.next node then linkOf h.mem WindowNode.prev node
      else linkOf h.mem WindowNode.prev c := by
    intro c hc
    obtain ⟨m, hm, hm'⟩ := hother c hc
    rw [linkOf_of_get hm', linkOf_of_get hm, hnext, hprev]
  obtain ⟨hseg, hhead⟩ := hl.seg.erase hmem hl.null_notMem hl.nodup hnexts hprevs
  have hlast := hl.seg.getLastD_erase hmem hl.null_notMem hl.nodup
  refine ⟨_, heq, ⟨?_, fun x hx => hl.lt x (List.mem_of_mem_filter hx), ?_, ?_, ?_, ?_⟩, rfl⟩
  · intro x hx
    obtain ⟨m, hm, hm'⟩ := hother x.1 (hmap ▸ List.mem_map_of_mem hx)
    obtain ⟨m₀, hm₀, hwin⟩ := hl.held x (List.mem_of_mem_filter hx)
    obtain rfl := Option.some.inj (hm.symm.trans hm₀)
    exact ⟨_, hm', hwin⟩
  · rw [hmap]
    exact hl.nodup.erase node
  · rwa [hmap]
  · rw [hmap, hhead, hnext, ← hl.start]
  · rw [hmap, hlast, hprev, ← hl.endNode]

/-! ## Runs -/

theorem linked_empty {h : Heap} (h₀ : h.list = ⟨null, null, 0⟩) : Linked h [] := by
  refine ⟨fun x hx => absurd hx List.not_mem_nil, fun x hx => absurd hx List.not_mem_nil,
    List.nodup_nil, trivial, ?_, ?_⟩
  · rw [h₀]
    rfl
  · rw [h₀]
    rfl

/-- What the list of windows is to be after some changes. -/
def contents (ops : List Op) : List (Ptr × Window) := ops.foldl Op.apply []

/-- The change takes a window out. -/
def Op.IsRemove : Op → Prop
  | .insert _ _ => False
  | .remove _ => True

instance : (op : Op) → Decidable op.IsRemove
  | .insert _ _ => instDecidableFalse
  | .remove _ => instDecidableTrue

/-- The number of nodes that the list keeps, after a change. -/
def Op.count (n : ℕ) : Op → ℕ
  | .insert _ _ => word (n + 1)
  | .remove _ => n

section

variable {h h' : Heap} {l : List (Ptr × Window)} {op : Op} {ops : List Op}

theorem Linked.make (hl : Linked h l) (hallowed : op.Allowed h) :
    ∃ h', op.make h = some h' ∧ Linked h' (op.apply l) ∧ h'.list.nodes = op.count h.list.nodes := by
  cases op with
  | insert newNode win =>
    obtain ⟨hne, hlt, hfresh⟩ := hallowed
    exact windowListInsert_linked hl win hne hlt hfresh
  | remove node =>
    obtain ⟨l', hvisits, hmem⟩ := hallowed
    obtain rfl := hl.listed.forward.unique hvisits
    exact windowListRemove_linked hl hmem

theorem Linked.step (hl : Linked h l) (hstep : Step h op h') :
    Linked h' (op.apply l) ∧ h'.list.nodes = op.count h.list.nodes := by
  obtain ⟨h₁, heq, hlinked, hnodes⟩ := hl.make hstep.1
  obtain rfl := Option.some.inj (hstep.2.symm.trans heq)
  exact ⟨hlinked, hnodes⟩

theorem Linked.run (hl : Linked h l) (hrun : Run Step h ops h') :
    Linked h' (ops.foldl Op.apply l) ∧ h'.list.nodes = ops.foldl Op.count h.list.nodes := by
  induction hrun generalizing l with
  | nil => exact ⟨hl, rfl⟩
  | cons hstep _ ih =>
    obtain ⟨hl', hnodes⟩ := hl.step hstep
    have hrest := ih hl'
    rwa [hnodes] at hrest

/-- What is in the list after a run from an empty list. -/
theorem run_linked (h₀ : h.list = ⟨null, null, 0⟩) (hrun : Run Step h ops h') :
    Linked h' (contents ops) ∧ h'.list.nodes = ops.foldl Op.count 0 := by
  have hlinked := (linked_empty h₀).run hrun
  rwa [h₀] at hlinked

theorem length_of_inserts (hops : ∀ op ∈ ops, ¬ op.IsRemove) :
    (ops.foldl Op.apply l).length = l.length + ops.length := by
  induction ops generalizing l with
  | nil => rfl
  | cons op ops ih =>
    obtain ⟨hop, hrest⟩ := List.forall_mem_cons.1 hops
    cases op with
    | insert newNode win =>
      rw [List.foldl_cons, ih hrest, Op.apply, List.length_append, List.length_singleton,
        List.length_cons]
      omega
    | remove node => exact absurd trivial hop

/-- Without a removal the number is that of the windows that came. -/
theorem count_of_inserts {n : ℕ} (hops : ∀ op ∈ ops, ¬ op.IsRemove)
    (hlt : n + ops.length < 2 ^ 32) : ops.foldl Op.count n = n + ops.length := by
  induction ops generalizing n with
  | nil => rfl
  | cons op ops ih =>
    obtain ⟨hop, hrest⟩ := List.forall_mem_cons.1 hops
    rw [List.length_cons] at hlt ⊢
    cases op with
    | insert newNode win =>
      have hword : word (n + 1) = n + 1 := Nat.mod_eq_of_lt (by omega)
      rw [List.foldl_cons, Op.count, hword, ih hrest (by omega)]
      omega
    | remove node => exact absurd trivial hop

end

/-! ## The list over a run -/

section

variable (h : Heap) (ops : List Op)

/-- In every state of a run the list has the windows that it is to have, and any further change can
be made. -/
def InOrder : Prop := ∀ ops₁ ops₂ h₁, ops = ops₁ ++ ops₂ → Run Step h ops₁ h₁ →
  Listed h₁ (contents ops₁) ∧ ∀ op, op.Allowed h₁ → ∃ h₂, Step h₁ op h₂

/-- In every state of a run the list keeps the number of its nodes. -/
def Counted : Prop := ∀ ops₁ ops₂ h₁, ops = ops₁ ++ ops₂ → Run Step h ops₁ h₁ →
  h₁.list.nodes = (contents ops₁).length

end

/-- **The list of windows.** In every run from an empty list the two directions agree and the
windows are in their order, and the number of nodes is right just when no window is removed. -/
theorem window_list_iff {h h' : Heap} {ops : List Op} (h₀ : h.list = ⟨null, null, 0⟩)
    (hrun : Run Step h ops h') :
    InOrder h ops ∧ (Counted h ops ↔ ∀ op ∈ ops, ¬ op.IsRemove) := by
  refine ⟨fun ops₁ ops₂ h₁ _ hrun₁ => ?_, fun hcounted op hop hremove => ?_,
    fun hops ops₁ ops₂ h₁ heq hrun₁ => ?_⟩
  · obtain ⟨hlinked, -⟩ := run_linked h₀ hrun₁
    refine ⟨hlinked.listed, fun op hallowed => ?_⟩
    obtain ⟨h₂, hmake, -, -⟩ := hlinked.make hallowed
    exact ⟨h₂, hallowed, hmake⟩
  · obtain ⟨ops₁, ops₂, rfl⟩ := List.append_of_mem hop
    obtain ⟨h₁, hrun₁, hrun₂⟩ := hrun.of_append
    cases hrun₂ with
    | cons hstep hrest =>
      rename_i h₂
      -- the number stays, and the windows are one less
      obtain ⟨hlinked, -⟩ := run_linked h₀ hrun₁
      have hbefore := hcounted ops₁ (op :: ops₂) h₁ rfl hrun₁
      have hafter := hcounted (ops₁ ++ [op]) ops₂ h₂ (by simp)
        (hrun₁.append (.cons hstep (.nil _)))
      obtain ⟨hlinked₂, hnodes⟩ := hlinked.step hstep
      cases op with
      | insert newNode win => exact hremove
      | remove node =>
        obtain ⟨l, hvisits, hmem⟩ := hstep.1
        obtain rfl := hlinked.listed.forward.unique hvisits
        have hlength := congrArg List.length (map_fst_apply_remove hlinked.nodup node)
        rw [List.length_erase_of_mem hmem, List.length_map, List.length_map] at hlength
        have hpos := List.length_pos_of_mem hmem
        rw [List.length_map] at hpos
        have hcontents : contents (ops₁ ++ [.remove node]) =
            Op.apply (contents ops₁) (.remove node) := by
          rw [contents, List.foldl_append]
          rfl
        rw [hcontents, hlength, hnodes, Op.count, hbefore] at hafter
        omega
  · have hops₁ : ∀ op ∈ ops₁, ¬ op.IsRemove := fun op hop =>
      hops op (heq ▸ List.mem_append_left _ hop)
    obtain ⟨hlinked, hnodes⟩ := run_linked h₀ hrun₁
    have hlength : (contents ops₁).length = ops₁.length := by
      rw [contents, length_of_inserts hops₁, List.length_nil, Nat.zero_add]
    have hlt := hlinked.length_lt
    rw [hlength] at hlt
    rw [hnodes, hlength, count_of_inserts hops₁ (by omega), Nat.zero_add]

/-- The list of windows at the start. -/
def emptyHeap : Heap := ⟨.empty, ⟨null, null, 0⟩⟩

/-- A window of one pixel. -/
def tinyWindow : Window := windowCreate 1 1 7

/-- Three windows come, and then the second one is raised. -/
theorem window_list_iff_raise :
    (InOrder emptyHeap [.insert 16 tinyWindow, .insert 32 (windowCreate 2 3 8),
        .insert 48 tinyWindow] ∧
      Counted emptyHeap [.insert 16 tinyWindow, .insert 32 (windowCreate 2 3 8),
        .insert 48 tinyWindow]) ∧
    InOrder emptyHeap [.insert 16 tinyWindow, .insert 32 (windowCreate 2 3 8),
        .insert 48 tinyWindow, .remove 32, .insert 64 (windowCreate 2 3 8)] ∧
      ¬ Counted emptyHeap [.insert 16 tinyWindow, .insert 32 (windowCreate 2 3 8),
        .insert 48 tinyWindow, .remove 32, .insert 64 (windowCreate 2 3 8)] := by
  have hthree : Run Step emptyHeap [.insert 16 tinyWindow, .insert 32 (windowCreate 2 3 8),
      .insert 48 tinyWindow] _ :=
    .cons ⟨⟨by decide, by decide, rfl⟩, rfl⟩ <| .cons ⟨⟨by decide, by decide, rfl⟩, rfl⟩ <|
      .cons ⟨⟨by decide, by decide, rfl⟩, rfl⟩ (.nil _)
  have hremove := (run_linked rfl hthree).1
  have hraise : Run Step emptyHeap [.insert 16 tinyWindow, .insert 32 (windowCreate 2 3 8),
      .insert 48 tinyWindow, .remove 32, .insert 64 (windowCreate 2 3 8)] _ :=
    hthree.append <| .cons ⟨⟨_, hremove.listed.forward, by decide⟩, rfl⟩ <|
      .cons ⟨⟨by decide, by decide, rfl⟩, rfl⟩ (.nil _)
  obtain ⟨horder, hcounted⟩ := window_list_iff rfl hthree
  obtain ⟨horder', hcounted'⟩ := window_list_iff rfl hraise
  refine ⟨⟨horder, hcounted.2 (by decide)⟩, horder', fun h => ?_⟩
  exact hcounted'.1 h (.remove 32) (by simp) trivial

/-- A window that is removed, as at each raise, is still counted. -/
theorem window_list_removed : ¬ ∀ (h h' : Heap) (ops : List Op), h.list = ⟨null, null, 0⟩ →
    Run Step h ops h' → InOrder h ops ∧ Counted h ops := by
  intro hall
  have hempty := linked_empty (h := emptyHeap) rfl
  have hinsert : (Op.insert 16 tinyWindow).Allowed emptyHeap := ⟨by decide, by decide, rfl⟩
  obtain ⟨h₁, hmake₁, hlinked₁, hnodes₁⟩ := hempty.make hinsert
  have hremove : (Op.remove 16).Allowed h₁ :=
    ⟨_, hlinked₁.listed.forward, List.mem_singleton_self _⟩
  obtain ⟨h₂, hmake₂, hlinked₂, hnodes₂⟩ := hlinked₁.make hremove
  have hrun : Run Step emptyHeap [.insert 16 tinyWindow, .remove 16] h₂ :=
    .cons ⟨hinsert, hmake₁⟩ (.cons ⟨hremove, hmake₂⟩ (.nil _))
  obtain ⟨-, hcounted⟩ := hall _ _ _ rfl hrun
  have hzero := hcounted _ [] _ (List.append_nil _).symm hrun
  rw [hnodes₂, hnodes₁] at hzero
  exact absurd hzero (by decide)

/-! ## The loop of `handle_mouse` on the nodes -/

/-- The loop of `handle_mouse`. It does not look at the windows in `wm`. -/
def mouseWalk (calloc : Heap → Ptr) (ev : MouseEvent) : ℕ → Wm → Heap → Ptr → Option (Wm × Heap)
  | 0, _, _, _ => none
  | fuel + 1, wm, h, node =>
    if node = null then some (wm, h)
    else do
      let n ← h.mem.get node
      if mouseOver wm n.window then
        if ev.flags &&& mouseFlagLeft ≠ 0 then
          let win := n.window
          let wm := updateWindowRegion wm win
          let h ← windowListRemove h node
          let h ← windowListInsert h (calloc h) win
          some (updateWindowRegion wm win, h)
        else if ev.flags &&& mouseFlagRight ≠ 0 then
          let wm := updateWindowRegion wm n.window
          let pt := n.window.rect.coord
          let pt := normalizePoint wm ⟨int32 (pt.x + ev.x), int32 (pt.y - ev.y)⟩
          let win := { n.window with rect.coord := pt }
          let mem ← h.mem.modify node fun n => { n with window := win }
          some (updateWindowRegion wm win, { h with mem := mem })
        else mouseWalk calloc ev fuel wm h n.prev
      else mouseWalk calloc ev fuel wm h n.prev

theorem allocUpdate_setWinlist (depth : ℕ) (wm : Wm) (ws : List Window) :
    allocUpdate depth { wm with winlist := ws } =
      ({ (allocUpdate depth wm).1 with winlist := ws }, (allocUpdate depth wm).2) := by
  induction depth generalizing wm with
  | zero => rfl
  | succ depth ih =>
    have hinner := ih (resetUpdates { wm with numUpdates := wm.numUpdates + 1 })
    simp only [allocUpdate]
    split
    · rw [resetUpdates] at hinner ⊢
      rw [hinner]
      rfl
    · rfl

/-- The updates do not depend on the windows. -/
theorem updateWindowRegion_setWinlist (wm : Wm) (window : Window) (ws : List Window) :
    updateWindowRegion { wm with winlist := ws } window =
      { updateWindowRegion wm window with winlist := ws } := by
  have halloc := allocUpdate_setWinlist 2 wm ws
  simp only [updateWindowRegion, updateRegion, halloc]
  rfl

namespace Linked

variable {h : Heap} {xs ys : List (Ptr × Window)} {node : Ptr} {win : Window} {n : WindowNode}

theorem get_of_mem (hl : Linked h (xs ++ (node, win) :: ys)) :
    ∃ n, h.mem.get node = some n ∧ n.window = win ∧ n.prev = (xs.map Prod.fst).getLastD null := by
  obtain ⟨n, hn, hwin⟩ := hl.held (node, win) (List.mem_append_right _ List.mem_cons_self)
  have hseg := hl.seg
  rw [List.map_append, List.map_cons] at hseg
  exact ⟨n, hn, hwin, (linkOf_of_get hn).symm.trans hseg.links.1⟩

theorem ne_of_mem (hl : Linked h (xs ++ (node, win) :: ys)) {x : Ptr × Window}
    (hx : x ∈ xs ++ ys) : x.1 ≠ node := by
  have hnd := hl.nodup
  rw [List.map_append, List.map_cons, List.perm_middle.nodup_iff, List.nodup_cons,
    ← List.map_append] at hnd
  rintro rfl
  exact hnd.1 (List.mem_map.2 ⟨x, hx, rfl⟩)

theorem apply_remove (hl : Linked h (xs ++ (node, win) :: ys)) :
    Op.apply (xs ++ (node, win) :: ys) (.remove node) = xs ++ ys := by
  have hkeep : (xs ++ ys).filter (fun x => x.1 ≠ node) = xs ++ ys :=
    List.filter_eq_self.2 fun x hx => decide_eq_true (hl.ne_of_mem hx)
  rw [List.filter_append] at hkeep
  rw [Op.apply, List.filter_append, List.filter_cons_of_neg (by simp), hkeep]

/-- Another window in a node. -/
theorem setWindow (hl : Linked h (xs ++ (node, win) :: ys)) (hn : h.mem.get node = some n)
    (win' : Window) : Linked { h with mem := h.mem.set node { n with window := win' } }
      (xs ++ (node, win') :: ys) := by
  have hmap : (xs ++ (node, win') :: ys).map Prod.fst = (xs ++ (node, win) :: ys).map Prod.fst := by
    simp only [List.map_append, List.map_cons]
  have hself := Store.get_set_self h.mem (Store.ne_zero_of_get hn) { n with window := win' }
  have hlink {link : WindowNode → Ptr} (hkeep : link { n with window := win' } = link n) :
      linkOf (h.mem.set node { n with window := win' }) link = linkOf h.mem link := by
    funext c
    by_cases hc : c = node
    · rw [hc, linkOf_of_get hself, linkOf_of_get hn, hkeep]
    · rw [linkOf, Store.get_set_of_ne _ hc, linkOf]
  refine ⟨fun x hx => ?_, fun x hx => ?_, ?_, ?_, ?_, ?_⟩
  · rcases List.mem_append.1 hx with hx | hx
    · rw [Store.get_set_of_ne _ (hl.ne_of_mem (List.mem_append_left _ hx))]
      exact hl.held x (List.mem_append_left _ hx)
    rcases List.mem_cons.1 hx with rfl | hx
    · exact ⟨_, hself, rfl⟩
    · rw [Store.get_set_of_ne _ (hl.ne_of_mem (List.mem_append_right _ hx))]
      exact hl.held x (List.mem_append_right _ (List.mem_cons_of_mem _ hx))
  · obtain ⟨y, hy, heq⟩ := List.mem_map.1 (hmap ▸ List.mem_map_of_mem hx)
    exact heq ▸ hl.lt y hy
  · rw [hmap]
    exact hl.nodup
  · rw [hmap, hlink rfl, hlink rfl]
    exact hl.seg
  · rw [hmap]
    exact hl.start
  · rw [hmap]
    exact hl.endNode

end Linked

/-- **The loop of `handle_mouse` is that on the list of the windows.** -/
theorem mouseWalk_eq {calloc : Heap → Ptr} (ev : MouseEvent) {wm : Wm} {h : Heap}
    {before after : List (Ptr × Window)} (hl : Linked h (before.reverse ++ after))
    (hcalloc : ∀ x ∈ before, ∀ h₁, windowListRemove h x.1 = some h₁ →
      (Op.insert (calloc h₁) x.2).Allowed h₁)
    (hwin : wm.winlist = (before.reverse ++ after).map Prod.snd) {fuel : ℕ}
    (hfuel : before.length < fuel) :
    ∃ wm' h' l, mouseWalk calloc ev fuel wm h ((before.map Prod.fst).headD null) = some (wm', h') ∧
      Linked h' l ∧ mouseLoop ev wm (before.map Prod.snd) (after.map Prod.snd) =
        { wm' with winlist := l.map Prod.snd } := by
  induction before generalizing after fuel with
  | nil =>
    obtain ⟨fuel, rfl⟩ := Nat.exists_eq_add_of_lt hfuel
    refine ⟨wm, h, _, if_pos rfl, hl, ?_⟩
    rw [← hwin]
    rfl
  | cons x before ih =>
    obtain ⟨node, win⟩ := x
    obtain ⟨fuel, rfl⟩ := Nat.exists_eq_add_of_lt hfuel
    rw [List.reverse_cons, List.append_assoc, List.singleton_append] at hl hwin
    obtain ⟨n, hn, hnwin, hprev⟩ := hl.get_of_mem
    have hne : node ≠ null := Store.ne_zero_of_get hn
    rw [List.map_reverse, ← headD_reverse, List.reverse_reverse] at hprev
    obtain ⟨hnode, hcalloc⟩ := List.forall_mem_cons.1 hcalloc
    have hnext := ih hl hcalloc hwin (show before.length < before.length + 1 + fuel by omega)
    rw [← hprev] at hnext
    have hstep : (((node, win) :: before).length + fuel + 1) = (before.length + 1 + fuel) + 1 := rfl
    rw [hstep, List.map_cons, List.headD_cons, mouseWalk, if_neg hne, hn, Option.bind_eq_bind,
      Option.bind_some, List.map_cons, mouseLoop, hnwin]
    split
    case isFalse => exact hnext
    case isTrue =>
    split
    case isTrue =>
      have hmem : node ∈ (before.reverse ++ (node, win) :: after).map Prod.fst := by simp
      obtain ⟨h₁, hremove, hl₁, -⟩ := windowListRemove_linked hl hmem
      rw [hl.apply_remove] at hl₁
      obtain ⟨hnew, hlt, hfresh⟩ := hnode h₁ hremove
      obtain ⟨h₂, hinsert, hl₂, -⟩ := windowListInsert_linked hl₁ win hnew hlt hfresh
      refine ⟨updateWindowRegion (updateWindowRegion wm win) win, h₂, _, ?_, hl₂, ?_⟩
      · simp only [hremove, hinsert, Option.bind_eq_bind, Option.bind_some]
      · dsimp only
        rw [updateWindowRegion_setWinlist]
        simp only [List.map_append, List.map_reverse, List.map_cons, List.map_nil]
    case isFalse =>
    split
    case isTrue =>
      let wm₁ := updateWindowRegion wm win
      let pt := normalizePoint wm₁
        ⟨int32 (win.rect.coord.x + ev.x), int32 (win.rect.coord.y - ev.y)⟩
      let win' := { win with rect.coord := pt }
      refine ⟨updateWindowRegion wm₁ win', _, _, ?_, hl.setWindow hn win', ?_⟩
      · exact congrArg (Option.bind · _) (Store.modify_eq hn _)
      · show updateWindowRegion { wm₁ with winlist := _ } win' = _
        rw [updateWindowRegion_setWinlist]
        simp only [List.map_append, List.map_reverse, List.map_cons]
        rfl
    case isFalse => exact hnext

/-- `handle_mouse` on the nodes. -/
def handleMouseNodes (calloc : Heap → Ptr) (fuel : ℕ) (wm : Wm) (h : Heap) (ev : MouseEvent) :
    Option (Wm × Heap) := do
  let wm := updateMouseRegion wm
  let (wm, h) ← mouseWalk calloc ev fuel wm h h.list.endNode
  let mouse := ⟨int32 (wm.mouse.x + ev.x), int32 (wm.mouse.y - ev.y)⟩
  let wm := { wm with mouse := normalizePoint wm mouse }
  return (updateMouseRegion wm, h)

theorem updateMouseRegion_setWinlist (wm : Wm) (ws : List Window) :
    updateMouseRegion { wm with winlist := ws } =
      { updateMouseRegion wm with winlist := ws } := by
  have halloc := allocUpdate_setWinlist 2 wm ws
  simp only [updateMouseRegion, updateRegion, halloc]
  rfl

/-- **`handle_mouse` on the nodes is that on the list of the windows.** -/
theorem handleMouseNodes_eq {calloc : Heap → Ptr} {wm : Wm} {h : Heap} {l : List (Ptr × Window)}
    (ev : MouseEvent) (hl : Linked h l) (hwin : wm.winlist = l.map Prod.snd)
    (hcalloc : ∀ x ∈ l, ∀ h₁, windowListRemove h x.1 = some h₁ →
      (Op.insert (calloc h₁) x.2).Allowed h₁) {fuel : ℕ} (hfuel : l.length < fuel) :
    ∃ wm' h' l', handleMouseNodes calloc fuel wm h ev = some (wm', h') ∧ Linked h' l' ∧
      handleMouse wm ev = { wm' with winlist := l'.map Prod.snd } := by
  have hwin₁ : (updateMouseRegion wm).winlist = l.map Prod.snd := by
    have hself := congrArg Wm.winlist (updateMouseRegion_setWinlist wm wm.winlist)
    exact hself.trans hwin
  have hlist : l.reverse.reverse ++ [] = l := by rw [List.reverse_reverse, List.append_nil]
  have hl₁ : Linked h (l.reverse.reverse ++ []) := by rwa [hlist]
  obtain ⟨wm', h', l', hwalk, hl', hloop⟩ := mouseWalk_eq ev hl₁
    (fun x hx => hcalloc x (List.mem_reverse.1 hx)) (by rwa [hlist])
    (show l.reverse.length < fuel by rwa [List.length_reverse])
  rw [List.map_reverse, headD_reverse, ← hl.endNode] at hwalk
  rw [List.map_reverse, ← hwin₁, List.map_nil] at hloop
  let mouse : Point := ⟨int32 (wm'.mouse.x + ev.x), int32 (wm'.mouse.y - ev.y)⟩
  refine ⟨updateMouseRegion { wm' with mouse := normalizePoint wm' mouse }, h', l', ?_, hl', ?_⟩
  · rw [handleMouseNodes, hwalk]
    rfl
  · rw [handleMouse, hloop]
    exact updateMouseRegion_setWinlist { wm' with mouse := normalizePoint wm' mouse } _

end C4OS.Stubbywm
