import C4OS.Andtree.Model

/-!
# Trees in memory

`Repr m par s` says that the memory `m` holds the tree `s` below a node (or nothing) at address
`par`: every node of `s` is at its address, with its level, its data, a `parent` pointer to the
node above and leaf pointers to the nodes below, an empty subtree being the sentinel. `ReprCtx`
says the same of the nodes around a position in a tree, and `Focus m t C s` that the tree `t` holds
`s` at the position `C`. The steps of the code are followed with the focus on the node they work
on; `Focus.up` and `Focus.down` move it.
-/

namespace C4OS.Andtree

open Foundations

/-- What a node holds: its address and its data. -/
structure Item where
  addr : Ptr
  data : Ptr
  deriving DecidableEq

/-- The pointer to a tree. -/
def root : AATree Item → Ptr
  | .nil => sentinel
  | .node b _ _ _ => b.addr

/-- The addresses of the nodes, in order. -/
def addrs (s : AATree Item) : List Ptr := s.toList.map Item.addr

/-- A node with `inner` on `side` and `outer` on the other side. -/
def nodeOn (side : Side) (b : Item) (k : ℕ) (inner outer : AATree Item) : AATree Item :=
  match side with
  | .left => .node b k inner outer
  | .right => .node b k outer inner

/-- The record of a node with leaves `inner` on `side` and `outer` on the other side. -/
def cell (side : Side) (par inner outer : Ptr) (k : ℕ) (data : Ptr) : AndNode :=
  match side with
  | .left => ⟨par, inner, outer, k, data⟩
  | .right => ⟨par, outer, inner, k, data⟩

section Cells

variable (side : Side) (par p q r : Ptr) (k : ℕ) (d : Ptr) (b : Item) (x y : AATree Item)

@[simp] theorem root_nil : root .nil = sentinel := rfl
@[simp] theorem root_node : root (.node b k x y) = b.addr := rfl
@[simp] theorem root_nodeOn : root (nodeOn side b k x y) = b.addr := by cases side <;> rfl
@[simp] theorem level_nodeOn : (nodeOn side b k x y).level = k := by cases side <;> rfl
@[simp] theorem addrs_nil : addrs .nil = [] := rfl
@[simp] theorem addrs_node : addrs (.node b k x y) = addrs x ++ b.addr :: addrs y := by
  simp [addrs]

theorem addrs_nodeOn_perm : (addrs (nodeOn side b k x y)).Perm (b.addr :: addrs x ++ addrs y) := by
  cases side with
  | left =>
    simp only [nodeOn, addrs_node, List.cons_append]
    exact List.perm_middle
  | right =>
    simp only [nodeOn, addrs_node, List.cons_append]
    exact List.perm_middle.trans (List.Perm.cons _ List.perm_append_comm)

@[simp] theorem cell_parent : (cell side par p q k d).parent = par := by cases side <;> rfl
@[simp] theorem cell_level : (cell side par p q k d).level = k := by cases side <;> rfl
@[simp] theorem cell_data : (cell side par p q k d).data = d := by cases side <;> rfl
@[simp] theorem cell_leaf : (cell side par p q k d).leaf side = p := by cases side <;> rfl
@[simp] theorem cell_leaf_flip : (cell side par p q k d).leaf side.flip = q := by
  cases side <;> rfl
@[simp] theorem cell_setLeaf : (cell side par p q k d).setLeaf side r = cell side par r q k d := by
  cases side <;> rfl
@[simp] theorem cell_setLeaf_flip :
    (cell side par p q k d).setLeaf side.flip r = cell side par p r k d := by
  cases side <;> rfl
@[simp] theorem cell_setParent : (cell side par p q k d).setParent r = cell side r p q k d := by
  cases side <;> rfl

end Cells

/-! ## Representation -/

/-- The memory `m` holds the tree `s` below the node at `par`. -/
def Repr (m : Mem) (par : Ptr) : AATree Item → Prop
  | .nil => True
  | .node b k l r => b.addr ≠ sentinel ∧ 0 < k ∧
      m.get b.addr = some ⟨par, root l, root r, k, b.data⟩ ∧ Repr m b.addr l ∧ Repr m b.addr r

/-- The sentinel ends every branch; nothing is said of its `parent` and `data`. -/
def SentinelOk (m : Mem) : Prop :=
  ∃ par d, m.get sentinel = some ⟨par, sentinel, sentinel, 0, d⟩

variable {m m' : Mem} {par : Ptr}

theorem repr_nodeOn {side : Side} {b : Item} {k : ℕ} {x y : AATree Item} :
    Repr m par (nodeOn side b k x y) ↔ b.addr ≠ sentinel ∧ 0 < k ∧
      m.get b.addr = some (cell side par (root x) (root y) k b.data) ∧
      Repr m b.addr x ∧ Repr m b.addr y := by
  cases side with
  | left => exact Iff.rfl
  | right =>
    simp only [nodeOn, Repr, cell]
    tauto

theorem Repr.sentinel_notMem {s : AATree Item} (h : Repr m par s) : sentinel ∉ addrs s := by
  induction s generalizing par with
  | nil => simp
  | node b k l r ihl ihr =>
    obtain ⟨hb, -, -, hl, hr⟩ := h
    simp [ihl hl, ihr hr, Ne.symm hb]

theorem Repr.zero_notMem {s : AATree Item} (h : Repr m par s) : 0 ∉ addrs s := by
  induction s generalizing par with
  | nil => simp
  | node b k l r ihl ihr =>
    obtain ⟨-, -, hb, hl, hr⟩ := h
    simp [ihl hl, ihr hr, Ne.symm (Store.ne_zero_of_get hb)]

/-- A tree reads only its own nodes. -/
theorem Repr.frame {s : AATree Item} (h : Repr m par s) (hm : ∀ a ∈ addrs s, m'.get a = m.get a) :
    Repr m' par s := by
  induction s generalizing par with
  | nil => trivial
  | node b k l r ihl ihr =>
    obtain ⟨hb, hk, hg, hl, hr⟩ := h
    refine ⟨hb, hk, ?_, ihl hl fun a ha => hm a ?_, ihr hr fun a ha => hm a ?_⟩
    · rw [hm _ (by simp), hg]
    · simp [ha]
    · simp [ha]

/-- A tree whose root gets a new parent. -/
theorem Repr.reparent {s : AATree Item} (h : Repr m par s) (hnd : (addrs s).Nodup) {par' : Ptr}
    (hroot : m'.get (root s) = (m.get (root s)).map (·.setParent par'))
    (hm : ∀ a ∈ addrs s, a ≠ root s → m'.get a = m.get a) : Repr m' par' s := by
  cases s with
  | nil => trivial
  | node b k l r =>
    obtain ⟨hb, hk, hg, hl, hr⟩ := h
    simp only [addrs_node, List.nodup_append, List.nodup_cons, List.mem_cons] at hnd
    obtain ⟨-, ⟨hbr, -⟩, hdisj⟩ := hnd
    refine ⟨hb, hk, ?_, hl.frame fun a ha => hm a ?_ ?_, hr.frame fun a ha => hm a ?_ ?_⟩
    · rw [root_node] at hroot
      rw [hroot, hg]
      rfl
    · simp [ha]
    · rintro rfl
      exact hdisj _ ha _ (.inl rfl) rfl
    · simp [ha]
    · rintro rfl
      exact hbr ha

theorem Repr.root_ne {s : AATree Item} {a : Ptr} (ha : a ∉ addrs s) (hs : a ≠ sentinel) :
    root s ≠ a := by
  cases s with
  | nil => exact Ne.symm hs
  | node b k l r =>
    rintro rfl
    simp at ha

theorem Repr.root_ne_null {s : AATree Item} (h : Repr m par s) : root s ≠ null := by
  cases s with
  | nil => simp
  | node b k l r => exact Store.ne_zero_of_get h.2.2.1

/-- The record at the root of a tree, the empty tree included. -/
theorem Repr.get_root {s : AATree Item} (h : Repr m par s) (hs : SentinelOk m) :
    ∃ n, m.get (root s) = some n ∧ n.level = s.level ∧ n.right = root s.right := by
  cases s with
  | nil =>
    obtain ⟨p, d, hget⟩ := hs
    exact ⟨_, hget, rfl, rfl⟩
  | node b k l r => exact ⟨_, h.2.2.1, rfl, rfl⟩

theorem isNil_sentinel (hs : SentinelOk m) : isNil m sentinel = some true := by
  obtain ⟨p, d, hget⟩ := hs
  simp [isNil, hget]

theorem Repr.isNil_node {b : Item} {k : ℕ} {l r : AATree Item} (h : Repr m par (.node b k l r)) :
    isNil m b.addr = some false := by
  obtain ⟨-, hk, hg, -⟩ := h
  simp [isNil, hg, Store.ne_zero_of_get hg, Nat.pos_iff_ne_zero.1 hk]

/-! ## Positions in memory -/

/-- The address above a position, `NULL` at the root. -/
def above : Ctx Item → Ptr
  | [] => null
  | f :: _ => f.item.addr

@[simp] theorem above_cons (f : Frame Item) (C : Ctx Item) : above (f :: C) = f.item.addr := rfl

/-- The addresses around a position. -/
def ctxAddrs : Ctx Item → List Ptr
  | [] => []
  | f :: C => f.item.addr :: addrs f.sibling ++ ctxAddrs C

/-- The memory `m` holds the nodes around the position `C`, with `hole` at the position. -/
def ReprCtx (m : Mem) : Ctx Item → Ptr → Prop
  | [], _ => True
  | f :: C, hole => f.item.addr ≠ sentinel ∧ 0 < f.level ∧
      m.get f.item.addr = some (cell f.side (above C) hole (root f.sibling) f.level f.item.data) ∧
      Repr m f.item.addr f.sibling ∧ ReprCtx m C f.item.addr

theorem plug_eq_nodeOn (f : Frame Item) (s : AATree Item) :
    f.plug s = nodeOn f.side f.item f.level s f.sibling := by
  obtain ⟨side, b, k, t⟩ := f
  cases side <;> rfl

@[simp] theorem root_plug (f : Frame Item) (s : AATree Item) : root (f.plug s) = f.item.addr := by
  rw [plug_eq_nodeOn, root_nodeOn]

theorem addrs_plug_perm (C : Ctx Item) (s : AATree Item) :
    (addrs (C.plug s)).Perm (ctxAddrs C ++ addrs s) := by
  induction C generalizing s with
  | nil => rfl
  | cons f C ih =>
    refine (ih (f.plug s)).trans ?_
    rw [plug_eq_nodeOn, ctxAddrs]
    refine (List.Perm.append_left _ (addrs_nodeOn_perm ..)).trans ?_
    rw [List.cons_append, List.cons_append, List.cons_append]
    refine List.perm_middle.trans (List.Perm.cons _ ?_)
    rw [List.append_assoc]
    refine List.perm_append_comm.trans ?_
    rw [List.append_assoc]
    refine List.perm_append_comm.trans ?_
    rw [List.append_assoc]

theorem ReprCtx.frame {C : Ctx Item} {hole : Ptr} (h : ReprCtx m C hole)
    (hm : ∀ a ∈ ctxAddrs C, m'.get a = m.get a) : ReprCtx m' C hole := by
  induction C generalizing hole with
  | nil => trivial
  | cons f C ih =>
    obtain ⟨hf, hk, hg, hs, hC⟩ := h
    refine ⟨hf, hk, ?_, hs.frame fun a ha => hm a ?_, ih hC fun a ha => hm a ?_⟩
    · rw [hm _ (by simp [ctxAddrs]), hg]
    · simp [ctxAddrs, ha]
    · simp [ctxAddrs, ha]

theorem ReprCtx.sentinel_notMem {C : Ctx Item} {hole : Ptr} (h : ReprCtx m C hole) :
    sentinel ∉ ctxAddrs C := by
  induction C generalizing hole with
  | nil => simp [ctxAddrs]
  | cons f C ih =>
    obtain ⟨hf, -, -, hs, hC⟩ := h
    simp [ctxAddrs, ih hC, hs.sentinel_notMem, Ne.symm hf]

/-- The tree `t` in the memory `m` holds `s` at the position `C`. -/
structure Focus (m : Mem) (t : AndTree) (C : Ctx Item) (s : AATree Item) : Prop where
  ctx : ReprCtx m C (root s)
  sub : Repr m (above C) s
  nodup : (ctxAddrs C ++ addrs s).Nodup
  sent : SentinelOk m
  root_eq : t.root = root (C.plug s)

namespace Focus

variable {t : AndTree} {C : Ctx Item} {s : AATree Item}

theorem nodup_plug (h : Focus m t C s) : (addrs (C.plug s)).Nodup :=
  (addrs_plug_perm C s).nodup_iff.2 h.nodup

/-- The focus on a node and the focus on one of its subtrees. -/
theorem cons_iff {f : Frame Item} : Focus m t (f :: C) s ↔ Focus m t C (f.plug s) := by
  have hperm := (addrs_plug_perm C (f.plug s)).symm.trans (addrs_plug_perm (f :: C) s)
  constructor
  · rintro ⟨⟨hf, hk, hg, hs, hC⟩, hsub, hnd, hsent, hroot⟩
    refine ⟨by rwa [root_plug], ?_, hperm.nodup_iff.2 hnd, hsent, hroot⟩
    rw [plug_eq_nodeOn, repr_nodeOn]
    exact ⟨hf, hk, hg, hsub, hs⟩
  · rintro ⟨hC, hsub, hnd, hsent, hroot⟩
    rw [root_plug] at hC
    rw [plug_eq_nodeOn, repr_nodeOn] at hsub
    obtain ⟨hf, hk, hg, hsub, hs⟩ := hsub
    exact ⟨⟨hf, hk, hg, hs, hC⟩, hsub, hperm.nodup_iff.1 hnd, hsent, hroot⟩

theorem up (f : Frame Item) (h : Focus m t (f :: C) s) : Focus m t C (f.plug s) := cons_iff.1 h

theorem down (f : Frame Item) (h : Focus m t C (f.plug s)) : Focus m t (f :: C) s := cons_iff.2 h

theorem down_left {b : Item} {k : ℕ} {l r : AATree Item} (h : Focus m t C (.node b k l r)) :
    Focus m t (⟨.left, b, k, r⟩ :: C) l := h.down ⟨.left, b, k, r⟩

theorem down_right {b : Item} {k : ℕ} {l r : AATree Item} (h : Focus m t C (.node b k l r)) :
    Focus m t (⟨.right, b, k, l⟩ :: C) r := h.down ⟨.right, b, k, l⟩

theorem to_root (h : Focus m t C s) : Focus m t [] (C.plug s) := by
  induction C generalizing s with
  | nil => exact h
  | cons f C ih => exact ih (h.up f)

theorem of_root (h : Focus m t [] (C.plug s)) : Focus m t C s := by
  induction C generalizing s with
  | nil => exact h
  | cons f C ih => exact (ih h).down f

end Focus

end C4OS.Andtree
