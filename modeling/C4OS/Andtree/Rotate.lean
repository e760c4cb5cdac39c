import C4OS.Andtree.Repr
import Mathlib.Data.Set.Basic

/-!
# Rotations in memory

`rotate_moves`: the pointer assignments of `rotate` turn the node at the focus and its child on one
side around, whatever the position, and leave every node outside the tree alone. `andtree_skew`
and `andtree_split` then carry out the functions `AATree.skew` and `AATree.split`
(`andtreeSkew_moves`, `andtreeSplit_moves`), by induction on the subtree the recursion of the code
goes into. The only record outside the tree that changes is the sentinel's, which keeps its level
and its leaves.
-/

namespace C4OS.Andtree

open Foundations

/-- The records a change of the tree `s` may touch. -/
def footprint (s : AATree Item) : Set Ptr := {p | p = sentinel ∨ p ∈ addrs s}

theorem mem_footprint {s : AATree Item} {p : Ptr} : p ∈ footprint s ↔ p = sentinel ∨ p ∈ addrs s :=
  Iff.rfl

/-- A change of the tree `t` at the position `C`, from `s` to `s'`, that keeps to the records of
the tree. -/
structure Moves (m : Mem) (t : AndTree) (C : Ctx Item) (s : AATree Item) (m' : Mem) (t' : AndTree)
    (s' : AATree Item) : Prop where
  focus : Focus m' t' C s'
  nodes : t'.nodes = t.nodes
  agree : Store.AgreeOff (footprint (C.plug s)) m m'

theorem footprint_congr {s s' : AATree Item} (h : addrs s = addrs s') :
    footprint s = footprint s' := by
  unfold footprint
  rw [h]

theorem addrs_plug_congr (C : Ctx Item) {s s' : AATree Item} (h : addrs s = addrs s') :
    addrs (C.plug s) = addrs (C.plug s') := by
  unfold addrs at h ⊢
  rw [Ctx.toList_plug, Ctx.toList_plug, List.map_append, List.map_append, List.map_append,
    List.map_append, h]

namespace Moves

variable {m m' m'' : Mem} {t t' t'' : AndTree} {C : Ctx Item} {s s' s'' : AATree Item}

theorem refl (h : Focus m t C s) : Moves m t C s m t s := ⟨h, rfl, Store.AgreeOff.refl _ _⟩

theorem trans (h : Moves m t C s m' t' s') (h' : Moves m' t' C s' m'' t'' s'')
    (e : addrs s' = addrs s) : Moves m t C s m'' t'' s'' := by
  refine ⟨h'.focus, h'.nodes.trans h.nodes, h.agree.trans ?_⟩
  rw [footprint_congr (addrs_plug_congr C e).symm]
  exact h'.agree

/-- A change of a subtree is a change of the tree around it. -/
theorem up {f : Frame Item} (h : Moves m t (f :: C) s m' t' s') :
    Moves m t C (f.plug s) m' t' (f.plug s') := ⟨h.focus.up f, h.nodes, h.agree⟩

theorem to_root (h : Moves m t C s m' t' s') : Moves m t [] (C.plug s) m' t' (C.plug s') :=
  ⟨h.focus.to_root, h.nodes, h.agree⟩

end Moves

theorem addrs_skew (s : AATree Item) : addrs s.skew = addrs s := by
  rw [addrs, AATree.toList_skew, addrs]

theorem addrs_split (s : AATree Item) : addrs s.split = addrs s := by
  rw [addrs, AATree.toList_split, addrs]

/-! ## One rotation -/

section Rotate

variable {e : Side} {a c : Item} {k j : ℕ} {x y z : AATree Item}

theorem addrs_rotated : addrs (nodeOn e c j x (nodeOn e a k y z)) =
    addrs (nodeOn e a k (nodeOn e c j x y) z) := by
  cases e <;> simp [nodeOn]

theorem addrs_unrotated_perm : (addrs (nodeOn e a k (nodeOn e c j x y) z)).Perm
    (a.addr :: c.addr :: (addrs x ++ addrs y ++ addrs z)) := by
  refine (addrs_nodeOn_perm ..).trans ?_
  rw [List.cons_append]
  refine List.Perm.cons _ ((List.Perm.append_right _ (addrs_nodeOn_perm ..)).trans ?_)
  rw [List.cons_append, List.cons_append]

/-- The disjointness facts of a node, its child on one side and their subtrees, in a tree. -/
theorem Focus.rotate_disjoint {m : Mem} {t : AndTree} {C : Ctx Item}
    (h : Focus m t C (nodeOn e a k (nodeOn e c j x y) z)) :
    a.addr ≠ c.addr ∧
      (a.addr ∉ addrs x ∧ a.addr ∉ addrs y ∧ a.addr ∉ addrs z ∧ a.addr ∉ ctxAddrs C) ∧
      (c.addr ∉ addrs x ∧ c.addr ∉ addrs y ∧ c.addr ∉ addrs z ∧ c.addr ∉ ctxAddrs C) ∧
      (∀ p ∈ addrs y, p ∉ addrs x ∧ p ∉ addrs z ∧ p ∉ ctxAddrs C) ∧
      (∀ p ∈ ctxAddrs C, p ∉ addrs x ∧ p ∉ addrs z) ∧
      (addrs y).Nodup ∧ (ctxAddrs C).Nodup := by
  have hnd := ((List.Perm.append_left (ctxAddrs C) addrs_unrotated_perm).nodup_iff).1 h.nodup
  simp only [List.nodup_append, List.nodup_cons, List.mem_cons, List.mem_append] at hnd
  obtain ⟨hC, ⟨ha, hc, ⟨⟨hx, hy, hxy⟩, hz, hxyz⟩⟩, hdisj⟩ := hnd
  have hCx : ∀ p ∈ ctxAddrs C, p ∉ addrs x := fun p hp hx => hdisj p hp p (by simp [hx]) rfl
  have hCy : ∀ p ∈ ctxAddrs C, p ∉ addrs y := fun p hp hy => hdisj p hp p (by simp [hy]) rfl
  have hCz : ∀ p ∈ ctxAddrs C, p ∉ addrs z := fun p hp hz => hdisj p hp p (by simp [hz]) rfl
  refine ⟨by tauto, ⟨by tauto, by tauto, by tauto, fun ha' => hdisj _ ha' _ (.inl rfl) rfl⟩,
    ⟨by tauto, by tauto, by tauto, fun hc' => hdisj _ hc' _ (.inr (.inl rfl)) rfl⟩,
    fun p hp => ⟨fun hpx => hxy p hpx p hp rfl, fun hpz => hxyz p (.inr hp) p hpz rfl,
      fun hpC => hCy p hpC hp⟩, fun p hp => ⟨hCx p hp, hCz p hp⟩, hy, hC⟩

/-- The memory after a rotation, from the records it changed: the two nodes, the subtree between
them and the node above. -/
theorem Focus.rotated {m m' : Mem} {t t' : AndTree} {C : Ctx Item}
    (h : Focus m t C (nodeOn e a k (nodeOn e c j x y) z))
    (ha : m'.get a.addr = some (cell e c.addr (root y) (root z) k a.data))
    (hc : m'.get c.addr = some (cell e (above C) (root x) a.addr j c.data))
    (hy : m'.get (root y) = (m.get (root y)).map (·.setParent a.addr))
    (hup : ∀ f D, C = f :: D → m'.get f.item.addr =
      some (cell f.side (above D) c.addr (root f.sibling) f.level f.item.data))
    (hrest : ∀ p, p ≠ a.addr → p ≠ c.addr → p ≠ root y → (C ≠ [] → p ≠ above C) →
      m'.get p = m.get p)
    (hroot : t'.root = root (C.plug (nodeOn e c j x (nodeOn e a k y z)))) :
    Focus m' t' C (nodeOn e c j x (nodeOn e a k y z)) := by
  obtain ⟨hac, ⟨hax, hay, haz, haC⟩, ⟨hcx, hcy, hcz, hcC⟩, hyd, hCd, hynd, hCnd⟩ :=
    h.rotate_disjoint
  obtain ⟨has, hk, hga, hsub, hz⟩ := repr_nodeOn.1 h.sub
  obtain ⟨hcs, hj, hgc, hx, hy'⟩ := repr_nodeOn.1 hsub
  have hCs := h.ctx.sentinel_notMem
  -- an address of the tree other than the changed ones
  have hkeep : ∀ p, p ≠ sentinel → p ∉ addrs y → p ≠ a.addr → p ≠ c.addr → (C ≠ [] → p ≠ above C) →
      m'.get p = m.get p := fun p hps hpy hpa hpc hpu =>
    hrest p hpa hpc (Ne.symm (Repr.root_ne hpy hps)) hpu
  have hupC : C ≠ [] → above C ∈ ctxAddrs C := fun hne => by
    cases C with
    | nil => exact absurd rfl hne
    | cons f D => simp [above, ctxAddrs]
  have hside : ∀ {w : AATree Item} {q : Ptr}, Repr m q w → a.addr ∉ addrs w → c.addr ∉ addrs w →
      (∀ p ∈ addrs w, p ∉ addrs y) → (∀ p ∈ ctxAddrs C, p ∉ addrs w) → Repr m' q w :=
    fun hw haw hcw hyw hCw => hw.frame fun p hp =>
      hkeep p (fun e => hw.sentinel_notMem (e ▸ hp)) (hyw p hp) (fun e => haw (e ▸ hp))
        (fun e => hcw (e ▸ hp)) fun hne e => hCw _ (hupC hne) (e ▸ hp)
  refine ⟨?_, ?_, ?_, ?_, hroot⟩
  · cases C with
    | nil => trivial
    | cons f D =>
      obtain ⟨hfs, hfk, hgf, hfsib, hD⟩ := h.ctx
      simp only [ctxAddrs, List.cons_append, List.nodup_cons, List.mem_append, List.nodup_append,
        List.mem_cons, not_or] at hCnd hCs haC hcC hCd hyd
      refine ⟨hfs, hfk, ?_, hfsib.frame fun p hp => ?_, hD.frame fun p hp => ?_⟩
      · rw [root_nodeOn]
        exact hup f D rfl
      · refine hkeep p (fun e => hCs.2.1 (e ▸ hp)) (fun hpy => (hyd p hpy).2.2.2.1 hp)
          (fun e => haC.2.1 (e ▸ hp)) (fun e => hcC.2.1 (e ▸ hp)) fun _ e => ?_
        simp only [above] at e
        exact hCnd.1.1 (e ▸ hp)
      · refine hkeep p (fun e => hCs.2.2 (e ▸ hp)) (fun hpy => (hyd p hpy).2.2.2.2 hp)
          (fun e => haC.2.2 (e ▸ hp)) (fun e => hcC.2.2 (e ▸ hp)) fun _ e => ?_
        simp only [above] at e
        exact hCnd.1.2 (e ▸ hp)
  · refine repr_nodeOn.2 ⟨hcs, hj, by rwa [root_nodeOn], ?_, repr_nodeOn.2 ⟨has, hk, ha, ?_, ?_⟩⟩
    · exact hside hx hax hcx (fun p hp hpy => (hyd p hpy).1 hp) fun p hp => (hCd p hp).1
    · refine hy'.reparent hynd hy fun p hp hpr => hrest p (fun e => hay (e ▸ hp))
        (fun e => hcy (e ▸ hp)) hpr fun hne e => (hyd p hp).2.2 (e ▸ hupC hne)
    · exact hside hz haz hcz (fun p hp hpy => (hyd p hpy).2.1 hp) fun p hp => (hCd p hp).2
  · rw [addrs_rotated]
    exact h.nodup
  · -- the sentinel: it is changed only as the root of an empty `y`
    obtain ⟨p, d, hg⟩ := h.sent
    by_cases hys : root y = sentinel
    · rw [hys] at hy
      exact ⟨a.addr, d, by rw [hy, hg]; rfl⟩
    · refine ⟨p, d, ?_⟩
      rw [hrest sentinel (Ne.symm has) (Ne.symm hcs) (Ne.symm hys)
        (fun hne e => hCs (e ▸ hupC hne)), hg]

/-- The node above a position holds `hole` as a leaf. -/
def LinkedAt (m : Mem) (C : Ctx Item) (hole : Ptr) : Prop :=
  ∀ f D, C = f :: D →
    m.get f.item.addr = some (cell f.side (above D) hole (root f.sibling) f.level f.item.data)

/-- The address above a position is not one that occurs at it. -/
theorem above_mem {C : Ctx Item} (h : C ≠ []) : above C ∈ ctxAddrs C := by
  cases C with
  | nil => exact absurd rfl h
  | cons f D => simp [above, ctxAddrs]

/-- The side of its parent a node is on. -/
theorem parentside_eq {m : Mem} {C : Ctx Item} {node : Ptr} {n : AndNode} {f : Frame Item}
    {D : Ctx Item} (hC : C = f :: D) (hn : m.get node = some n) (hpar : n.parent = above C)
    (hlink : LinkedAt m C node) (hnC : node ∉ ctxAddrs C) (hns : node ≠ sentinel) :
    parentside m node = some f.side := by
  subst hC
  have hf := hlink f D rfl
  have ho : root f.sibling ≠ node :=
    Repr.root_ne (fun hm => hnC (by simp [ctxAddrs, hm])) hns
  have hleft : (cell f.side (above D) node (root f.sibling) f.level f.item.data).left = node ↔
      f.side = .left := by
    cases f.side <;> simp [cell, ho]
  simp only [above] at hpar
  simp only [parentside, Store.ne_zero_of_get hn, if_false, hn, hpar, Store.ne_zero_of_get hf, hf,
    Option.bind_eq_bind, Option.bind_some, Option.pure_def, Option.some.injEq, hleft]
  cases f.side <;> rfl

/-- `replace_in_parent`: the node above the position gets a new leaf, and the new leaf, if it is a
node, its parent. -/
theorem replaceInParent_eq {m : Mem} {C : Ctx Item} {node value : Ptr} {n v : AndNode}
    (hn : m.get node = some n) (hpar : n.parent = above C) (hlink : LinkedAt m C node)
    (hnC : node ∉ ctxAddrs C) (hns : node ≠ sentinel) (hv : m.get value = some v)
    (hvC : value ∉ ctxAddrs C) :
    ∃ m', replaceInParent m node value = some m' ∧ LinkedAt m' C value ∧
      m'.get value = some (if v.level = 0 then v else v.setParent (above C)) ∧
      ∀ p, p ≠ value → (C ≠ [] → p ≠ above C) → m'.get p = m.get p := by
  have hv0 := Store.ne_zero_of_get hv
  -- the first assignment
  obtain ⟨m₁, hm₁, hlink₁, hrest₁⟩ : ∃ m₁, setInParent m node value = some m₁ ∧
      LinkedAt m₁ C value ∧ ∀ p, (C ≠ [] → p ≠ above C) → m₁.get p = m.get p := by
    cases C with
    | nil =>
      exact ⟨m, by simp [setInParent, hn, hpar, above], fun f D h => (by cases h), fun _ _ => rfl⟩
    | cons f D =>
      have hf := hlink f D rfl
      have hf0 := Store.ne_zero_of_get hf
      have hside := parentside_eq rfl hn hpar hlink hnC hns
      simp only [above] at hpar
      refine ⟨m.set f.item.addr
        (cell f.side (above D) value (root f.sibling) f.level f.item.data), ?_, ?_,
        fun p hp => Store.get_set_of_ne _ (hp (by simp)) _⟩
      · simp [setInParent, hn, hpar, hf0, hside, Store.modify_eq hf]
      · intro f' D' he
        cases he
        exact Store.get_set_self _ hf0 _
  have hne : ∀ p, p ∉ ctxAddrs C → C ≠ [] → p ≠ above C :=
    fun p hp hC e => hp (e ▸ above_mem hC)
  have hv₁ : m₁.get value = some v := by rw [hrest₁ _ (hne _ hvC), hv]
  have hn₁ : m₁.get node = some n := by rw [hrest₁ _ (hne _ hnC), hn]
  by_cases hlv : v.level = 0
  · refine ⟨m₁, ?_, hlink₁, by rw [hv₁, if_pos hlv], fun p _ hp => hrest₁ p hp⟩
    have hnil : isNil m₁ value = some true := by simp [isNil, hv0, hv₁, hlv]
    simp [replaceInParent, hm₁, hnil]
  · refine ⟨m₁.set value (v.setParent (above C)), ?_, fun f D hC => ?_,
      by rw [Store.get_set_self _ hv0, if_neg hlv], fun p hpv hp => ?_⟩
    · have hnil : isNil m₁ value = some false := by simp [isNil, hv0, hv₁, hlv]
      simp [replaceInParent, hm₁, hnil, hn₁, hpar, Store.modify_eq hv₁]
    · rw [Store.get_set_of_ne _ ?_]
      · exact hlink₁ f D hC
      · rintro rfl
        exact hvC (by simp [hC, ctxAddrs])
    · rw [Store.get_set_of_ne _ hpv, hrest₁ p hp]

theorem Focus.linked {m : Mem} {t : AndTree} {C : Ctx Item} {s : AATree Item} (h : Focus m t C s) :
    LinkedAt m C (root s) := by
  rintro f D rfl
  exact h.ctx.2.2.1

/-- The root of a tree is above every position other than the root. -/
theorem root_plug_mem (f : Frame Item) (D : Ctx Item) (s s' : AATree Item) :
    root (Ctx.plug (f :: D) s) = root (Ctx.plug (f :: D) s') ∧
      root (Ctx.plug (f :: D) s) ∈ ctxAddrs (f :: D) := by
  induction D generalizing f s s' with
  | nil => simp [Ctx.plug, ctxAddrs]
  | cons g D ih =>
    obtain ⟨h1, h2⟩ := ih g (f.plug s) (f.plug s')
    refine ⟨h1, ?_⟩
    rw [ctxAddrs, List.cons_append, List.mem_cons, List.mem_append]
    exact .inr (.inr h2)

/-- Replacing the root pointer of the tree when the node at the position is the root. -/
theorem Focus.root_replace {m : Mem} {t : AndTree} {C : Ctx Item} {b : Item} {k : ℕ}
    {l r : AATree Item} (h : Focus m t C (.node b k l r)) (s' : AATree Item) :
    (if b.addr = t.root then { t with root := root s' } else t).root = root (C.plug s') := by
  cases C with
  | nil =>
    have : t.root = b.addr := h.root_eq
    rw [if_pos this.symm]
    rfl
  | cons f D =>
    obtain ⟨heq, hmem⟩ := root_plug_mem f D (.node b k l r) s'
    have hnd := h.nodup
    rw [List.nodup_append] at hnd
    have hne : b.addr ≠ t.root := by
      rw [h.root_eq]
      exact fun e => hnd.2.2 _ hmem b.addr (by simp) e.symm
    rw [if_neg hne, h.root_eq, heq]

theorem nodeOn_eq_node (e : Side) (b : Item) (k : ℕ) (x y : AATree Item) :
    ∃ l r, nodeOn e b k x y = .node b k l r := by
  cases e <;> exact ⟨_, _, rfl⟩

/-- **A rotation in memory.** -/
theorem rotate_moves {m : Mem} {t : AndTree} {C : Ctx Item}
    (h : Focus m t C (nodeOn e a k (nodeOn e c j x y) z)) :
    ∃ m' t', rotate m t a.addr e.flip = some (m', t', c.addr) ∧
      Moves m t C (nodeOn e a k (nodeOn e c j x y) z) m' t'
        (nodeOn e c j x (nodeOn e a k y z)) := by
  obtain ⟨hac, ⟨hax, hay, haz, haC⟩, ⟨hcx, hcy, hcz, hcC⟩, hyd, hCd, hynd, hCnd⟩ :=
    h.rotate_disjoint
  obtain ⟨has, hk, hga, hsub, hz⟩ := repr_nodeOn.1 h.sub
  obtain ⟨hcs, hj, hgc, hx, hy⟩ := repr_nodeOn.1 hsub
  rw [root_nodeOn] at hga
  obtain ⟨yn, hgy, -, -⟩ := hy.get_root h.sent
  have ha0 := Store.ne_zero_of_get hga
  have hc0 := Store.ne_zero_of_get hgc
  have hy0 := Store.ne_zero_of_get hgy
  have hya : root y ≠ a.addr := Repr.root_ne hay has
  have hyc : root y ≠ c.addr := Repr.root_ne hcy hcs
  have hup : ∀ p, p ∉ ctxAddrs C → C ≠ [] → p ≠ above C :=
    fun p hp hC e => hp (e ▸ above_mem hC)
  have hyC : root y ∉ ctxAddrs C := by
    cases y with
    | nil => exact h.ctx.sentinel_notMem
    | node b i u v => exact (hyd b.addr (by simp)).2.2
  -- the records of the two nodes and of the subtree between them
  let m₁ := m.set a.addr (cell e (above C) (root y) (root z) k a.data)
  let m₂ := m₁.set c.addr (cell e a.addr (root x) a.addr j c.data)
  let m₃ := m₂.set (root y) (yn.setParent a.addr)
  have hg₁c : m₁.get c.addr = some (cell e a.addr (root x) (root y) j c.data) := by
    rw [Store.get_set_of_ne _ hac.symm, hgc]
  have hg₂a : m₂.get a.addr = some (cell e (above C) (root y) (root z) k a.data) := by
    rw [Store.get_set_of_ne _ hac, Store.get_set_self _ ha0]
  have hg₂y : m₂.get (root y) = some yn := by
    rw [Store.get_set_of_ne _ hyc, Store.get_set_of_ne _ hya, hgy]
  have hg₃a : m₃.get a.addr = some (cell e (above C) (root y) (root z) k a.data) := by
    rw [Store.get_set_of_ne _ hya.symm, hg₂a]
  have hg₃c : m₃.get c.addr = some (cell e a.addr (root x) a.addr j c.data) := by
    rw [Store.get_set_of_ne _ hyc.symm, Store.get_set_self _ hc0]
  have hg₃ : ∀ p, p ≠ a.addr → p ≠ c.addr → p ≠ root y → m₃.get p = m.get p := by
    intro p hpa hpc hpy
    rw [Store.get_set_of_ne _ hpy, Store.get_set_of_ne _ hpc, Store.get_set_of_ne _ hpa]
  have hlink₃ : LinkedAt m₃ C a.addr := by
    intro f D hC
    have hf := h.linked f D hC
    have hmem : f.item.addr ∈ ctxAddrs C := by simp [hC, ctxAddrs]
    rw [root_nodeOn] at hf
    rw [hg₃ _ (fun e => haC (e ▸ hmem)) (fun e => hcC (e ▸ hmem)) (fun e => hyC (e ▸ hmem)), hf]
  -- the node above
  obtain ⟨m₄, hm₄, hlink₄, hg₄c, hg₄⟩ :=
    replaceInParent_eq hg₃a (cell_parent ..) hlink₃ haC has hg₃c hcC
  rw [cell_level, if_neg hj.ne', cell_setParent] at hg₄c
  have hg₄a : m₄.get a.addr = some (cell e (above C) (root y) (root z) k a.data) := by
    rw [hg₄ _ hac (hup _ haC), hg₃a]
  have hrest : ∀ p, p ≠ a.addr → p ≠ c.addr → p ≠ root y → (C ≠ [] → p ≠ above C) →
      (m₄.set a.addr (cell e c.addr (root y) (root z) k a.data)).get p = m.get p := by
    intro p hpa hpc hpy hpC
    rw [Store.get_set_of_ne _ hpa, hg₄ p hpc hpC, hg₃ p hpa hpc hpy]
  refine ⟨m₄.set a.addr (cell e c.addr (root y) (root z) k a.data),
    if a.addr = t.root then { t with root := c.addr } else t, ?_, ?_, ?_, ?_⟩
  · simp only [rotate, hga, hgc, Side.flip_flip, cell_leaf, cell_leaf_flip, cell_setLeaf,
      Store.modify_eq hga, Store.modify_eq hg₁c, cell_setLeaf_flip, m₁, m₂, m₃, hg₂a, hy0,
      Store.modify_eq hg₂y, Option.bind_eq_bind, Option.bind_some, ne_eq, not_false_eq_true,
      if_true, Option.pure_def, hm₄, Store.modify_eq hg₄a, cell_setParent]
  · refine h.rotated (Store.get_set_self _ ha0 _) ?_ ?_ ?_ hrest ?_
    · rw [Store.get_set_of_ne _ hac.symm, hg₄c]
    · rw [Store.get_set_of_ne _ hya, hg₄ _ hyc (hup _ hyC), Store.get_set_self _ hy0, hgy,
        Option.map_some]
    · intro f D hC
      rw [Store.get_set_of_ne _ fun e => haC (by simp [hC, ctxAddrs, e])]
      exact hlink₄ f D hC
    · obtain ⟨l, r, hnode⟩ := nodeOn_eq_node e a k (nodeOn e c j x y) z
      rw [hnode] at h
      have := h.root_replace (nodeOn e c j x (nodeOn e a k y z))
      rwa [root_nodeOn] at this
  · split <;> rfl
  · intro p hp
    simp only [mem_footprint, (addrs_plug_perm C _).mem_iff, List.mem_append,
      addrs_unrotated_perm.mem_iff, List.mem_cons, not_or] at hp
    obtain ⟨hps, hpC, hpa, hpc, hpx⟩ := hp
    exact hrest p hpa hpc (Ne.symm (Repr.root_ne hpx.1.2 hps)) (hup p hpC)

end Rotate

/-! ## Skew and split -/

/-- `andtree_skew` carries out `AATree.skew`. -/
theorem andtreeSkew_node {m : Mem} {t : AndTree} {C : Ctx Item} {b : Item} {k fuel : ℕ}
    {l r : AATree Item} (h : Focus m t C (.node b k l r)) (hfuel : (addrs l).length < fuel) :
    ∃ m' t', andtreeSkew fuel m t b.addr = some (m', t', root (AATree.skewLeft b k r l)) ∧
      Moves m t C (.node b k l r) m' t' (AATree.skewLeft b k r l) := by
  induction l generalizing m t C fuel with
  | nil =>
    obtain ⟨fuel, rfl⟩ : ∃ n, fuel = n + 1 := ⟨fuel - 1, by simp at hfuel; omega⟩
    obtain ⟨-, hk, hg, -⟩ := h.sub
    obtain ⟨p, d, hs⟩ := h.sent
    refine ⟨m, t, ?_, .refl h⟩
    simp [andtreeSkew, h.sub.isNil_node, hg, hs, AATree.skewLeft, hk.ne]
  | node c j x y _ ih =>
    obtain ⟨fuel, rfl⟩ : ∃ n, fuel = n + 1 := ⟨fuel - 1, by simp at hfuel; omega⟩
    obtain ⟨-, hk, hg, hl, -⟩ := h.sub
    have hgc := hl.2.2.1
    by_cases hjk : j = k
    · -- rotate and skew the node in its new place
      obtain ⟨m₁, t₁, hrot, hm₁⟩ := rotate_moves (e := .left) h
      have hfoc : Focus m₁ t₁ (⟨.right, c, j, x⟩ :: C) (.node b k y r) := hm₁.focus.down_right
      have hlt : (addrs y).length < fuel := by simp at hfuel; omega
      obtain ⟨m₂, t₂, hskew, hm₂⟩ := ih hfoc hlt
      have hgc₁ := hm₁.focus.sub.2.2.1
      refine ⟨m₂, t₂, ?_, ?_⟩
      · rw [andtreeSkew]
        simp only [h.sub.isNil_node, hg, hgc, root_node, hjk, if_true, Option.bind_eq_bind,
          Option.bind_some, Bool.false_eq_true, if_false]
        simp only [Side.flip] at hrot
        rw [hrot, Option.bind_some]
        dsimp only
        rw [hgc₁, Option.bind_some]
        dsimp only
        rw [root_nodeOn, hskew, Option.bind_some]
        simp [AATree.skewLeft]
      · have hup := hm₂.up
        simp only [AATree.skewLeft, hjk, if_true]
        subst hjk
        refine hm₁.trans hup ?_
        exact addrs_rotated
    · refine ⟨m, t, ?_, ?_⟩
      · simp [andtreeSkew, h.sub.isNil_node, hg, hgc, hjk, AATree.skewLeft]
      · simp only [AATree.skewLeft, hjk, if_false]
        exact .refl h

theorem andtreeSkew_moves {m : Mem} {t : AndTree} {C : Ctx Item} {s : AATree Item} {fuel : ℕ}
    (h : Focus m t C s) (hfuel : (addrs s).length < fuel) :
    ∃ m' t', andtreeSkew fuel m t (root s) = some (m', t', root s.skew) ∧
      Moves m t C s m' t' s.skew := by
  cases s with
  | nil =>
    obtain ⟨fuel, rfl⟩ : ∃ n, fuel = n + 1 := ⟨fuel - 1, by simp at hfuel; omega⟩
    exact ⟨m, t, by simp [andtreeSkew, isNil_sentinel h.sent, AATree.skew], .refl h⟩
  | node b k l r => exact andtreeSkew_node h (by simp at hfuel; omega)

/-- Writing the level and the data of the root of a subtree. -/
theorem Focus.setNode {m : Mem} {t : AndTree} {C : Ctx Item} {b : Item} {k : ℕ} {l r : AATree Item}
    (h : Focus m t C (.node b k l r)) (k' : ℕ) (hk' : 0 < k') (d : Ptr) :
    Moves m t C (.node b k l r) (m.set b.addr ⟨above C, root l, root r, k', d⟩) t
      (.node ⟨b.addr, d⟩ k' l r) := by
  obtain ⟨hbs, hk, hg, hl, hr⟩ := h.sub
  have hb0 := Store.ne_zero_of_get hg
  have hnd := h.nodup
  simp only [addrs_node, List.nodup_append, List.nodup_cons, List.mem_append, List.mem_cons] at hnd
  obtain ⟨-, ⟨-, ⟨hbr, -⟩, hlr⟩, hC⟩ := hnd
  have hne : ∀ p, p ≠ b.addr → (m.set b.addr ⟨above C, root l, root r, k', d⟩).get p =
      m.get p := fun p hp => Store.get_set_of_ne _ hp _
  refine ⟨⟨?_, ⟨hbs, hk', Store.get_set_self _ hb0 _, ?_, ?_⟩, ?_, ?_, ?_⟩, rfl, ?_⟩
  · exact h.ctx.frame fun p hp => hne p fun e => hC p hp b.addr (.inr (.inl rfl)) e
  · exact hl.frame fun p hp => hne p fun e => hlr p hp b.addr (.inl rfl) e
  · exact hr.frame fun p hp => hne p fun e => hbr (e ▸ hp)
  · have := h.nodup
    rwa [addrs_node] at this ⊢
  · obtain ⟨p, e, hs⟩ := h.sent
    exact ⟨p, e, by rw [hne _ (Ne.symm hbs), hs]⟩
  · rw [h.root_eq]
    cases C with
    | nil => rfl
    | cons f D => exact (root_plug_mem f D _ _).1
  · intro p hp
    refine hne p fun e => hp (mem_footprint.2 (.inr ?_))
    rw [(addrs_plug_perm C _).mem_iff]
    simp [e]

/-- `andtree_split` carries out `AATree.split`. -/
theorem andtreeSplit_moves {m : Mem} {t : AndTree} {C : Ctx Item} {s : AATree Item} {fuel : ℕ}
    (h : Focus m t C s) (hfuel : (addrs s).length < fuel) :
    ∃ m' t', andtreeSplit fuel m t (root s) = some (m', t', root s.split) ∧
      Moves m t C s m' t' s.split := by
  fun_induction AATree.split s generalizing m t C fuel with
  | case1 b x c j y z ih =>
    obtain ⟨fuel, rfl⟩ : ∃ n, fuel = n + 1 := ⟨fuel - 1, by simp at hfuel; omega⟩
    obtain ⟨-, hk, hg, hx, hr⟩ := h.sub
    obtain ⟨-, hj, hgc, hy, hz⟩ := hr
    obtain ⟨zn, hgz, hzl, -⟩ := hz.get_root h.sent
    obtain ⟨m₁, t₁, hrot, hm₁⟩ := rotate_moves (e := .right) h
    have hgc₁ := hm₁.focus.sub.2.2.1
    have hm₂ := hm₁.focus.setNode (j + 1) (by omega) c.data
    have hgc₂ := hm₂.focus.sub.2.2.1
    have hfoc := hm₂.focus.down_right
    have hlt : (addrs z).length < fuel := by simp at hfuel; omega
    obtain ⟨m₃, t₃, hsplit, hm₃⟩ := ih hfoc hlt
    refine ⟨m₃, t₃, ?_, ?_⟩
    · rw [andtreeSplit]
      simp only [root_node, h.sub.isNil_node, hg, hgc, hgz, hzl, if_true, Option.bind_eq_bind,
        Option.bind_some, Bool.false_eq_true, if_false]
      simp only [Side.flip] at hrot
      rw [hrot, Option.bind_some]
      dsimp only
      rw [Store.modify_eq hgc₁, Option.bind_some, hgc₂, Option.bind_some]
      dsimp only
      rw [hsplit, Option.bind_some]
      rfl
    · refine (hm₁.trans hm₂ addrs_rotated).trans hm₃.up ?_
      simp [nodeOn]
  | case2 b k x c j y z hne =>
    obtain ⟨fuel, rfl⟩ : ∃ n, fuel = n + 1 := ⟨fuel - 1, by simp at hfuel; omega⟩
    obtain ⟨-, hk, hg, hx, hr⟩ := h.sub
    obtain ⟨-, hj, hgc, hy, hz⟩ := hr
    obtain ⟨zn, hgz, hzl, -⟩ := hz.get_root h.sent
    refine ⟨m, t, ?_, .refl h⟩
    simp [andtreeSplit, h.sub.isNil_node, hg, hgc, hgz, hzl, hne]
  | case3 s hs =>
    obtain ⟨fuel, rfl⟩ : ∃ n, fuel = n + 1 := ⟨fuel - 1, by omega⟩
    refine ⟨m, t, ?_, .refl h⟩
    cases s with
    | nil => simp [andtreeSplit, isNil_sentinel h.sent]
    | node b k l r =>
      cases r with
      | nil =>
        obtain ⟨-, hk, hg, -⟩ := h.sub
        obtain ⟨p, d, hs⟩ := h.sent
        simp [andtreeSplit, h.sub.isNil_node, hg, hs, hk.ne']
      | node c j y z => exact absurd rfl (hs b k l c j y z)

end C4OS.Andtree
