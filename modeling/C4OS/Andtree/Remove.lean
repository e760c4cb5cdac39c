import C4OS.Andtree.Insert

/-!
# Removal

`andtree_remove_repair` removes a leaf of the tree: the node itself or, after copying its data, the
last node before it or the first node after it. In a balanced tree these are leaves indeed
(`exists_last`), so nothing has to be put in their place. The loop that follows lowers the nodes on
the way up to the root (`removeRepairLoop_moves`). `andtreeRemove_eq` puts the two together: the
tree is balanced again and its data are as before, without those of the node.
-/

namespace C4OS.Andtree

open Foundations

/-! ## Positions below a position -/

theorem plug_append (D C : Ctx Item) (s : AATree Item) :
    Ctx.plug (D ++ C) s = C.plug (D.plug s) := by
  induction D generalizing s with
  | nil => rfl
  | cons f D ih => exact ih (f.plug s)

theorem Focus.append_iff {m : Mem} {t : AndTree} {D C : Ctx Item} {s : AATree Item} :
    Focus m t (D ++ C) s ↔ Focus m t C (D.plug s) := by
  induction D generalizing s with
  | nil => rfl
  | cons f D ih => exact Focus.cons_iff.trans ih

theorem ctx_plug_ne_nil (D : Ctx Item) {s : AATree Item} (hs : s ≠ .nil) : D.plug s ≠ .nil := by
  induction D generalizing s with
  | nil => exact hs
  | cons f D ih => exact ih (plug_ne_nil f s)

theorem before_append (D C : Ctx Item) : Ctx.before (D ++ C) = C.before ++ D.before := by
  induction D with
  | nil => simp [Ctx.before]
  | cons f D ih =>
    obtain ⟨side, b, k, s⟩ := f
    cases side <;> simp [Ctx.before, ih]

theorem after_append (D C : Ctx Item) : Ctx.after (D ++ C) = D.after ++ C.after := by
  induction D with
  | nil => simp [Ctx.after]
  | cons f D ih =>
    obtain ⟨side, b, k, s⟩ := f
    cases side <;> simp [Ctx.after, ih]

/-- Every item of a tree is at a position. -/
theorem exists_position {s : AATree Item} {b : Item} {xs ys : List Item}
    (h : s.toList = xs ++ b :: ys) :
    ∃ C k l r, s = Ctx.plug C (.node b k l r) ∧ xs = C.before ++ l.toList ∧
      ys = r.toList ++ C.after := by
  induction s generalizing xs ys with
  | nil => simp at h
  | node c j x y ihx ihy =>
    rw [AATree.toList_node, List.append_eq_append_iff] at h
    rcases h with ⟨as, rfl, has⟩ | ⟨bs, hx, hbs⟩
    · cases as with
      | nil =>
        obtain ⟨rfl, rfl⟩ := List.cons_eq_cons.1 has
        exact ⟨[], j, x, y, rfl, by simp [Ctx.before], by simp [Ctx.after]⟩
      | cons a as =>
        obtain ⟨rfl, hy⟩ := List.cons_eq_cons.1 has
        obtain ⟨C, k, l, r, rfl, rfl, rfl⟩ := ihy hy
        refine ⟨C ++ [⟨.right, c, j, x⟩], k, l, r, by rw [plug_append]; rfl, ?_, ?_⟩
        · simp [before_append, Ctx.before]
        · simp [after_append, Ctx.after]
    · cases bs with
      | nil =>
        obtain ⟨rfl, rfl⟩ := List.cons_eq_cons.1 hbs
        exact ⟨[], j, x, y, rfl, by simp [Ctx.before, hx], by simp [Ctx.after]⟩
      | cons a bs =>
        obtain ⟨rfl, rfl⟩ := List.cons_eq_cons.1 hbs
        obtain ⟨C, k, l, r, rfl, rfl, rfl⟩ := ihx hx
        refine ⟨C ++ [⟨.left, c, j, y⟩], k, l, r, by rw [plug_append]; rfl, ?_, ?_⟩
        · simp [before_append, Ctx.before]
        · simp [after_append, Ctx.after]

/-- The last node of a balanced tree is a leaf. -/
theorem exists_last {s : AATree Item} (h : s.Balanced) (hs : s ≠ .nil) :
    ∃ D c, s = Ctx.plug D (.node c 1 .nil .nil) ∧ ∀ f ∈ D, f.side = .right := by
  induction s with
  | nil => exact absurd rfl hs
  | node b k l r _ ihr =>
    by_cases hr : r = .nil
    · subst hr
      obtain ⟨rfl, rfl⟩ := h.left_eq_nil
      exact ⟨[], b, rfl, by simp⟩
    · obtain ⟨D, c, rfl, hD⟩ := ihr h.2.1 hr
      refine ⟨D ++ [⟨.right, b, k, l⟩], c, by rw [plug_append]; rfl, ?_⟩
      simpa [or_imp, forall_and] using hD

theorem after_eq_nil {D : Ctx Item} (h : ∀ f ∈ D, f.side = .right) : D.after = [] := by
  induction D with
  | nil => rfl
  | cons f D ih =>
    obtain ⟨side, b, k, s⟩ := f
    obtain rfl : side = .right := h _ List.mem_cons_self
    exact ih fun g hg => h g (List.mem_cons_of_mem _ hg)

/-! ## The node to take out -/

/-- The search for the last node on one side follows the frames of that side. -/
theorem findEnd_plug {m : Mem} {t : AndTree} {side : Side} {D C : Ctx Item} {s : AATree Item}
    (h : Focus m t C (D.plug s)) (hs : s ≠ .nil) (hD : ∀ f ∈ D, f.side = side) (fuel : ℕ) :
    findEnd side (fuel + D.length) m (root (D.plug s)) = findEnd side fuel m (root s) := by
  induction D generalizing s fuel with
  | nil => rfl
  | cons f D ih =>
    obtain rfl := hD f List.mem_cons_self
    have ih' := ih h (plug_ne_nil f s) (fun g hg => hD g (List.mem_cons_of_mem _ hg)) (fuel + 1)
    rw [List.length_cons, ← Nat.add_assoc, Nat.add_right_comm]
    refine ih'.trans ?_
    have hfoc : Focus m t (f :: (D ++ C)) s := Focus.append_iff.2 h
    have hnil : isNil m (root s) = some false := by
      cases s with
      | nil => exact absurd rfl hs
      | node b k l r => exact hfoc.sub.isNil_node
    rw [findEnd, root_plug]
    simp [hfoc.ctx.2.2.1, hnil]

theorem findEnd_leaf {m : Mem} {t : AndTree} {side : Side} {C : Ctx Item} {c : Item}
    (h : Focus m t C (.node c 1 .nil .nil)) (fuel : ℕ) :
    findEnd side (fuel + 1) m c.addr = some c.addr := by
  have hg := h.sub.2.2.1
  cases side <;> simp [findEnd, hg, AndNode.leaf, isNil_sentinel h.sent]

/-- `find_max_node` finds the last node of a subtree. -/
theorem findMaxNode_eq {m : Mem} {t : AndTree} {D C : Ctx Item} {c : Item} {fuel : ℕ}
    (h : Focus m t C (D.plug (.node c 1 .nil .nil))) (hD : ∀ f ∈ D, f.side = .right)
    (hfuel : D.length < fuel) :
    findMaxNode fuel m (root (D.plug (.node c 1 .nil .nil))) = some c.addr := by
  obtain ⟨n, rfl⟩ : ∃ n, fuel = n + 1 + D.length := ⟨fuel - 1 - D.length, by omega⟩
  have hend := findEnd_plug h (by simp) hD (n + 1)
  rw [root_node, findEnd_leaf (Focus.append_iff.2 h)] at hend
  have hnil : isNil m (root (D.plug (.node c 1 .nil .nil))) = some false := by
    have hsub := h.sub
    cases hp : D.plug (.node c 1 .nil .nil) with
    | nil => exact absurd hp (ctx_plug_ne_nil D (by simp))
    | node b k l r => exact (hp ▸ hsub).isNil_node
  simp [findMaxNode, hnil, hend]

/-! ## Taking out a leaf -/

/-- `do_remove_node` takes a leaf out of the tree. -/
theorem doRemoveNode_leaf {m : Mem} {t : AndTree} {C : Ctx Item} {c : Item}
    (h : Focus m t C (.node c 1 .nil .nil)) :
    ∃ m' t', doRemoveNode m t c.addr sentinel = some (m', t') ∧ Focus m' t' C .nil ∧
      t'.nodes = t.nodes - 1 ∧
      Store.AgreeOff (footprint (C.plug (.node c 1 .nil .nil))) m m' := by
  obtain ⟨hcs, -, hg, -, -⟩ := h.sub
  obtain ⟨p, e, hs⟩ := h.sent
  have hnd := h.nodup
  rw [List.nodup_append] at hnd
  obtain ⟨hCnd, -, hdisj⟩ := hnd
  have hcC : c.addr ∉ ctxAddrs C := fun hm => hdisj _ hm c.addr (by simp) rfl
  obtain ⟨m₁, hrep, hlink, hsent, hrest⟩ :=
    replaceInParent_eq hg rfl h.linked hcC hcs hs h.ctx.sentinel_notMem
  rw [if_pos rfl] at hsent
  refine ⟨m₁.free c.addr,
    { root := (if c.addr = t.root then { t with root := sentinel } else t).root,
      nodes := t.nodes - 1 }, ?_, ⟨?_, trivial, ?_, ?_, ?_⟩, rfl, ?_⟩
  · simp only [doRemoveNode, hrep, Option.bind_eq_bind, Option.bind_some, Option.pure_def]
    split <;> rfl
  · cases C with
    | nil => trivial
    | cons f D =>
      obtain ⟨hfs, hfk, -, hsib, hD⟩ := h.ctx
      have hf : f.item.addr ∈ ctxAddrs (f :: D) := by simp [ctxAddrs]
      simp only [ctxAddrs, List.cons_append, List.nodup_cons, List.mem_append, not_or] at hCnd
      -- away from the frame the memory has not changed
      have hframe : ∀ q, q ∈ ctxAddrs (f :: D) → q ≠ f.item.addr →
          (m₁.free c.addr).get q = m.get q := by
        intro q hq hqf
        have hqc : q ≠ c.addr := fun e => hcC (e ▸ hq)
        rw [Store.get_free_of_ne _ hqc]
        exact hrest q (fun e => h.ctx.sentinel_notMem (e ▸ hq)) fun _ => hqf
      refine ⟨hfs, hfk, ?_, hsib.frame fun q hq => hframe q ?_ ?_,
        hD.frame fun q hq => hframe q ?_ ?_⟩
      · have hfc : f.item.addr ≠ c.addr := fun e => hcC (e ▸ hf)
        rw [Store.get_free_of_ne _ hfc]
        exact hlink f D rfl
      · simp [ctxAddrs, hq]
      · rintro rfl
        exact hCnd.1.1 hq
      · simp [ctxAddrs, hq]
      · rintro rfl
        exact hCnd.1.2 hq
  · simpa using hCnd
  · exact ⟨p, e, by rw [Store.get_free_of_ne _ (Ne.symm hcs), hsent]⟩
  · exact h.root_replace .nil
  · intro q hq
    simp only [mem_footprint, (addrs_plug_perm C _).mem_iff, List.mem_append, addrs_node, addrs_nil,
      List.nil_append, List.mem_singleton, not_or] at hq
    obtain ⟨hqs, hqC, hqc⟩ := hq
    rw [Store.get_free_of_ne _ hqc]
    exact hrest q hqs fun hC e => hqC (e ▸ above_mem hC)

/-! ## The way up -/

theorem addrs_lower (s : AATree Item) : addrs s.lower = addrs s := by
  rw [addrs, AATree.toList_lower, addrs]

theorem addrs_mapLeft_split (s : AATree Item) : addrs (s.mapLeft .split) = addrs s := by
  rw [addrs, AATree.toList_mapLeft AATree.toList_split, addrs]

theorem addrs_setLevel (k : ℕ) (s : AATree Item) : addrs (s.setLevel k) = addrs s := by
  rw [addrs, AATree.toList_setLevel, addrs]

/-- The split of the left child of the node at the focus. -/
theorem andtreeSplit_left {m : Mem} {t : AndTree} {C : Ctx Item} {s : AATree Item} {steps : ℕ}
    (h : Focus m t C s) (hs : s ≠ .nil) (hsteps : (addrs s).length < steps) :
    ∃ n m' t' p, m.get (root s) = some n ∧ andtreeSplit steps m t n.left = some (m', t', p) ∧
      Moves m t C s m' t' (s.mapLeft .split) ∧ root (s.mapLeft .split) = root s := by
  cases s with
  | nil => exact absurd rfl hs
  | node b k l r =>
    have hlt : (addrs l).length < steps := by
      rw [addrs_node, List.length_append] at hsteps
      omega
    obtain ⟨m₁, t₁, hsplit, hm₁⟩ := andtreeSplit_moves h.down_left hlt
    exact ⟨_, m₁, t₁, _, h.sub.2.2.1, hsplit, hm₁.up, rfl⟩

/-- Lowering a node and, where it stands above it, its right child. -/
theorem lowerLevel_moves {m : Mem} {t : AndTree} {C : Ctx Item} {b : Item} {k : ℕ}
    {l r : AATree Item} (h : Focus m t C (.node b k l r)) (hk : 0 < k - 1) :
    ∃ m', lowerLevel m b.addr = some m' ∧ Moves m t C (.node b k l r) m' t
      (.node b (k - 1) l (if k - 1 < r.level then r.setLevel (k - 1) else r)) := by
  have hg := h.sub.2.2.1
  have hm₁ := h.setNode (k - 1) hk b.data
  set m₁ := m.set b.addr ⟨above C, root l, root r, k - 1, b.data⟩ with hm₁'
  have hfoc := hm₁.focus.down_right
  by_cases hlt : k - 1 < r.level
  · cases r with
    | nil => simp at hlt
    | node c j y z =>
      have hm₂ := hfoc.setNode (k - 1) hk c.data
      have hgc := hfoc.sub.2.2.1
      rw [AATree.level_node] at hlt
      rw [root_node] at hg hm₁'
      refine ⟨m₁.set c.addr ⟨b.addr, root y, root z, k - 1, c.data⟩, ?_, ?_⟩
      · simp only [lowerLevel, hg, Store.modify_eq hg, ← hm₁', hgc, hlt, Option.bind_eq_bind,
          Option.bind_some, gt_iff_lt, if_true, Store.modify_eq hgc]
        rfl
      · rw [AATree.level_node, if_pos hlt]
        exact hm₁.trans hm₂.up (by simp)
  · obtain ⟨rn, hrn, hlev, -⟩ := hfoc.sub.get_root hfoc.sent
    refine ⟨m₁, ?_, ?_⟩
    · have hlt' : ¬ k - 1 < rn.level := by rwa [hlev]
      simp only [lowerLevel, hg, Store.modify_eq hg, ← hm₁', hrn, hlt', Option.bind_eq_bind,
        Option.bind_some, gt_iff_lt, if_false]
    · rw [if_neg hlt]
      exact hm₁

/-- The repair of one node on the way up carries out `AATree.lower`. -/
theorem removeRepairStep_moves {m : Mem} {t : AndTree} {C : Ctx Item} {b : Item} {k steps : ℕ}
    {l r : AATree Item} (h : Focus m t C (.node b k l r))
    (hsteps : (addrs (.node b k l r)).length < steps) :
    ∃ m' t', removeRepairStep steps m t b.addr =
        some (m', t', root (AATree.lower (.node b k l r))) ∧
      Moves m t C (.node b k l r) m' t' (AATree.lower (.node b k l r)) := by
  obtain ⟨-, -, hg, hl, hr⟩ := h.sub
  obtain ⟨ln, hln, hllev, -⟩ := hl.get_root h.sent
  obtain ⟨rn, hrn, hrlev, -⟩ := hr.get_root h.sent
  by_cases hlow : l.level < k - 1 ∨ r.level < k - 1
  · obtain ⟨m₁, hmod, hm₁⟩ := lowerLevel_moves h (by omega)
    set r₁ := if k - 1 < r.level then r.setLevel (k - 1) else r with hr₁
    set s₁ : AATree Item := .node b (k - 1) l r₁ with hs₁
    have ha₁ : addrs s₁ = addrs (.node b k l r) := by
      have : addrs r₁ = addrs r := by
        rw [hr₁]
        split
        · exact addrs_setLevel _ r
        · rfl
      rw [hs₁, addrs_node, addrs_node, this]
    obtain ⟨m₂, t₂, hskew, hm₂⟩ := andtreeSkew_moves hm₁.focus (ha₁ ▸ hsteps)
    have ha₂ : addrs s₁.skew = addrs (.node b k l r) := (addrs_skew _).trans ha₁
    obtain ⟨m₃, t₃, hsplit, hm₃⟩ := andtreeSplit_moves hm₂.focus (ha₂ ▸ hsteps)
    have ha₃ : addrs s₁.skew.split = addrs (.node b k l r) := (addrs_split _).trans ha₂
    have hne : s₁.skew.split ≠ .nil := ne_nil_of_addrs ha₃ (by simp)
    obtain ⟨n₃, m₄, t₄, p, hn₃, hleft, hm₄, hroot⟩ :=
      andtreeSplit_left hm₃.focus hne (ha₃ ▸ hsteps)
    have ha₄ : addrs (s₁.skew.split.mapLeft .split) = addrs (.node b k l r) :=
      (addrs_mapLeft_split _).trans ha₃
    obtain ⟨m₅, t₅, hskew₂, hm₅⟩ := andtreeSkew_moves hm₄.focus (ha₄ ▸ hsteps)
    have hlower : AATree.lower (.node b k l r) = (s₁.skew.split.mapLeft .split).skew := by
      simp only [AATree.lower]
      rw [if_pos hlow]
    refine ⟨m₅, t₅, ?_, ?_⟩
    · have hcond : ln.level < k - 1 ∨ rn.level < k - 1 := by rwa [hllev, hrlev]
      replace hskew : andtreeSkew steps m₁ t b.addr = some (m₂, t₂, root s₁.skew) := hskew
      rw [hroot] at hskew₂
      simp only [removeRepairStep, hg, hln, hrn, Option.bind_eq_bind, Option.bind_some, hcond,
        if_true, hmod, hskew, hsplit, hn₃, hleft, hskew₂, hlower]
    · rw [hlower]
      exact (((hm₁.trans hm₂ ha₁).trans hm₃ ha₂).trans hm₄ ha₃).trans hm₅ ha₄
  · refine ⟨m, t, ?_, ?_⟩
    · have hcond : ¬ (ln.level < k - 1 ∨ rn.level < k - 1) := by rwa [hllev, hrlev]
      have hlower : AATree.lower (.node b k l r) = .node b k l r := by
        simp only [AATree.lower]
        rw [if_neg hlow]
      simp [removeRepairStep, hg, hln, hrn, hcond, hlower]
    · simp only [AATree.lower]
      rw [if_neg hlow]
      exact .refl h

theorem Focus.parent_root {m : Mem} {t : AndTree} {C : Ctx Item} {s : AATree Item}
    (h : Focus m t C s) (hs : s ≠ .nil) : ∃ n, m.get (root s) = some n ∧ n.parent = above C := by
  cases s with
  | nil => exact absurd rfl hs
  | node b k l r => exact ⟨_, h.sub.2.2.1, rfl⟩

/-- One turn of the loop: the node above the focus is lowered. -/
theorem removeRepairLoop_step {m : Mem} {t : AndTree} {C : Ctx Item} {f : Frame Item}
    {s : AATree Item} {steps : ℕ} (h : Focus m t (f :: C) s)
    (hsteps : (addrs (f.plug s)).length < steps) :
    ∃ m' t', Moves m t C (f.plug s) m' t' (f.plug s).lower ∧ ∀ fuel,
      removeRepairLoop steps (fuel + 1) m t f.item.addr =
        removeRepairLoop steps fuel m' t' (above C) := by
  have hup := h.up f
  have hroot := root_plug f s
  cases hp : f.plug s with
  | nil => exact absurd hp (plug_ne_nil f s)
  | node b k l r =>
    rw [hp] at hup hroot hsteps
    obtain ⟨m₁, t₁, hstep, hm₁⟩ := removeRepairStep_moves hup hsteps
    have hne : AATree.lower (.node b k l r) ≠ .nil := ne_nil_of_addrs (addrs_lower _) (by simp)
    obtain ⟨n, hn, hpar⟩ := hm₁.focus.parent_root hne
    refine ⟨m₁, t₁, hm₁, fun fuel => ?_⟩
    rw [← hroot, root_node, removeRepairLoop]
    simp [hup.sub.isNil_node, hstep, hn, hpar]

/-- **The way up of a removal.** -/
theorem removeRepairLoop_moves {m : Mem} {t : AndTree} {C : Ctx Item} {s : AATree Item}
    {steps fuel : ℕ} (h : Focus m t C s) (hsteps : (addrs (C.plug s)).length < steps)
    (hfuel : C.length < fuel) :
    ∃ m' t', removeRepairLoop steps fuel m t (above C) = some (m', t') ∧
      Moves m t [] (C.plug s) m' t' (AATree.repairRemove C s) := by
  induction C generalizing m t s fuel with
  | nil =>
    obtain ⟨fuel, rfl⟩ : ∃ n, fuel = n + 1 := ⟨fuel - 1, by omega⟩
    exact ⟨m, t, by simp [removeRepairLoop, above, isNil], .refl h⟩
  | cons f C ih =>
    obtain ⟨fuel, rfl⟩ : ∃ n, fuel = n + 1 := ⟨fuel - 1, by omega⟩
    have hlen := length_addrs_plug C (f.plug s)
    rw [Ctx.plug] at hsteps
    have hlts : (addrs (f.plug s)).length < steps := by omega
    obtain ⟨m₁, t₁, hm₁, hloop⟩ := removeRepairLoop_step h hlts
    have haddrs := addrs_plug_congr C (addrs_lower (f.plug s))
    rw [List.length_cons] at hfuel
    have hfuel' : C.length < fuel := by omega
    obtain ⟨m₂, t₂, hloop₂, hm₂⟩ := ih hm₁.focus (by rwa [haddrs]) hfuel'
    exact ⟨m₂, t₂, by rw [above, hloop, hloop₂], hm₁.to_root.trans hm₂ haddrs⟩

/-! ## Removal -/

theorem balanced_plug_congr {C : Ctx Item} {s s' : AATree Item} (hb : s'.Balanced)
    (hl : s'.level = s.level) (hr : s'.right.level = s.right.level) (h : (C.plug s).Balanced) :
    (C.plug s').Balanced := by
  induction C generalizing s s' with
  | nil => exact hb
  | cons f C ih =>
    have hf : (f.plug s).Balanced := Ctx.balanced_of_plug h
    obtain ⟨side, b, k, z⟩ := f
    cases side with
    | left =>
      obtain ⟨-, hz, hsk, hzk, hzr⟩ := hf
      exact ih (s := .node b k s z) ⟨hb, hz, hl ▸ hsk, hzk, hzr⟩ rfl rfl h
    | right =>
      obtain ⟨hz, -, hzk, hsk, hsr⟩ := hf
      exact ih (s := .node b k z s) ⟨hz, hb, hzk, hl.symm ▸ hsk, hr.symm ▸ hsr⟩ rfl hl h

/-- A leaf has been taken out of the tree `s`, at the position `C`, and with it the data of the
node with item `b`. -/
structure Takes (m : Mem) (t : AndTree) (s : AATree Item) (b : Item) (m' : Mem) (t' : AndTree)
    (C : Ctx Item) : Prop where
  focus : Focus m' t' C .nil
  nodes : t'.nodes = t.nodes - 1
  agree : Store.AgreeOff (footprint s) m m'
  leaf : ∃ c, addrs (C.plug (.node c 1 .nil .nil)) = addrs s ∧
    (s.Balanced → (C.plug (.node c 1 .nil .nil)).Balanced)
  data : ∃ xs ys, s.toList = xs ++ b :: ys ∧
    (C.plug .nil).toList.map Item.data = (xs ++ ys).map Item.data

theorem above_append (D C : Ctx Item) (f g : Frame Item) (h : f.item.addr = g.item.addr) :
    above (D ++ f :: C) = above (D ++ g :: C) := by
  cases D with
  | nil => exact h
  | cons f D => rfl

/-- Writing the data of the node of a frame, with the focus below it. -/
theorem Focus.setFrameData {m : Mem} {t : AndTree} {C : Ctx Item} {f : Frame Item} {s : AATree Item}
    (h : Focus m t (f :: C) s) (d : Ptr) :
    Focus (m.set f.item.addr (cell f.side (above C) (root s) (root f.sibling) f.level d)) t
      ({ f with item := ⟨f.item.addr, d⟩ } :: C) s ∧
    Store.AgreeOff (footprint (Ctx.plug C (f.plug s))) m
      (m.set f.item.addr (cell f.side (above C) (root s) (root f.sibling) f.level d)) := by
  have hup := h.up f
  have hk := h.ctx.2.1
  obtain ⟨side, b, k, z⟩ := f
  cases side with
  | left =>
    have hm := hup.setNode k hk d
    exact ⟨hm.focus.down_left, hm.agree⟩
  | right =>
    have hm := hup.setNode k hk d
    exact ⟨hm.focus.down_right, hm.agree⟩

/-- The removal of a node by way of a leaf below it, on the side of the frame `f`. -/
theorem andtreeRemoveRepair_successor {m : Mem} {t : AndTree} {C D : Ctx Item} {f : Frame Item}
    {c : Item} (h : Focus m t (f :: C) (D.plug (.node c 1 .nil .nil)))
    (hsucc : findSuccessor t.fuel m f.item.addr = some c.addr) :
    ∃ m' t', andtreeRemoveRepair m t f.item.addr =
        removeRepairLoop t.fuel t.fuel m' t'
          (above (D ++ { f with item := ⟨f.item.addr, c.data⟩ } :: C)) ∧
      Focus m' t' (D ++ { f with item := ⟨f.item.addr, c.data⟩ } :: C) .nil ∧
      t'.nodes = t.nodes - 1 ∧
      Store.AgreeOff (footprint (Ctx.plug C (f.plug (D.plug (.node c 1 .nil .nil))))) m m' := by
  have hc : Focus m t (D ++ f :: C) (.node c 1 .nil .nil) := Focus.append_iff.2 h
  have hgc := hc.sub.2.2.1
  have hc0 := Store.ne_zero_of_get hgc
  -- the data are copied
  obtain ⟨hfoc₁, hag₁⟩ := h.setFrameData c.data
  have hn := h.ctx.2.2.1
  set m₁ := m.set f.item.addr (cell f.side (above C) (root (D.plug (.node c 1 .nil .nil)))
    (root f.sibling) f.level c.data) with hm₁
  have hc₁ := Focus.append_iff.2 hfoc₁
  have hgc₁ := hc₁.sub.2.2.1
  have hmod : (m.modify f.item.addr fun n => { n with data := c.data }) = some m₁ := by
    rw [Store.modify_eq hn, hm₁]
    cases f.side <;> rfl
  -- the leaf is taken out
  obtain ⟨m₂, t₂, hdo, hfoc₂, hnodes₂, hag₂⟩ := doRemoveNode_leaf hc₁
  refine ⟨m₂, t₂, ?_, hfoc₂, hnodes₂, hag₁.trans ?_⟩
  · rw [above_append D C { f with item := ⟨f.item.addr, c.data⟩ } f rfl]
    simp only [root_nil] at hgc hgc₁
    simp only [andtreeRemoveRepair, hsucc, removeSuccessor, hc.sub.isNil_node, hgc, hc0, hmod, hgc₁,
      isNil_sentinel hc₁.sent, hdo, Option.bind_eq_bind, Option.bind_some, ne_eq,
      not_false_eq_true, if_true, if_false, Bool.false_eq_true, AndNode.leaf]
  · rw [plug_append, Ctx.plug] at hag₂
    refine hag₂.mono (footprint_congr (addrs_plug_congr C ?_)).le
    simp only [plug_eq_nodeOn]
    cases f.side <;> simp [nodeOn]

/-- A node that takes over the data of a leaf below it loses its own. -/
theorem takes_successor {m m' : Mem} {t t' : AndTree} {C D : Ctx Item} {f : Frame Item} {c : Item}
    (xs : List Item) {ys : List Item}
    (hfoc : Focus m' t' (D ++ { f with item := ⟨f.item.addr, c.data⟩ } :: C) .nil)
    (hnodes : t'.nodes = t.nodes - 1)
    (hag : Store.AgreeOff (footprint (Ctx.plug C (f.plug (D.plug (.node c 1 .nil .nil))))) m m')
    (hxs : (f.plug (D.plug (.node c 1 .nil .nil))).toList = xs ++ f.item :: ys)
    (hdata : (Frame.plug { f with item := ⟨f.item.addr, c.data⟩ } (D.plug .nil)).toList.map
      Item.data = (xs ++ ys).map Item.data) :
    Takes m t (C.plug (f.plug (D.plug (.node c 1 .nil .nil)))) f.item m' t'
      (D ++ { f with item := ⟨f.item.addr, c.data⟩ } :: C) := by
  refine ⟨hfoc, hnodes, hag, ⟨c, ?_, fun hb => ?_⟩, C.before ++ xs, ys ++ C.after, ?_, ?_⟩
  · rw [plug_append, Ctx.plug]
    refine addrs_plug_congr C ?_
    simp only [plug_eq_nodeOn]
    cases f.side <;> simp [nodeOn]
  · rw [plug_append, Ctx.plug]
    have hf : (f.plug (D.plug (.node c 1 .nil .nil))).Balanced := Ctx.balanced_of_plug hb
    obtain ⟨side, b, k, z⟩ := f
    cases side with
    | left =>
      refine balanced_plug_congr ?_ ?_ ?_ hb
      exacts [hf, rfl, rfl]
    | right =>
      refine balanced_plug_congr ?_ ?_ ?_ hb
      exacts [hf, rfl, rfl]
  · rw [Ctx.toList_plug, hxs]
    simp
  · rw [plug_append, Ctx.plug, Ctx.toList_plug, List.map_append, List.map_append, hdata]
    simp

/-- `andtree_remove_repair` up to its loop: a leaf is taken out. -/
theorem andtreeRemoveRepair_takes {m : Mem} {t : AndTree} {C : Ctx Item} {b : Item} {k : ℕ}
    {l r : AATree Item} (h : Focus m t C (.node b k l r)) (hbal : (AATree.node b k l r).Balanced)
    (hfuel : (addrs (C.plug (.node b k l r))).length < t.fuel) :
    ∃ m' t' C', andtreeRemoveRepair m t b.addr =
        removeRepairLoop t.fuel t.fuel m' t' (above C') ∧
      Takes m t (C.plug (.node b k l r)) b m' t' C' := by
  have hg := h.sub.2.2.1
  have hnil := isNil_sentinel h.sent
  rw [length_addrs_plug, addrs_node, List.length_append, List.length_cons] at hfuel
  by_cases hl : l = .nil
  · subst hl
    have hmax : findMaxNode t.fuel m sentinel = some null := by simp [findMaxNode, hnil]
    cases r with
    | nil =>
      -- the node itself is a leaf
      obtain rfl := hbal.left_eq_nil.2
      obtain ⟨p, e, hs⟩ := h.sent
      have hsucc : findSuccessor t.fuel m b.addr = some null := by
        simp [findSuccessor, hg, hmax, findMinNode, hs]
      obtain ⟨m', t', hdo, hfoc, hnodes, hag⟩ := doRemoveNode_leaf h
      refine ⟨m', t', C, ?_, hfoc, hnodes, hag, ⟨b, rfl, id⟩, C.before, C.after, ?_, ?_⟩
      · simp [andtreeRemoveRepair, hsucc, isNil, hg, removeSuccessor, hdo]
      · simp [Ctx.toList_plug]
      · simp [Ctx.toList_plug]
    | node c j y z =>
      -- the right child is a leaf
      have hc : (AATree.node c j y z) = .node c 1 .nil .nil := by
        obtain ⟨-, ⟨hy, hz, hyj, hzj, -⟩, hk, hj, hz'⟩ := hbal
        simp only [AATree.level_nil, AATree.level_node, AATree.right_node] at hk hj hz'
        rw [hy.eq_nil (by omega), hz.eq_nil (by omega), show j = 1 by omega]
      rw [hc] at h hg hfuel ⊢
      have hfoc : Focus m t (⟨.right, b, k, .nil⟩ :: C) (.node c 1 .nil .nil) := h.down_right
      obtain ⟨n, hn⟩ : ∃ n, t.fuel = n + 1 := ⟨t.fuel - 1, by omega⟩
      have hsucc : findSuccessor t.fuel m b.addr = some c.addr := by
        rw [hn] at hmax ⊢
        simp [findSuccessor, hg, hmax, findMinNode, hfoc.sub.2.2.1, findEnd_leaf hfoc]
      obtain ⟨m', t', heq, hfoc', hnodes, hag⟩ :=
        andtreeRemoveRepair_successor (D := []) (f := ⟨.right, b, k, .nil⟩) hfoc hsucc
      exact ⟨m', t', _, heq,
        takes_successor (D := []) (f := ⟨.right, b, k, .nil⟩) [] hfoc' hnodes hag rfl rfl⟩
  · -- the last node of the left subtree
    obtain ⟨D, c, rfl, hD⟩ := exists_last hbal.1 hl
    have hfoc := h.down_left
    have hD' : (addrs (D.plug (.node c 1 .nil .nil))).length = (ctxAddrs D).length + 1 := by
      rw [length_addrs_plug]
      simp
    have hlen := length_ctx_le D
    have hlt : D.length < t.fuel := by omega
    have hsucc : findSuccessor t.fuel m b.addr = some c.addr := by
      have hc0 := Store.ne_zero_of_get (Focus.append_iff.2 hfoc).sub.2.2.1
      simp [findSuccessor, hg, findMaxNode_eq hfoc hD hlt, hc0]
    obtain ⟨m', t', heq, hfoc', hnodes, hag⟩ :=
      andtreeRemoveRepair_successor (f := ⟨.left, b, k, r⟩) hfoc hsucc
    refine ⟨m', t', _, heq, takes_successor (f := ⟨.left, b, k, r⟩)
      (D.plug (.node c 1 .nil .nil)).toList hfoc' hnodes hag rfl ?_⟩
    simp [Frame.plug, Ctx.toList_plug, after_eq_nil hD]

/-- **`andtree_remove` removes a node from the tree.** -/
theorem andtreeRemove_eq {m : Mem} {t : AndTree} {s : AATree Item} {b : Item} (h : Focus m t [] s)
    (hbal : s.Balanced) (hn : t.nodes = s.toList.length) (hb : b ∈ s.toList) :
    ∃ m' t' s', andtreeRemove m t b.addr = some (m', t') ∧ Focus m' t' [] s' ∧ s'.Balanced ∧
      t'.nodes + 1 = t.nodes ∧ Store.AgreeOff (footprint s) m m' ∧ (∀ p ∈ addrs s', p ∈ addrs s) ∧
      ∃ xs ys, s.toList = xs ++ b :: ys ∧ s'.toList.map Item.data = (xs ++ ys).map Item.data := by
  obtain ⟨as, bs, hab⟩ := List.append_of_mem hb
  obtain ⟨C, k, l, r, rfl, -⟩ := exists_position hab
  have hfuel : (addrs (C.plug (.node b k l r))).length < t.fuel := by
    rw [length_addrs, ← hn, AndTree.fuel]
    omega
  obtain ⟨m₁, t₁, C', heq, htakes⟩ :=
    andtreeRemoveRepair_takes h.of_root (Ctx.balanced_of_plug hbal) hfuel
  obtain ⟨c, hc, hcbal⟩ := htakes.leaf
  have hlen := congrArg List.length hc
  rw [length_addrs_plug] at hlen
  have hsteps : (addrs (C'.plug .nil)).length < t.fuel := by
    rw [length_addrs_plug]
    simp only [addrs_node, addrs_nil, List.nil_append, List.length_singleton, List.length_nil] at *
    omega
  have hctx := length_ctx_le C'
  have hfuel' : C'.length < t.fuel := by
    simp only [addrs_node, addrs_nil, List.nil_append, List.length_singleton] at hlen
    omega
  obtain ⟨m₂, t₂, hloop, hm₂⟩ := removeRepairLoop_moves htakes.focus hsteps hfuel'
  have hsub : ∀ p ∈ addrs (C'.plug .nil), p ∈ addrs (C.plug (.node b k l r)) := by
    intro p hp
    rw [← hc]
    rw [(addrs_plug_perm _ _).mem_iff] at hp ⊢
    simp only [addrs_nil, List.append_nil] at hp
    exact List.mem_append_left _ hp
  have haddrs : addrs (AATree.repairRemove C' .nil) = addrs (C'.plug .nil) := by
    rw [addrs, AATree.toList_repairRemove, addrs]
  obtain ⟨xs, ys, hxs, hdata⟩ := htakes.data
  refine ⟨m₂, t₂, AATree.repairRemove C' .nil, ?_, hm₂.focus, ?_, ?_, ?_, ?_, xs, ys, hxs, ?_⟩
  · rw [andtreeRemove, heq, hloop]
  · exact ((AATree.shrinks_leaf c).repairRemove (hcbal hbal)).1
  · have : 0 < t.nodes := by
      rw [hn]
      exact List.length_pos_of_mem hb
    rw [hm₂.nodes, htakes.nodes]
    omega
  · refine htakes.agree.trans (hm₂.agree.mono ?_)
    intro p hp
    exact hp.imp id (hsub p)
  · rwa [haddrs]
  · rw [AATree.toList_repairRemove, hdata]

end C4OS.Andtree
