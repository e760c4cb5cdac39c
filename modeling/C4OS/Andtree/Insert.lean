import C4OS.Andtree.Rotate
import Mathlib.Data.Set.Insert

/-!
# Insertion

`andtree_bin_insert` walks from the root to the sentinel at the end of a branch and hangs the new
node there (`binInsertLoop_focus`); `andtree_insert_repair` walks back up to the root and skews and
splits every node on the way (`insertRepairLoop_moves`). `andtreeInsert_eq` puts the two together:
the code carries out the insertion of the abstract tree, at the position its comparisons lead to.
-/

namespace C4OS.Andtree

open Foundations

/-- The side of a node with item `b` on which the new data go. -/
def insertSide (getKey : Ptr → ℤ) (data : Ptr) (b : Item) : Side :=
  if intSub (getKey data) (getKey b.data) < 0 then .left else .right

theorem length_addrs (s : AATree Item) : (addrs s).length = s.toList.length := by
  simp [addrs]

theorem length_addrs_plug (C : Ctx Item) (s : AATree Item) :
    (addrs (C.plug s)).length = (ctxAddrs C).length + (addrs s).length := by
  rw [(addrs_plug_perm C s).length_eq, List.length_append]

theorem length_ctx_le (C : Ctx Item) : C.length ≤ (ctxAddrs C).length := by
  induction C with
  | nil => simp [ctxAddrs]
  | cons f C ih =>
    simp only [ctxAddrs, List.length_cons, List.length_append]
    omega

/-! ## The way down -/

/-- Hanging a new node at an empty position. -/
theorem Focus.attach {m : Mem} {t : AndTree} {f : Frame Item} {C : Ctx Item} {a d : Ptr}
    (h : Focus m t (f :: C) .nil) (ha : m.get a = some ⟨null, sentinel, sentinel, 1, d⟩)
    (hnew : a ∉ ctxAddrs (f :: C)) (has : a ≠ sentinel) :
    Focus ((m.set f.item.addr
      (cell f.side (above C) a (root f.sibling) f.level f.item.data)).set a
        ⟨f.item.addr, sentinel, sentinel, 1, d⟩) t (f :: C) (.node ⟨a, d⟩ 1 .nil .nil) := by
  obtain ⟨hfs, hfk, hg, hsib, hC⟩ := h.ctx
  have ha0 := Store.ne_zero_of_get ha
  have hf0 := Store.ne_zero_of_get hg
  have hnd := h.nodup
  simp only [ctxAddrs, List.cons_append, List.mem_cons, List.mem_append, not_or] at hnew
  simp only [addrs_nil, List.append_nil, ctxAddrs, List.cons_append, List.nodup_cons,
    List.mem_append, not_or] at hnd
  obtain ⟨haf, hasib, haC⟩ := hnew
  obtain ⟨⟨hfsib, hfC⟩, -⟩ := hnd
  set m' := (m.set f.item.addr (cell f.side (above C) a (root f.sibling) f.level f.item.data)).set a
    ⟨f.item.addr, sentinel, sentinel, 1, d⟩ with hm'
  have hne : ∀ p, p ≠ a → p ≠ f.item.addr → m'.get p = m.get p := by
    intro p hpa hpf
    rw [Store.get_set_of_ne _ hpa, Store.get_set_of_ne _ hpf]
  refine ⟨⟨hfs, hfk, ?_, hsib.frame fun p hp => hne p ?_ ?_, hC.frame fun p hp => hne p ?_ ?_⟩,
    ⟨has, Nat.one_pos, Store.get_set_self _ ha0 _, trivial, trivial⟩, ?_, ?_, ?_⟩
  · rw [Store.get_set_of_ne _ (Ne.symm haf), Store.get_set_self _ hf0]
    rfl
  · rintro rfl; exact hasib hp
  · rintro rfl; exact hfsib hp
  · rintro rfl; exact haC hp
  · rintro rfl; exact hfC hp
  · have hnd := h.nodup
    simp only [addrs_nil, List.append_nil] at hnd
    simp only [addrs_node, addrs_nil, List.nil_append, List.nodup_append, List.nodup_cons,
      List.not_mem_nil, not_false_eq_true, List.nodup_nil, List.mem_singleton, hnd, true_and]
    rintro p hp q rfl rfl
    simp only [ctxAddrs, List.cons_append, List.mem_cons, List.mem_append] at hp
    tauto
  · obtain ⟨p, e, hs⟩ := h.sent
    exact ⟨p, e, by rw [hne _ (Ne.symm has) (Ne.symm hfs), hs]⟩
  · rw [h.root_eq]
    exact (root_plug_mem f C _ _).1

section Down

variable {getKey : Ptr → ℤ} {m : Mem} {t : AndTree} {C : Ctx Item} {a d : Ptr}

/-- The loop goes on to the child its comparison chooses. -/
theorem binInsertLoop_down {f : Frame Item} {s : AATree Item} (h : Focus m t (f :: C) s)
    (hs : s ≠ .nil) (hside : insertSide getKey d f.item = f.side)
    (ha : m.get a = some ⟨null, sentinel, sentinel, 1, d⟩) (hnew : a ≠ f.item.addr) (fuel : ℕ) :
    binInsertLoop getKey a (fuel + 1) m f.item.addr = binInsertLoop getKey a fuel m (root s) := by
  have hg := h.ctx.2.2.1
  have hnil : isNil m (root s) = some false := by
    cases s with
    | nil => exact absurd rfl hs
    | node b k l r => exact h.sub.isNil_node
  unfold insertSide at hside
  rw [binInsertLoop, if_neg (Ne.symm hnew)]
  simp [ha, hg, andtreeCompare, hside, hnil]

/-- The loop hangs the new node at an empty position and stops there. -/
theorem binInsertLoop_attach {f : Frame Item} (h : Focus m t (f :: C) .nil)
    (hside : insertSide getKey d f.item = f.side)
    (ha : m.get a = some ⟨null, sentinel, sentinel, 1, d⟩) (hnew : a ≠ f.item.addr) (fuel : ℕ) :
    binInsertLoop getKey a (fuel + 2) m f.item.addr = some ((m.set f.item.addr
      (cell f.side (above C) a (root f.sibling) f.level f.item.data)).set a
        ⟨f.item.addr, sentinel, sentinel, 1, d⟩) := by
  have hg := h.ctx.2.2.1
  have hf0 := Store.ne_zero_of_get hg
  have hnil : isNil m sentinel = some true := isNil_sentinel h.sent
  rw [root_nil] at hg
  set m₁ := m.set f.item.addr (cell f.side (above C) a (root f.sibling) f.level f.item.data)
    with hm₁
  have ha₁ : m₁.get a = some ⟨null, sentinel, sentinel, 1, d⟩ := by
    rw [Store.get_set_of_ne _ hnew, ha]
  have hg₁ : (m₁.set a ⟨f.item.addr, sentinel, sentinel, 1, d⟩).get f.item.addr =
      some (cell f.side (above C) a (root f.sibling) f.level f.item.data) := by
    rw [Store.get_set_of_ne _ (Ne.symm hnew), Store.get_set_self _ hf0]
  unfold insertSide at hside
  rw [binInsertLoop, if_neg (Ne.symm hnew)]
  simp [ha, hg, andtreeCompare, hside, hnil, Store.modify_eq hg, ← hm₁, Store.modify_eq ha₁,
    AndNode.setParent, hg₁, binInsertLoop]

/-- **The way down of an insertion.** The loop of `andtree_bin_insert` ends with the new node at the
position its comparisons lead to. -/
theorem binInsertLoop_focus (getKey : Ptr → ℤ) {s : AATree Item} {fuel : ℕ} (h : Focus m t C s)
    (hs : s ≠ .nil) (ha : m.get a = some ⟨null, sentinel, sentinel, 1, d⟩)
    (hnew : a ∉ ctxAddrs C ++ addrs s)
    (has : a ≠ sentinel) (hfuel : (addrs s).length + 1 < fuel) :
    ∃ m', binInsertLoop getKey a fuel m (root s) = some m' ∧
      Focus m' t (Ctx.descend (insertSide getKey d) s C) (.node ⟨a, d⟩ 1 .nil .nil) ∧
      Store.AgreeOff (insert a (footprint (C.plug s))) m m' := by
  induction s generalizing C fuel with
  | nil => exact absurd rfl hs
  | node b k l r ihl ihr =>
    -- one turn of the loop, with the frame `f` of the side chosen
    have key : ∀ (f : Frame Item) (w : AATree Item), f.item = b → f.plug w = .node b k l r →
        f.side = insertSide getKey d b →
        (w ≠ .nil → ∀ {D : Ctx Item} {fuel : ℕ}, Focus m t D w → a ∉ ctxAddrs D ++ addrs w →
          (addrs w).length + 1 < fuel → ∃ m', binInsertLoop getKey a fuel m (root w) = some m' ∧
            Focus m' t (Ctx.descend (insertSide getKey d) w D) (.node ⟨a, d⟩ 1 .nil .nil) ∧
            Store.AgreeOff (insert a (footprint (D.plug w))) m m') →
        ∃ m', binInsertLoop getKey a fuel m b.addr = some m' ∧
          Focus m' t (Ctx.descend (insertSide getKey d) w (f :: C)) (.node ⟨a, d⟩ 1 .nil .nil) ∧
          Store.AgreeOff (insert a (footprint (C.plug (.node b k l r)))) m m' := by
      intro f w hfb hplug hside ih
      subst hfb
      have hperm := (addrs_plug_perm (f :: C) w).symm.trans (addrs_plug_perm C (f.plug w))
      rw [hplug] at hperm
      have hnew' : a ∉ ctxAddrs (f :: C) ++ addrs w := fun hm => hnew (hperm.mem_iff.1 hm)
      have haf : a ≠ f.item.addr := fun e => hnew' (by simp [ctxAddrs, e])
      have hfoc : Focus m t (f :: C) w := Focus.down f (hplug ▸ h)
      have hlen : (addrs w).length + 2 < fuel := by
        have hp : (addrs (f.plug w)).Perm (f.item.addr :: addrs w ++ addrs f.sibling) := by
          rw [plug_eq_nodeOn]
          exact addrs_nodeOn_perm ..
        rw [← hplug, hp.length_eq] at hfuel
        simp only [List.cons_append, List.length_cons, List.length_append] at hfuel
        omega
      by_cases hw : w = .nil
      · subst hw
        obtain ⟨fuel, rfl⟩ : ∃ n, fuel = n + 2 := ⟨fuel - 2, by omega⟩
        refine ⟨_, binInsertLoop_attach hfoc hside.symm ha haf fuel, ?_, ?_⟩
        · exact hfoc.attach ha (fun hm => hnew' (by simp [hm])) has
        · have hmem : f.item.addr ∈ insert a (footprint (C.plug (.node f.item k l r))) := by
            refine .inr (mem_footprint.2 (.inr ?_))
            rw [(addrs_plug_perm C _).mem_iff]
            simp
          exact ((Store.AgreeOff.refl _ m).set hmem _).set (.inl rfl) _
      · obtain ⟨fuel, rfl⟩ : ∃ n, fuel = n + 1 := ⟨fuel - 1, by omega⟩
        have hlt : (addrs w).length + 1 < fuel := by omega
        obtain ⟨m', hloop, hfoc', hag⟩ := ih hw hfoc hnew' hlt
        refine ⟨m', ?_, hfoc', ?_⟩
        · rw [binInsertLoop_down hfoc hw hside.symm ha haf, hloop]
        · rw [← hplug]
          exact hag
    rw [root_node]
    cases hb : insertSide getKey d b with
    | left =>
      obtain ⟨m', hm'⟩ := key ⟨.left, b, k, r⟩ l rfl rfl hb.symm fun hl D fuel hD hn hf =>
        ihl hD hl hn hf
      exact ⟨m', by rw [Ctx.descend, hb]; exact hm'⟩
    | right =>
      obtain ⟨m', hm'⟩ := key ⟨.right, b, k, l⟩ r rfl rfl hb.symm fun hr D fuel hD hn hf =>
        ihr hD hr hn hf
      exact ⟨m', by rw [Ctx.descend, hb]; exact hm'⟩

end Down

/-! ## The way up -/

theorem plug_ne_nil (f : Frame Item) (s : AATree Item) : f.plug s ≠ .nil := by
  obtain ⟨side, b, k, t⟩ := f
  cases side <;> simp [Frame.plug]

theorem ne_nil_of_addrs {s s' : AATree Item} (h : addrs s' = addrs s) (hs : s ≠ .nil) :
    s' ≠ .nil := by
  rintro rfl
  cases s with
  | nil => exact hs rfl
  | node b k l r => simp at h

/-- One turn of the loop: the node at the focus is skewed and split. -/
theorem insertRepairLoop_step {m : Mem} {t : AndTree} {C : Ctx Item} {s : AATree Item}
    {steps : ℕ} (h : Focus m t C s) (hs : s ≠ .nil) (hsteps : (addrs s).length < steps) :
    ∃ m' t', Moves m t C s m' t' s.skew.split ∧ ∀ fuel,
      insertRepairLoop steps (fuel + 1) m t (root s) =
        insertRepairLoop steps fuel m' t' (above C) := by
  obtain ⟨m₁, t₁, hskew, hm₁⟩ := andtreeSkew_moves h hsteps
  obtain ⟨m₂, t₂, hsplit, hm₂⟩ := andtreeSplit_moves hm₁.focus (by rwa [addrs_skew])
  refine ⟨m₂, t₂, hm₁.trans hm₂ (addrs_skew s), fun fuel => ?_⟩
  have hne : s.skew.split ≠ .nil :=
    ne_nil_of_addrs ((addrs_split _).trans (addrs_skew s)) hs
  have hsub := hm₂.focus.sub
  obtain ⟨n, hn, hpar⟩ : ∃ n, m₂.get (root s.skew.split) = some n ∧ n.parent = above C := by
    cases hq : s.skew.split with
    | nil => exact absurd hq hne
    | node b k l r =>
      rw [hq] at hsub
      exact ⟨_, hsub.2.2.1, rfl⟩
  rw [insertRepairLoop, if_neg h.sub.root_ne_null]
  simp [hskew, hsplit, hn, hpar]

/-- **The way up of an insertion.** -/
theorem insertRepairLoop_moves {m : Mem} {t : AndTree} {C : Ctx Item} {s : AATree Item}
    {steps fuel : ℕ} (h : Focus m t C s) (hs : s ≠ .nil)
    (hsteps : (addrs (C.plug s)).length < steps) (hfuel : C.length + 1 < fuel) :
    ∃ m' t', insertRepairLoop steps fuel m t (root s) = some (m', t') ∧
      Moves m t [] (C.plug s) m' t' (AATree.repairInsert C s) := by
  induction C generalizing m t s fuel with
  | nil =>
    obtain ⟨fuel, rfl⟩ : ∃ n, fuel = n + 2 := ⟨fuel - 2, by omega⟩
    obtain ⟨m₁, t₁, hm₁, hloop⟩ := insertRepairLoop_step h hs hsteps
    exact ⟨m₁, t₁, by rw [hloop]; rfl, hm₁⟩
  | cons f C ih =>
    obtain ⟨fuel, rfl⟩ : ∃ n, fuel = n + 1 := ⟨fuel - 1, by omega⟩
    have hlen := length_addrs_plug (f :: C) s
    have hlts : (addrs s).length < steps := by omega
    obtain ⟨m₁, t₁, hm₁, hloop⟩ := insertRepairLoop_step h hs hlts
    have haddrs := addrs_plug_congr (f :: C) ((addrs_split s.skew).trans (addrs_skew s))
    have hlt : (addrs (Ctx.plug C (f.plug s.skew.split))).length < steps := by
      rw [← Ctx.plug, haddrs]
      exact hsteps
    rw [List.length_cons] at hfuel
    have hfuel' : C.length + 1 < fuel := by omega
    obtain ⟨m₂, t₂, hloop₂, hm₂⟩ := ih (hm₁.focus.up f) (plug_ne_nil _ _) hlt hfuel'
    rw [root_plug] at hloop₂
    refine ⟨m₂, t₂, by rw [hloop]; exact hloop₂, ?_⟩
    exact hm₁.to_root.trans hm₂ haddrs

/-! ## Insertion -/

theorem ctxAddrs_descend_perm (go : Item → Side) (s : AATree Item) :
    (ctxAddrs (Ctx.descend go s [])).Perm (addrs s) := by
  have h := addrs_plug_perm (Ctx.descend go s []) .nil
  rw [Ctx.plug_descend, Ctx.plug, addrs_nil, List.append_nil] at h
  exact h.symm

theorem mem_ctxAddrs_descend {go : Item → Side} {s : AATree Item} {p : Ptr} :
    p ∈ ctxAddrs (Ctx.descend go s []) ↔ p ∈ addrs s := (ctxAddrs_descend_perm go s).mem_iff

theorem length_ctxAddrs_descend (go : Item → Side) (s : AATree Item) :
    (ctxAddrs (Ctx.descend go s [])).length = s.toList.length := by
  rw [(ctxAddrs_descend_perm go s).length_eq, length_addrs]

/-- The tree after an insertion of the item `b`. -/
def inserted (getKey : Ptr → ℤ) (b : Item) (s : AATree Item) : AATree Item :=
  AATree.repairInsert (Ctx.descend (insertSide getKey b.data) s []) (.node b 1 .nil .nil)

theorem Repr.notMem_of_get {m : Mem} {par a : Ptr} {s : AATree Item} (h : Repr m par s)
    (ha : m.get a = none) : a ∉ addrs s := by
  induction s generalizing par with
  | nil => simp
  | node b k l r ihl ihr =>
    obtain ⟨-, -, hg, hl, hr⟩ := h
    have hne : a ≠ b.addr := by
      rintro rfl
      rw [hg] at ha
      cases ha
    simp [ihl hl, ihr hr, hne]

/-- **`andtree_insert` inserts into the tree.** -/
theorem andtreeInsert_eq {m : Mem} {t : AndTree} {s : AATree Item} (calloc : Allocator AndNode)
    (getKey : Ptr → ℤ) (d : Ptr) (h : Focus m t [] s) (hn : t.nodes = s.toList.length) :
    ∃ m' t' a, andtreeInsert calloc getKey m t d = some (m', t', a) ∧ m.get a = none ∧
      Focus m' t' [] (inserted getKey ⟨a, d⟩ s) ∧ t'.nodes = t.nodes + 1 ∧
      Store.AgreeOff (insert a (footprint s)) m m' := by
  have ha0 := calloc.ne_zero m
  have hfresh := calloc.fresh m
  set a := calloc.pick m with ha
  set m₀ := m.set a ⟨null, sentinel, sentinel, 1, d⟩ with hm₀
  have hget : ∀ p, p ≠ a → m₀.get p = m.get p := fun p hp => Store.get_set_of_ne _ hp _
  have hga : m₀.get a = some ⟨null, sentinel, sentinel, 1, d⟩ := Store.get_set_self _ ha0 _
  have has : a ≠ sentinel := by
    obtain ⟨p, e, hs⟩ := h.sent
    intro e
    rw [e, hs] at hfresh
    cases hfresh
  have hnew : a ∉ addrs s := h.sub.notMem_of_get hfresh
  have h₀ : Focus m₀ t [] s := by
    refine ⟨trivial, h.sub.frame fun p hp => hget p ?_, h.nodup, ?_, h.root_eq⟩
    · rintro rfl
      exact hnew hp
    · obtain ⟨p, e, hs⟩ := h.sent
      exact ⟨p, e, by rw [hget _ has.symm, hs]⟩
  -- the new node hangs at the position the comparisons lead to
  obtain ⟨m₁, t₁, hbin, hnodes, hfoc, hag⟩ : ∃ m₁ t₁,
      andtreeBinInsert getKey m₀ t a = some (m₁, t₁) ∧ t₁.nodes = t.nodes ∧
      Focus m₁ t₁ (Ctx.descend (insertSide getKey d) s []) (.node ⟨a, d⟩ 1 .nil .nil) ∧
      Store.AgreeOff (insert a (footprint s)) m₀ m₁ := by
    have hroot : t.root = root s := h.root_eq
    cases s with
    | nil =>
      refine ⟨m₀, { t with root := a }, ?_, rfl, ?_, .refl _ _⟩
      · simp [andtreeBinInsert, hroot, isNil_sentinel h₀.sent]
      · exact ⟨trivial, ⟨has, Nat.one_pos, hga, trivial, trivial⟩,
          by simp [Ctx.descend, ctxAddrs], h₀.sent, rfl⟩
    | node b k l r =>
      have hfuel : (addrs (.node b k l r)).length + 1 < t.fuel := by
        rw [length_addrs, ← hn, AndTree.fuel]
        omega
      obtain ⟨m₁, hloop, hfoc, hag⟩ := binInsertLoop_focus getKey h₀ (by simp) hga
        (by simpa [ctxAddrs] using hnew) has hfuel
      refine ⟨m₁, t, ?_, rfl, hfoc, hag⟩
      simp only [andtreeBinInsert, hroot, h₀.sub.isNil_node, root_node] at hloop ⊢
      simp [hloop]
  -- the way up
  have hlen := length_ctx_le (Ctx.descend (insertSide getKey d) s [])
  rw [length_ctxAddrs_descend, ← hn] at hlen
  have hsteps : (addrs (Ctx.plug (Ctx.descend (insertSide getKey d) s [])
      (.node ⟨a, d⟩ 1 .nil .nil))).length < t₁.fuel := by
    rw [length_addrs_plug, length_ctxAddrs_descend, ← hn, AndTree.fuel, hnodes]
    simp
  have hfuel : (Ctx.descend (insertSide getKey d) s []).length + 1 < t₁.fuel := by
    rw [AndTree.fuel]
    omega
  obtain ⟨m₂, t₂, hloop, hm₂⟩ := insertRepairLoop_moves hfoc (by simp) hsteps hfuel
  refine ⟨m₂, { t₂ with nodes := t₂.nodes + 1 }, a, ?_, hfresh, ?_, ?_, ?_⟩
  · rw [root_node] at hloop
    simp [andtreeInsert, makeAndnode, ← ha, ← hm₀, hbin, andtreeInsertRepair, hloop]
  · exact ⟨trivial, hm₂.focus.sub, hm₂.focus.nodup, hm₂.focus.sent, hm₂.focus.root_eq⟩
  · simp only [hm₂.nodes, hnodes]
  · have hfoot : footprint (Ctx.plug (Ctx.descend (insertSide getKey d) s [])
        (.node ⟨a, d⟩ 1 .nil .nil)) ⊆ insert a (footprint s) := by
      intro p hp
      rw [mem_footprint, (addrs_plug_perm _ _).mem_iff, List.mem_append,
        mem_ctxAddrs_descend] at hp
      simp only [addrs_node, addrs_nil, List.nil_append, List.mem_singleton] at hp
      rw [Set.mem_insert_iff, mem_footprint]
      tauto
    have hag₀ : Store.AgreeOff (insert a (footprint s)) m m₀ :=
      (Store.AgreeOff.refl _ m).set (Set.mem_insert _ _) _
    exact (hag₀.trans hag).trans (hm₂.agree.mono hfoot)

end C4OS.Andtree
