import C4OS.Foundations.AATree

/-!
# A search after an insertion

An insertion into an Andersson tree goes to the right of the items that are equal to the new one, so
that a search that stops at the first equal item may stop before it reaches the new item. The new
item is found when the repair has lifted it, or a subtree with it on the way of the search, above
every equal item that it went past.

Whether it has is decided by the tree before the insertion. On the way up the repair either raises
the subtree by a level, or gives its root a right horizontal link, or is over (`Growth`), and the
levels at each frame say which (`Growth.step`). An equal item is overtaken when its right child is
on its level and has got a right horizontal link, and the search does not go to the left from there
(`Growth.Overtakes`). `search_repairInsert_iff` is the result for a whole position.
-/

namespace C4OS.Foundations

variable {β : Type*}

namespace AATree

/-- The item a search from the root stops at. At each item `go` says on which side it goes on, if it
does not stop there. -/
def search (go : β → Option Side) : AATree β → Option β
  | nil => none
  | node b _ l r =>
    match go b with
    | none => some b
    | some .left => l.search go
    | some .right => r.search go

/-- The way a search goes on at the root. -/
def turn (go : β → Option Side) : AATree β → Option Side
  | nil => none
  | node b _ _ _ => go b

section Search

variable {go : β → Option Side} {b c : β} {j k : ℕ} {l r x y z : AATree β}

theorem search_stop (h : go b = none) : (node b k l r).search go = some b := by
  simp [search, h]

theorem search_left (h : go b = some .left) : (node b k l r).search go = l.search go := by
  simp [search, h]

theorem search_right (h : go b = some .right) : (node b k l r).search go = r.search go := by
  simp [search, h]

/-- A rotation to the right at an item from which the search goes to the left. -/
theorem search_lift_left (h : go b = some .left) :
    (node c j x (node b k y r)).search go = (node c j x y).search go := by
  simp only [search, h]

/-- A rotation to the left at an item from which the search goes to the right. -/
theorem search_lift_right (h : go b = some .right) :
    (node c j (node b k l y) z).search go = (node c j y z).search go := by
  simp only [search, h]

end Search

theorem search_mem {go : β → Option Side} {b : β} {t : AATree β} (h : t.search go = some b) :
    b ∈ t.toList := by
  induction t with
  | nil => cases h
  | node c k l r ihl ihr =>
    rw [toList_node, List.mem_append, List.mem_cons]
    cases hc : go c with
    | none => exact .inr (.inl (Option.some.inj ((search_stop hc).symm.trans h)).symm)
    | some side =>
      cases side with
      | left => exact .inl (ihl ((search_left hc).symm.trans h))
      | right => exact .inr (.inr (ihr ((search_right hc).symm.trans h)))

end AATree

namespace Ctx

/-- Each frame of a descent is turned to the side its item says. -/
theorem mem_descend {go : β → Side} {t : AATree β} {C : Ctx β} {f : Frame β}
    (h : f ∈ descend go t C) : f ∈ C ∨ f.item ∈ t.toList ∧ f.side = go f.item := by
  induction t generalizing C with
  | nil => exact .inl h
  | node b k l r ihl ihr =>
    rw [AATree.toList_node, List.mem_append, List.mem_cons]
    rw [descend] at h
    cases hb : go b with
    | left =>
      rw [hb] at h
      rcases ihl h with h | ⟨hmem, hside⟩
      · rcases List.mem_cons.1 h with rfl | h
        · exact .inr ⟨.inr (.inl rfl), hb.symm⟩
        · exact .inl h
      · exact .inr ⟨.inl hmem, hside⟩
    | right =>
      rw [hb] at h
      rcases ihr h with h | ⟨hmem, hside⟩
      · rcases List.mem_cons.1 h with rfl | h
        · exact .inr ⟨.inr (.inl rfl), hb.symm⟩
        · exact .inl h
      · exact .inr ⟨.inr (.inr hmem), hside⟩

theorem descend_congr {go go' : β → Side} {t : AATree β} (h : ∀ b ∈ t.toList, go b = go' b)
    (C : Ctx β) : descend go t C = descend go' t C := by
  induction t generalizing C with
  | nil => rfl
  | node b k l r ihl ihr =>
    have hl := ihl fun c hc => h c (by simp [hc])
    have hr := ihr fun c hc => h c (by simp [hc])
    simp only [descend, h b (by simp), hl, hr]

end Ctx

open AATree

/-- What an insertion does to a subtree: it is one level higher, or on its level with a new right
horizontal link, each time with the way a search now goes on at the root, or there is nothing to
repair any more. -/
inductive Growth
  | raised (turn : Option Side)
  | linked (turn : Option Side)
  | settled

namespace Growth

/-- What it then does to the subtree around a frame; `k` is the level of the subtree before. -/
def step (go : β → Option Side) : Growth → ℕ → Frame β → Growth
  | raised turn, _, ⟨.left, b, j, r⟩ => if r.level = j then raised (go b) else linked turn
  | raised _, _, ⟨.right, b, _, _⟩ => linked (go b)
  | linked turn, k, ⟨.right, _, j, _⟩ => if k = j then raised turn else settled
  | _, _, _ => settled

/-- The new item gets above the item of the frame on the way of the search. -/
def Overtakes : Growth → ℕ → Frame β → Prop
  | linked turn, k, ⟨.right, _, j, _⟩ => k = j ∧ turn ≠ some .left
  | _, _, _ => False

/-- The new item gets above every item of the position at which the search stops. -/
def Clears (go : β → Option Side) : Growth → ℕ → Ctx β → Prop
  | _, _, [] => True
  | g, k, f :: C => (go f.item = none → g.Overtakes k f) ∧ Clears go (g.step go k f) f.level C

instance (g : Growth) (k : ℕ) (f : Frame β) : Decidable (g.Overtakes k f) := by
  unfold Overtakes
  split <;> infer_instance

instance decidableClears (go : β → Option Side) :
    (g : Growth) → (k : ℕ) → (C : Ctx β) → Decidable (g.Clears go k C)
  | _, _, [] => inferInstanceAs (Decidable True)
  | g, k, f :: C =>
    have := decidableClears go (g.step go k f) f.level C
    inferInstanceAs (Decidable ((go f.item = none → g.Overtakes k f) ∧ _))

/-- The insertion takes the subtree `t` to `t'` in this way. -/
def Describes (go : β → Option Side) : Growth → AATree β → AATree β → Prop
  | raised turn, t, t' => t'.level = t.level + 1 ∧ t'.right.level + 1 = t'.level ∧
      t.right.level = t.level ∧ t'.turn go = turn
  | linked turn, t, t' => t'.level = t.level ∧ t'.right.level = t'.level ∧
      t.right.level < t.level ∧ t'.turn go = turn
  | settled, t, t' => t'.level = t.level ∧ t'.right.level = t.right.level

variable {go : β → Option Side} {g : Growth} {t t' : AATree β} {b n : β} {j k : ℕ}
  {l r : AATree β}

/-- What the repair of a frame does to the search: from an item where it does not stop it goes on to
the same result, and an item where it stops is overtaken or found. -/
def Follows (go : β → Option Side) (f : Frame β) (g : Growth) (k : ℕ) (t' s : AATree β) : Prop :=
  (go f.item = some f.side → s.search go = t'.search go) ∧
    (go f.item = none → g.Overtakes k f → s.search go = t'.search go) ∧
    (go f.item = none → f.side = .right → ¬g.Overtakes k f → s.search go = some f.item)

/-- A frame at which nothing is rotated. -/
theorem follows_plug {f : Frame β} (hg : ¬g.Overtakes k f) :
    Follows go f g k t' (f.plug t') := by
  obtain ⟨side, b, j, s⟩ := f
  refine ⟨fun h => ?_, fun _ hover => absurd hover hg, fun h _ _ => ?_⟩
  · cases side with
    | left => exact search_left h
    | right => exact search_right h
  · cases side with
    | left => exact search_stop h
    | right => exact search_stop h

theorem plug_eq_self {f : Frame β} (hl : f.side = .left → t'.level < f.level)
    (hr : f.side = .right → t'.right.level < f.level) (hp : (f.plug t).Balanced) :
    (f.plug t').skew.split = f.plug t' := by
  obtain ⟨side, b, j, s⟩ := f
  cases side with
  | left =>
    obtain ⟨-, -, -, -, hs⟩ := balanced_node.1 hp
    exact (congrArg split (skew_of_level_lt (hl rfl))).trans (split_of_level_lt hs)
  | right =>
    obtain ⟨-, -, hs, -, -⟩ := balanced_node.1 hp
    dsimp only at hs
    exact (congrArg split (skew_of_level_lt (show s.level < j by omega))).trans
      (split_of_level_lt (hr rfl))

/-- A raised subtree on the left of a node: it is skewed, and split where the sibling is on the
level of the node. -/
theorem describes_step_left {turn : Option Side} {s : AATree β}
    (h : (raised turn).Describes go t t') (hp : (node b j t s).Balanced) :
    ((raised turn).step go t.level ⟨.left, b, j, s⟩).Describes go (node b j t s)
        (node b j t' s).skew.split ∧
      Follows go ⟨.left, b, j, s⟩ (raised turn) t.level t' (node b j t' s).skew.split := by
  obtain ⟨-, hs, htj, hsj, -⟩ := balanced_node.1 hp
  obtain ⟨hlev, hright, -, hturn⟩ := h
  cases t' with
  | nil => simp at hlev
  | node c i x y =>
    simp only [level_node, right_node] at hlev hright
    obtain rfl : i = j := by omega
    obtain rfl : go c = turn := hturn
    rw [skew_of_level_eq (by omega)]
    rcases hsj with hsj | hsj
    · -- the sibling is on the level of the node: skewed, then split
      rw [split_of_level_eq hsj, hs.split_eq]
      refine ⟨?_, fun hgo => ?_, fun _ hover => hover.elim, fun _ hside => by cases hside⟩
      · rw [Growth.step, if_pos hsj]
        refine ⟨rfl, ?_, hsj, rfl⟩
        simp only [right_node, level_node, hsj]
      · exact search_left hgo
    · -- the sibling is lower: skewed only
      rw [split_of_level_lt (by simp only [right_node]; omega)]
      refine ⟨?_, fun hgo => ?_, fun _ hover => hover.elim, fun _ hside => by cases hside⟩
      · rw [Growth.step, if_neg (by omega)]
        exact ⟨rfl, rfl, by simp only [right_node, level_node]; omega, rfl⟩
      · exact search_lift_left hgo

/-- Two right horizontal links: the node is split, and the root of the subtree gets above it. -/
theorem describes_step_right {turn : Option Side} {s : AATree β}
    (h : (linked turn).Describes go t t') (hb : t'.Balanced) (hp : (node b j s t).Balanced)
    (hj : t.level = j) :
    ((linked turn).step go t.level ⟨.right, b, j, s⟩).Describes go (node b j s t)
        (node b j s t').skew.split ∧
      Follows go ⟨.right, b, j, s⟩ (linked turn) t.level t' (node b j s t').skew.split := by
  obtain ⟨-, -, hsj, -, -⟩ := balanced_node.1 hp
  obtain ⟨hlev, hright, hlink, hturn⟩ := h
  cases t' with
  | nil => simp only [level_nil] at hlev; omega
  | node c i y z =>
    obtain rfl : go c = turn := hturn
    simp only [level_node, right_node] at hlev hright
    obtain ⟨-, hz, -, -, hzz⟩ := balanced_node.1 hb
    rw [skew_of_level_lt (by omega), split_of_level_eq (by omega), hz.split_eq]
    refine ⟨?_, fun hgo => ?_, fun hgo hover => ?_, fun hgo _ hover => ?_⟩
    · rw [Growth.step, if_pos hj]
      refine ⟨?_, ?_, hj, rfl⟩
      · simp only [level_node]; omega
      · simp only [right_node, level_node]; omega
    · exact search_lift_right hgo
    · simp only [search, hgo]
      rcases hc : go c with _ | _ | _
      · rfl
      · exact absurd hc hover.2
      · rfl
    · have hc : go c = some .left := by
        by_contra hc
        exact hover ⟨hj, hc⟩
      exact (search_left hc).trans (search_stop hgo)

/-- **One frame of the repair.** -/
theorem Describes.step {f : Frame β} (h : g.Describes go t t') (hb : t'.Balanced)
    (hp : (f.plug t).Balanced) :
    (g.step go t.level f).Describes go (f.plug t) (f.plug t').skew.split ∧
      Follows go f g t.level t' (f.plug t').skew.split := by
  have hle := hb.right_level_le
  obtain ⟨side, b, j, s⟩ := f
  cases side with
  | left =>
    obtain ⟨-, -, htj, -, -⟩ := balanced_node.1 hp
    dsimp only at htj
    -- nothing happens where the subtree is not raised
    have hplug (hlev : t'.level = t.level) := plug_eq_self (f := ⟨.left, b, j, s⟩)
      (fun _ => show t'.level < j by omega) (fun e => by cases e) hp
    cases g with
    | raised turn => exact describes_step_left h hp
    | linked turn =>
      rw [hplug h.1]
      exact ⟨⟨rfl, rfl⟩, follows_plug not_false⟩
    | settled =>
      rw [hplug h.1]
      exact ⟨⟨rfl, rfl⟩, follows_plug not_false⟩
  | right =>
    obtain ⟨-, -, hsj, htj, htt⟩ := balanced_node.1 hp
    dsimp only at hsj htj htt
    -- nothing happens where the right child of the subtree is below the node
    have hplug (hlow : t'.right.level < j) := plug_eq_self (f := ⟨.right, b, j, s⟩)
      (fun e => by cases e) (fun _ => hlow) hp
    cases g with
    | raised turn =>
      obtain ⟨hlev, hright, hlink, -⟩ := h
      rw [hplug (by omega)]
      refine ⟨⟨rfl, ?_, ?_, rfl⟩, follows_plug not_false⟩
      · simp only [Frame.plug, right_node, level_node]; omega
      · simp only [Frame.plug, right_node, level_node]; omega
    | linked turn =>
      by_cases hj : t.level = j
      · exact describes_step_right h hb hp hj
      · obtain ⟨hlev, hright, -, -⟩ := h
        rw [hplug (by omega)]
        refine ⟨?_, follows_plug fun hover => hj hover.1⟩
        rw [Growth.step, if_neg hj]
        exact ⟨rfl, by simp only [Frame.plug, right_node]; omega⟩
    | settled =>
      obtain ⟨hlev, hright⟩ := h
      rw [hplug (by omega)]
      exact ⟨⟨rfl, by simp only [Frame.plug, right_node]; omega⟩, follows_plug not_false⟩

/-- The side of a frame is the one the search goes on to, and the right one where it stops. -/
def Leads (go : β → Option Side) (f : Frame β) : Prop :=
  go f.item = some f.side ∨ go f.item = none ∧ f.side = .right

theorem Follows.search_iff {f : Frame β} {s : AATree β} (h : Follows go f g k t' s)
    (hf : Leads go f) (hn : f.item ≠ n) : s.search go = some n ↔
      t'.search go = some n ∧ (go f.item = none → g.Overtakes k f) := by
  obtain ⟨hon, hover, hstop⟩ := h
  rcases hf with hf | ⟨hf, hside⟩
  · rw [hon hf]
    simp [hf]
  · by_cases hg : g.Overtakes k f
    · rw [hover hf hg]
      simp [hg]
    · rw [hstop hf hside hg]
      simp [hf, hg, hn]

/-- The search in a tree after the repair of a position. -/
theorem Describes.search_repairInsert {C : Ctx β} (h : g.Describes go t t'.skew.split)
    (hg : Grows t t'.skew.split) (hp : (C.plug t).Balanced) (hC : ∀ f ∈ C, Leads go f)
    (hn : ∀ f ∈ C, f.item ≠ n) : (repairInsert C t').search go = some n ↔
      t'.skew.split.search go = some n ∧ g.Clears go t.level C := by
  induction C generalizing g t t' with
  | nil => simp [repairInsert, Clears]
  | cons f C ih =>
    obtain ⟨hf, hC⟩ := List.forall_mem_cons.1 hC
    obtain ⟨hnf, hn⟩ := List.forall_mem_cons.1 hn
    have hplug : (f.plug t).Balanced := Ctx.balanced_of_plug (C := C) hp
    obtain ⟨hstep, hfollow⟩ := h.step hg.1 hplug
    have hlev : (f.plug t).level = f.level := by
      obtain ⟨side, b, j, s⟩ := f
      cases side <;> rfl
    rw [repairInsert, ih hstep (hg.step hplug) hp hC hn, hfollow.search_iff hf hnf, hlev, Clears,
      and_assoc]

/-- **A search after an insertion.** It finds the new item exactly when the repair lifts the new
item above every item on its way down at which the search stops. -/
theorem search_repairInsert_iff {C : Ctx β} (hp : (C.plug nil).Balanced)
    (hC : ∀ f ∈ C, Leads go f) (hn : ∀ f ∈ C, f.item ≠ n) (hgo : go n = none) :
    (repairInsert C (node n 1 nil nil)).search go = some n ↔ (raised none).Clears go 0 C := by
  have hb : (node n 1 nil nil : AATree β).Balanced := by simp [balanced_node]
  have hself : (node n 1 nil nil : AATree β).skew.split = node n 1 nil nil := by
    rw [hb.skew_eq, hb.split_eq]
  have hdesc : (raised none).Describes go nil (node n 1 nil nil : AATree β).skew.split := by
    rw [hself]
    exact ⟨rfl, rfl, rfl, hgo⟩
  rw [hdesc.search_repairInsert (grows_leaf n) hp hC hn, hself]
  exact and_iff_right (search_stop hgo)

/-- The items of the position matter only by the way the search goes on at them. -/
theorem clears_congr {go' : β → Option Side} {C : Ctx β} (h : ∀ f ∈ C, go f.item = go' f.item)
    (g : Growth) (k : ℕ) : g.Clears go k C ↔ g.Clears go' k C := by
  induction C generalizing g k with
  | nil => exact Iff.rfl
  | cons f C ih =>
    obtain ⟨hf, hC⟩ := List.forall_mem_cons.1 h
    have hstep : g.step go k f = g.step go' k f := by
      obtain ⟨side, b, j, s⟩ := f
      cases g <;> cases side <;> simp only [step, show go b = go' b from hf]
    rw [Clears, Clears, hf, hstep, ih hC]

end Growth

end C4OS.Foundations
