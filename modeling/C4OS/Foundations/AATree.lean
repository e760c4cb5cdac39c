import Mathlib.Data.List.Basic
import Mathlib.Data.Nat.Notation

/-!
# Andersson trees

Binary trees whose nodes carry an item and a level, the balance condition of Andersson trees, and
the two rotations that restore it: `skew` removes left horizontal links, `split` removes double
right horizontal links. `lower` is the repair of one node after a deletion below it: the level is
decreased, then the node is skewed and split, its left child is split and the node is skewed again.

A position in a tree is a list of frames (`Ctx`), the innermost first. An insertion puts a leaf at
a position and repairs upwards (`repairInsert`); a deletion takes a leaf away and repairs upwards
(`repairRemove`). `Grows` and `Shrinks` say how such a repair may change the subtree it is done
with: `Grows.step` and `Shrinks.step` carry them over one frame and `Grows.repairInsert`,
`Shrinks.repairRemove` over a whole position. The in-order list of items is left alone by all of
this (`toList_skew`, `toList_split`, `toList_lower`).
-/

namespace C4OS.Foundations

variable {β : Type*}

/-- Binary trees with an item and a level at every node. -/
inductive AATree (β : Type*)
  | nil
  | node (item : β) (level : ℕ) (left right : AATree β)

namespace AATree

/-- The level of the root, `0` for the empty tree. -/
def level : AATree β → ℕ
  | nil => 0
  | node _ k _ _ => k

/-- The right subtree. -/
def right : AATree β → AATree β
  | nil => nil
  | node _ _ _ r => r

/-- The items in order. -/
def toList : AATree β → List β
  | nil => []
  | node b _ l r => l.toList ++ b :: r.toList

/-- The tree with its root at level `k`. -/
def setLevel (k : ℕ) : AATree β → AATree β
  | nil => nil
  | node b _ l r => node b k l r

/-- The tree with its left subtree changed by `f`. -/
def mapLeft (f : AATree β → AATree β) : AATree β → AATree β
  | nil => nil
  | node b k l r => node b k (f l) r

@[simp] theorem level_nil : (nil : AATree β).level = 0 := rfl
@[simp] theorem level_node (b : β) (k : ℕ) (l r : AATree β) : (node b k l r).level = k := rfl
@[simp] theorem right_nil : (nil : AATree β).right = nil := rfl
@[simp] theorem right_node (b : β) (k : ℕ) (l r : AATree β) : (node b k l r).right = r := rfl
@[simp] theorem toList_nil : (nil : AATree β).toList = [] := rfl
@[simp] theorem toList_node (b : β) (k : ℕ) (l r : AATree β) :
    (node b k l r).toList = l.toList ++ b :: r.toList := rfl

theorem toList_setLevel (k : ℕ) (t : AATree β) : (t.setLevel k).toList = t.toList := by
  cases t <;> rfl

theorem toList_mapLeft {f : AATree β → AATree β} (hf : ∀ t, (f t).toList = t.toList)
    (t : AATree β) : (t.mapLeft f).toList = t.toList := by
  cases t with
  | nil => rfl
  | node b k l r => simp [mapLeft, hf]

/-! ## Balance -/

/-- The balance condition: a left child is one level below its parent, a right child on the level
of its parent or one below, and a right grandchild below its grandparent. -/
def Balanced : AATree β → Prop
  | nil => True
  | node _ k l r => l.Balanced ∧ r.Balanced ∧ l.level + 1 = k ∧
      (r.level = k ∨ r.level + 1 = k) ∧ r.right.level < k

@[simp] theorem balanced_nil : (nil : AATree β).Balanced := trivial

theorem balanced_node {b : β} {k : ℕ} {l r : AATree β} :
    (node b k l r).Balanced ↔ l.Balanced ∧ r.Balanced ∧ l.level + 1 = k ∧
      (r.level = k ∨ r.level + 1 = k) ∧ r.right.level < k := Iff.rfl

theorem Balanced.right_level_le {t : AATree β} (h : t.Balanced) : t.right.level ≤ t.level := by
  cases t with
  | nil => simp
  | node b k l r =>
    rw [balanced_node] at h
    simp only [right_node, level_node]
    omega

theorem Balanced.eq_nil {t : AATree β} (h : t.Balanced) (h0 : t.level = 0) : t = nil := by
  cases t with
  | nil => rfl
  | node b k l r =>
    rw [balanced_node] at h
    simp only [level_node] at h0
    omega

/-- A balanced node on level one without a right child is a leaf. -/
theorem Balanced.left_eq_nil {b : β} {k : ℕ} {l : AATree β} (h : (node b k l nil).Balanced) :
    l = nil ∧ k = 1 := by
  obtain ⟨hl, -, hk, hr, -⟩ := balanced_node.1 h
  simp only [level_nil] at hr
  have hl0 : l.level = 0 := by omega
  exact ⟨hl.eq_nil hl0, by omega⟩

/-! ## Rotations -/

/-- `skew` of a node with left subtree `l`, by recursion on `l`. -/
def skewLeft (b : β) (k : ℕ) (r : AATree β) : AATree β → AATree β
  | nil => node b k nil r
  | node c j x y => if j = k then node c j x (skewLeft b k r y) else node b k (node c j x y) r

/-- Rotate right while the left child is on the level of its parent. -/
def skew : AATree β → AATree β
  | nil => nil
  | node b k l r => skewLeft b k r l

/-- Rotate left while the right grandchild is on the level of its grandparent, and raise the new
root of each rotation. -/
def split : AATree β → AATree β
  | node b k x (node c j y z) =>
    if k = z.level then node c (j + 1) (node b k x y) (split z) else node b k x (node c j y z)
  | t => t

/-- The repair of a node after a deletion below it. -/
def lower : AATree β → AATree β
  | nil => nil
  | node b k l r =>
    if l.level < k - 1 ∨ r.level < k - 1 then
      let r := if k - 1 < r.level then r.setLevel (k - 1) else r
      ((skew (node b (k - 1) l r)).split.mapLeft split).skew
    else node b k l r

theorem toList_skewLeft (b : β) (k : ℕ) (r l : AATree β) :
    (skewLeft b k r l).toList = l.toList ++ b :: r.toList := by
  induction l with
  | nil => rfl
  | node c j x y _ ih =>
    unfold skewLeft
    split
    · simp [ih]
    · simp

theorem toList_skew (t : AATree β) : t.skew.toList = t.toList := by
  cases t with
  | nil => rfl
  | node b k l r => exact toList_skewLeft b k r l

theorem toList_split (t : AATree β) : t.split.toList = t.toList := by
  fun_induction split t with
  | case1 b x c j y z ih => simp [ih]
  | case2 => rfl
  | case3 => rfl

theorem toList_lower (t : AATree β) : t.lower.toList = t.toList := by
  cases t with
  | nil => rfl
  | node b k l r =>
    simp only [lower]
    split
    · rw [toList_skew, toList_mapLeft toList_split, toList_split, toList_skew]
      split
      · rw [toList_node, toList_node, toList_setLevel]
      · rfl
    · rfl

/-- A node whose left child is below it is not skewed. -/
theorem skew_of_level_lt {b : β} {k : ℕ} {l r : AATree β} (h : l.level < k) :
    (node b k l r).skew = node b k l r := by
  cases l with
  | nil => rfl
  | node c j x y =>
    simp only [level_node] at h
    simp [skew, skewLeft, show j ≠ k by omega]

/-- A node whose left child is on its level and has a lower right child is skewed once. -/
theorem skew_of_level_eq {b c : β} {k : ℕ} {x y r : AATree β} (h : y.level < k) :
    (node b k (node c k x y) r).skew = node c k x (node b k y r) := by
  have := skew_of_level_lt (b := b) (r := r) h
  simp only [skew] at this
  simp [skew, skewLeft, this]

/-- A node whose right grandchild is below it is not split. -/
theorem split_of_level_lt {b : β} {k : ℕ} {l r : AATree β} (h : r.right.level < k) :
    (node b k l r).split = node b k l r := by
  cases r with
  | nil => simp [split]
  | node c j y z =>
    simp only [right_node] at h
    simp [split, show k ≠ z.level by omega]

/-- A node whose right child and grandchild are on its level is split. -/
theorem split_of_level_eq {b c : β} {k j : ℕ} {x y z : AATree β} (h : z.level = k) :
    (node b k x (node c j y z)).split = node c (j + 1) (node b k x y) z.split := by
  simp [split, h]

theorem Balanced.skew_eq {t : AATree β} (h : t.Balanced) : t.skew = t := by
  cases t with
  | nil => rfl
  | node b k l r =>
    obtain ⟨-, -, hl, -⟩ := balanced_node.1 h
    exact skew_of_level_lt (by omega)

theorem Balanced.split_eq {t : AATree β} (h : t.Balanced) : t.split = t := by
  cases t with
  | nil => rfl
  | node b k l r =>
    obtain ⟨-, -, -, -, hr⟩ := balanced_node.1 h
    exact split_of_level_lt hr

end AATree

/-! ## Positions -/

/-- The two sides of a node. -/
inductive Side
  | left
  | right
  deriving DecidableEq

/-- The other side. -/
def Side.flip : Side → Side
  | .left => .right
  | .right => .left

@[simp] theorem Side.flip_flip (s : Side) : s.flip.flip = s := by cases s <;> rfl

/-- A node with one subtree taken out, on `side`. -/
structure Frame (β : Type*) where
  side : Side
  item : β
  level : ℕ
  sibling : AATree β

namespace Frame

/-- Put a subtree back. -/
def plug (f : Frame β) (t : AATree β) : AATree β :=
  match f.side with
  | .left => .node f.item f.level t f.sibling
  | .right => .node f.item f.level f.sibling t

end Frame

/-- A position in a tree: the frames from the position up to the root. -/
abbrev Ctx (β : Type*) := List (Frame β)

namespace Ctx

/-- The tree with `t` at the position. -/
def plug : Ctx β → AATree β → AATree β
  | [], t => t
  | f :: C, t => plug C (f.plug t)

/-- The items in front of the position. -/
def before : Ctx β → List β
  | [] => []
  | ⟨.left, _, _, _⟩ :: C => before C
  | ⟨.right, b, _, l⟩ :: C => before C ++ (l.toList ++ [b])

/-- The items after the position. -/
def after : Ctx β → List β
  | [] => []
  | ⟨.left, b, _, r⟩ :: C => b :: r.toList ++ after C
  | ⟨.right, _, _, _⟩ :: C => after C

theorem toList_plug (C : Ctx β) (t : AATree β) :
    (plug C t).toList = before C ++ t.toList ++ after C := by
  induction C generalizing t with
  | nil => simp [plug, before, after]
  | cons f C ih =>
    obtain ⟨side, b, k, s⟩ := f
    rw [plug, ih]
    cases side <;> simp [Frame.plug, before, after]

theorem balanced_of_plug {C : Ctx β} {t : AATree β} (h : (plug C t).Balanced) : t.Balanced := by
  induction C generalizing t with
  | nil => exact h
  | cons f C ih =>
    have hf := ih h
    obtain ⟨side, b, k, s⟩ := f
    cases side with
    | left => exact (AATree.balanced_node.1 hf).1
    | right => exact (AATree.balanced_node.1 hf).2.1

/-- The position reached from `C` by turning at every node to the side `go` says, down to an
empty subtree. -/
def descend (go : β → Side) : AATree β → Ctx β → Ctx β
  | .nil, C => C
  | .node b k l r, C =>
    match go b with
    | .left => descend go l (⟨.left, b, k, r⟩ :: C)
    | .right => descend go r (⟨.right, b, k, l⟩ :: C)

theorem plug_descend (go : β → Side) (t : AATree β) (C : Ctx β) :
    plug (descend go t C) .nil = plug C t := by
  induction t generalizing C with
  | nil => rfl
  | node b k l r ihl ihr =>
    unfold descend
    cases hb : go b with
    | left => exact ihl _
    | right => exact ihr _

/-- When the items that turn left come after the items that turn right, the descent ends between
the two. -/
theorem descend_between (go : β → Side) (t : AATree β) (C : Ctx β)
    (hsorted : t.toList.Pairwise fun x y => go x = .left → go y = .left) :
    before (descend go t C) = before C ++ t.toList.filter (go · = .right) ∧
      after (descend go t C) = t.toList.filter (go · = .left) ++ after C := by
  induction t generalizing C with
  | nil => simp [descend]
  | node b k l r ihl ihr =>
    rw [AATree.toList_node, List.pairwise_append, List.pairwise_cons] at hsorted
    obtain ⟨hl, ⟨hbr, hr⟩, hlb⟩ := hsorted
    unfold descend
    cases hb : go b with
    | left =>
      obtain ⟨h1, h2⟩ := ihl (⟨.left, b, k, r⟩ :: C) hl
      have hrl : ∀ y ∈ r.toList, go y = .left := fun y hy => hbr y hy hb
      have hr0 : r.toList.filter (go · = .right) = [] :=
        List.filter_eq_nil_iff.2 fun y hy => by simp [hrl y hy]
      have hr1 : r.toList.filter (go · = .left) = r.toList :=
        List.filter_eq_self.2 fun y hy => by simp [hrl y hy]
      simp [h1, h2, before, after, hb, hr0, hr1]
    | right =>
      obtain ⟨h1, h2⟩ := ihr (⟨.right, b, k, l⟩ :: C) hr
      have hll : ∀ x ∈ l.toList, go x = .right := fun x hx => by
        cases hx' : go x with
        | left => simpa [hb] using hlb x hx b (by simp) hx'
        | right => rfl
      have hl0 : l.toList.filter (go · = .left) = [] :=
        List.filter_eq_nil_iff.2 fun y hy => by simp [hll y hy]
      have hl1 : l.toList.filter (go · = .right) = l.toList :=
        List.filter_eq_self.2 fun y hy => by simp [hll y hy]
      simp [h1, h2, before, after, hb, hl0, hl1]

end Ctx

namespace AATree

/-! ## Repair after an insertion -/

/-- `t'` may replace `t` after an insertion into `t`: it is balanced, and it is higher than `t`
only if `t` had a right horizontal link, and then it has none. -/
def Grows (t t' : AATree β) : Prop :=
  t'.Balanced ∧ (t'.level = t.level ∨
    t'.level = t.level + 1 ∧ t'.right.level + 1 = t'.level ∧ t.right.level = t.level)

theorem Grows.step_left {b : β} {k : ℕ} {t t' r : AATree β} (h : Grows t t')
    (hp : (node b k t r).Balanced) : Grows (node b k t r) (node b k t' r).skew.split := by
  obtain ⟨hb, hlev⟩ := h
  obtain ⟨-, hr, htk, hrk, hrr⟩ := balanced_node.1 hp
  rcases hlev with hlev | ⟨hlev, hright, -⟩
  · -- the level is as before: nothing to repair
    have hb' : (node b k t' r).Balanced := ⟨hb, hr, by omega, hrk, hrr⟩
    rw [hb'.skew_eq, hb'.split_eq]
    exact ⟨hb', .inl rfl⟩
  · -- a left horizontal link
    cases t' with
    | nil => simp at hlev
    | node c j x y =>
      simp only [level_node, right_node] at hlev hright
      obtain rfl : j = k := by omega
      obtain ⟨hx, hy, hxj, -, hyr⟩ := balanced_node.1 hb
      have hyr' := hy.right_level_le
      rw [skew_of_level_eq (by omega)]
      rcases hrk with hrk | hrk
      · -- the right child is on the level of the node: split
        rw [split_of_level_eq hrk, hr.split_eq]
        refine ⟨⟨⟨hx, hy, hxj, .inr hright, by omega⟩, hr, rfl, .inr (by omega), by omega⟩,
          .inr ⟨rfl, ?_, hrk⟩⟩
        simp only [right_node, level_node, hrk]
      · rw [split_of_level_lt (by simp only [right_node]; omega)]
        refine ⟨⟨hx, ⟨hy, hr, hright, .inr hrk, hrr⟩, hxj, .inl rfl, ?_⟩, .inl rfl⟩
        simp only [right_node]
        omega

theorem Grows.step_right {b : β} {k : ℕ} {t t' l : AATree β} (h : Grows t t')
    (hp : (node b k l t).Balanced) : Grows (node b k l t) (node b k l t').skew.split := by
  obtain ⟨hb, hlev⟩ := h
  obtain ⟨hl, -, hlk, htk, htr⟩ := balanced_node.1 hp
  rw [skew_of_level_lt (by omega)]
  have hle := hb.right_level_le
  by_cases hdouble : t'.right.level < k
  · rw [split_of_level_lt hdouble]
    exact ⟨⟨hl, hb, hlk, by omega, hdouble⟩, .inl rfl⟩
  · -- two right horizontal links
    cases t' with
    | nil => simp only [right_nil, level_nil] at hdouble; omega
    | node c j y z =>
      simp only [level_node, right_node] at hlev hle hdouble
      obtain ⟨hy, hz, hyj, -, hzr⟩ := balanced_node.1 hb
      have hzk : z.level = k := by omega
      obtain rfl : j = k := by omega
      rw [split_of_level_eq hzk, hz.split_eq]
      refine ⟨⟨⟨hl, hy, hlk, .inr hyj, ?_⟩, hz, rfl, .inr (by omega), by omega⟩,
        .inr ⟨rfl, ?_, ?_⟩⟩
      · have := hy.right_level_le; omega
      · simp only [right_node, level_node, hzk]
      · simp only [right_node, level_node]; omega

theorem Grows.step {f : Frame β} {t t' : AATree β} (h : Grows t t') (hp : (f.plug t).Balanced) :
    Grows (f.plug t) (f.plug t').skew.split := by
  obtain ⟨side, b, k, s⟩ := f
  cases side with
  | left => exact h.step_left hp
  | right => exact h.step_right hp

/-- Skew and split the subtree at a position and every node above it. -/
def repairInsert : Ctx β → AATree β → AATree β
  | [], t => t.skew.split
  | f :: C, t => repairInsert C (f.plug t.skew.split)

theorem toList_repairInsert (C : Ctx β) (t : AATree β) :
    (repairInsert C t).toList = (C.plug t).toList := by
  induction C generalizing t with
  | nil => rw [repairInsert, toList_split, toList_skew]; rfl
  | cons f C ih =>
    rw [repairInsert, ih, Ctx.plug, Ctx.toList_plug, Ctx.toList_plug]
    obtain ⟨side, b, k, s⟩ := f
    cases side <;> simp [Frame.plug, toList_split, toList_skew]

/-- **The repair after an insertion balances the tree.** -/
theorem Grows.repairInsert {C : Ctx β} {t t' : AATree β} (h : Grows t t'.skew.split)
    (hp : (C.plug t).Balanced) : Grows (C.plug t) (repairInsert C t') := by
  induction C generalizing t t' with
  | nil => exact h
  | cons f C ih => exact ih (h.step (Ctx.balanced_of_plug hp)) hp

theorem grows_leaf (b : β) : Grows nil (node b 1 nil nil).skew.split := by
  have hb : (node b 1 nil nil).Balanced := by simp [balanced_node]
  rw [hb.skew_eq, hb.split_eq]
  exact ⟨hb, .inr ⟨rfl, rfl, rfl⟩⟩

/-! ## Repair after a deletion -/

/-- `t'` may replace `t` after a deletion from `t`: it is balanced, and either on the level of
`t`, without a new right horizontal link at the root, or one level lower. -/
def Shrinks (t t' : AATree β) : Prop :=
  t'.Balanced ∧ (t'.level = t.level ∧ (t'.right.level = t'.level → t.right.level = t.level) ∨
    t'.level + 1 = t.level)

/-- The repair of a node whose left subtree has become too low. -/
theorem lower_left {b : β} {k : ℕ} {t' r : AATree β} (hb : t'.Balanced) (hr : r.Balanced)
    (hk : t'.level + 2 = k) (hrk : r.level = k ∨ r.level + 1 = k) (hrr : r.right.level < k) :
    (node b k t' r).lower.Balanced ∧ ((node b k t' r).lower.level + 1 = k ∨
      (node b k t' r).lower.level = k ∧
        ((node b k t' r).lower.right.level = k → r.level = k)) := by
  have hcond : t'.level < k - 1 ∨ r.level < k - 1 := by omega
  cases r with
  | nil => simp only [level_nil] at hrk; omega
  | node c j y z =>
    obtain ⟨hy, hz, hyj, hzj, hzr⟩ := balanced_node.1 hr
    simp only [level_node, right_node] at hrk hrr
    have hyr := hy.right_level_le
    have htr := hb.right_level_le
    simp only [lower]
    rw [if_pos hcond]
    obtain ⟨k, rfl⟩ : ∃ k', k = k' + 1 := ⟨k - 1, by omega⟩
    simp only [Nat.add_sub_cancel, level_node, setLevel]
    -- the right child ends on level `k` in both cases
    have hset : (if k < j then node c k y z else node c j y z) = node c k y z := by
      split
      · rfl
      · rw [show j = k by omega]
    rw [hset, skew_of_level_lt (by omega)]
    rcases hrk with rfl | hrk
    · -- the right child was on the level of the node: its left child becomes a left horizontal
      -- link and its right child a second right horizontal link
      have hzk : z.level = k := by omega
      rw [split_of_level_eq hzk, hz.split_eq]
      simp only [mapLeft]
      cases y with
      | nil => simp only [level_nil] at hyj; omega
      | node d i u v =>
        obtain ⟨hu, hv, hui, hvi, hvr⟩ := balanced_node.1 hy
        simp only [level_node, right_node] at hyj hyr
        obtain rfl : i = k := by omega
        have hur := hu.right_level_le
        rcases hvi with hvi | hvi
        · -- the left child is split, and the node skewed again
          rw [split_of_level_eq hvi, hv.split_eq, skew_of_level_eq (by omega)]
          refine ⟨⟨⟨hb, hu, by omega, .inr hui, by omega⟩, ⟨hv, hz, by omega, by omega, by omega⟩,
            rfl, .inl rfl, ?_⟩, .inr ⟨rfl, fun _ => trivial⟩⟩
          simp only [right_node]; omega
        · rw [split_of_level_lt (by simp only [right_node]; omega), skew_of_level_lt (by simp)]
          refine ⟨⟨⟨hb, hy, by omega, .inl rfl, ?_⟩, hz, rfl, by omega, by omega⟩,
            .inr ⟨rfl, fun _ => trivial⟩⟩
          simp only [right_node]; omega
    · obtain rfl : j = k := by omega
      rcases hzj with hzj | hzj
      · rw [split_of_level_eq hzj, hz.split_eq]
        have hleft : (node b j t' y).Balanced := ⟨hb, hy, by omega, by omega, by omega⟩
        simp only [mapLeft, hleft.split_eq]
        rw [skew_of_level_lt (by simp)]
        refine ⟨⟨hleft, hz, rfl, by omega, by omega⟩, .inr ⟨rfl, ?_⟩⟩
        simp only [right_node]; omega
      · rw [split_of_level_lt (by simp only [right_node]; omega)]
        simp only [mapLeft, hb.split_eq]
        rw [skew_of_level_lt (by omega)]
        exact ⟨⟨hb, hr, by omega, .inl rfl, by simp only [right_node]; omega⟩, .inl rfl⟩

/-- The repair of a node whose right subtree has become too low. -/
theorem lower_right {b : β} {k : ℕ} {t' l : AATree β} (hb : t'.Balanced) (hl : l.Balanced)
    (hk : t'.level + 2 = k) (hlk : l.level + 1 = k) :
    (node b k l t').lower.Balanced ∧ ((node b k l t').lower.level + 1 = k ∨
      (node b k l t').lower.level = k ∧ (node b k l t').lower.right.level < k) := by
  have hcond : l.level < k - 1 ∨ t'.level < k - 1 := by omega
  cases l with
  | nil => simp only [level_nil] at hlk; omega
  | node c j x y =>
    obtain ⟨hx, hy, hxj, hyj, hyr⟩ := balanced_node.1 hl
    simp only [level_node] at hlk
    have htr := hb.right_level_le
    have hxr := hx.right_level_le
    have hyr' := hy.right_level_le
    simp only [lower]
    rw [if_pos hcond]
    obtain ⟨k, rfl⟩ : ∃ k', k = k' + 1 := ⟨k - 1, by omega⟩
    obtain rfl : j = k := by omega
    rw [Nat.add_sub_cancel, if_neg (by omega)]
    rcases hyj with hyj | hyj
    · -- the left child has a right horizontal link: two rotations to the right, then a split
      cases y with
      | nil => simp only [level_nil] at hyj; omega
      | node d i u v =>
        obtain ⟨hu, hv, hui, hvi, hvr⟩ := balanced_node.1 hy
        simp only [level_node, right_node] at hyj hyr hyr'
        obtain rfl : i = j := hyj
        have hvr' := hv.right_level_le
        have hur := hu.right_level_le
        have hskew : (node b i (node c i x (node d i u v)) t').skew =
            node c i x (node d i u (node b i v t')) := by
          have := skew_of_level_lt (b := b) (r := t') hyr
          simp only [skew] at this
          simp [skew, skewLeft, this]
        rw [hskew, split_of_level_eq (by simp)]
        have hright : (node b i v t').Balanced := ⟨hv, hb, by omega, by omega, by omega⟩
        have hleft : (node c i x u).Balanced := ⟨hx, hu, by omega, by omega, by omega⟩
        simp only [mapLeft, hright.split_eq, hleft.split_eq]
        rw [skew_of_level_lt (by simp)]
        refine ⟨⟨hleft, hright, rfl, .inr rfl, ?_⟩, .inr ⟨rfl, ?_⟩⟩
        · simp only [right_node]; omega
        · simp only [right_node, level_node]; omega
    · rw [skew_of_level_eq (by omega), split_of_level_lt (by simp only [right_node]; omega)]
      simp only [mapLeft, hx.split_eq]
      rw [skew_of_level_lt (by omega)]
      refine ⟨⟨hx, ⟨hy, hb, hyj, by omega, by omega⟩, hxj, .inl rfl, ?_⟩, .inl rfl⟩
      simp only [right_node]; omega

/-- A node neither of whose subtrees is too low is not changed. -/
theorem lower_of_le {b : β} {k : ℕ} {l r : AATree β} (hl : k ≤ l.level + 1) (hr : k ≤ r.level + 1) :
    (node b k l r).lower = node b k l r := by
  simp only [lower]
  rw [if_neg (by omega)]

theorem Shrinks.step {f : Frame β} {t t' : AATree β} (h : Shrinks t t')
    (hp : (f.plug t).Balanced) : Shrinks (f.plug t) (f.plug t').lower := by
  obtain ⟨hb, hlev⟩ := h
  obtain ⟨side, b, k, s⟩ := f
  have hle := hb.right_level_le
  cases side with
  | left =>
    obtain ⟨-, hs, htk, hsk, hsr⟩ := balanced_node.1 hp
    change Shrinks (node b k t s) (node b k t' s).lower
    dsimp only at htk hsk hsr
    rcases hlev with ⟨hlev, -⟩ | hlev
    · rw [lower_of_le (by omega) (by omega)]
      exact ⟨⟨hb, hs, by omega, hsk, hsr⟩, .inl ⟨rfl, id⟩⟩
    · obtain ⟨hbal, hlow⟩ := lower_left (b := b) hb hs (by omega) hsk hsr
      refine ⟨hbal, hlow.symm.imp (fun hlow => ⟨hlow.1, fun e => ?_⟩) id⟩
      exact hlow.2 (e.trans hlow.1)
  | right =>
    obtain ⟨hs, -, hsk, htk, htr⟩ := balanced_node.1 hp
    change Shrinks (node b k s t) (node b k s t').lower
    dsimp only at hs htk hsk htr
    by_cases hlow : t'.level + 2 = k
    · obtain ⟨hbal, hlow⟩ := lower_right (b := b) hb hs hlow hsk
      refine ⟨hbal, hlow.symm.imp (fun hlow => ⟨hlow.1, fun e => ?_⟩) id⟩
      exact absurd (e.trans hlow.1) (Nat.ne_of_lt hlow.2)
    · rw [lower_of_le (by omega) (by omega)]
      refine ⟨⟨hs, hb, hsk, by omega, ?_⟩, .inl ⟨rfl, ?_⟩⟩
      · rcases hlev with ⟨hlev, hright⟩ | hlev
        · rcases Nat.lt_or_ge t'.right.level k with hlt | hge
          · exact hlt
          · have := hright (by omega); omega
        · omega
      · simp only [right_node, level_node]; omega

/-- Lower every node above a position that has become too high. -/
def repairRemove : Ctx β → AATree β → AATree β
  | [], t => t
  | f :: C, t => repairRemove C (f.plug t).lower

theorem toList_repairRemove (C : Ctx β) (t : AATree β) :
    (repairRemove C t).toList = (C.plug t).toList := by
  induction C generalizing t with
  | nil => rfl
  | cons f C ih => rw [repairRemove, ih, Ctx.plug, Ctx.toList_plug, Ctx.toList_plug, toList_lower]

/-- **The repair after a deletion balances the tree.** -/
theorem Shrinks.repairRemove {C : Ctx β} {t t' : AATree β} (h : Shrinks t t')
    (hp : (C.plug t).Balanced) : Shrinks (C.plug t) (repairRemove C t') := by
  induction C generalizing t t' with
  | nil => exact h
  | cons f C ih => exact ih (h.step (Ctx.balanced_of_plug hp)) hp

theorem shrinks_leaf (b : β) : Shrinks (node b 1 nil nil) nil := ⟨trivial, .inr rfl⟩

end AATree

end C4OS.Foundations
