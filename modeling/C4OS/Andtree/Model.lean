import C4OS.Foundations.AATree
import C4OS.Foundations.Store
import Mathlib.Algebra.Order.Ring.Int

/-!
# The balanced trees of the C4 runtime

The functions of `andtree.c` on a memory of `c4rt_andnode_t` records. Nodes are linked to their
parents and their two leaves by pointers; the end of a branch is the shared `sentinel` node, whose
level is `0` and whose leaves are the sentinel itself. The rotations write the `parent` field of
the sentinel like that of any other node.

The user's data are pointers, ordered by the key function of the tree, whose values are compared
by a 32-bit subtraction (`andtreeCompare`). The key function reads the memory of the data, so it is
an argument of the operations here. `calloc` is an `Allocator`.

A function that follows pointers in a loop is given a number of steps, `fuel`, and has no result
when they do not suffice. The operations on a tree allow two steps more than the tree has nodes.
-/

namespace C4OS.Andtree

open Foundations

/-- A pointer; `0` is `NULL`. -/
abbrev Ptr := ℕ

/-- The null pointer. -/
abbrev null : Ptr := 0

/-- The address of the static `sentinel` node. -/
abbrev sentinel : Ptr := 1

/-- `c4rt_andnode_t`; `left` and `right` are `leaves[LEFT]` and `leaves[RIGHT]`. -/
structure AndNode where
  parent : Ptr
  left : Ptr
  right : Ptr
  level : ℕ
  data : Ptr
  deriving DecidableEq

namespace AndNode

/-- `leaves[side]`. -/
def leaf (n : AndNode) : Side → Ptr
  | .left => n.left
  | .right => n.right

/-- `leaves[side] = p`. -/
def setLeaf (n : AndNode) (side : Side) (p : Ptr) : AndNode :=
  match side with
  | .left => { n with left := p }
  | .right => { n with right := p }

/-- `parent = p`. -/
def setParent (n : AndNode) (p : Ptr) : AndNode := { n with parent := p }

end AndNode

/-- The memory of the nodes. -/
abbrev Mem := Store AndNode

/-- `c4rt_andtree_t`, without the pointer to the key function. -/
structure AndTree where
  root : Ptr
  nodes : ℕ

/-- The number of steps allowed to a loop in the tree. -/
def AndTree.fuel (t : AndTree) : ℕ := t.nodes + 2

/-- The value of a difference of two C `int`s: the subtraction wraps around at 32 bits. -/
def intSub (a b : ℤ) : ℤ := (a - b).bmod (2 ^ 32)

/-- `is_nil`. -/
def isNil (m : Mem) (node : Ptr) : Option Bool :=
  if node = null then some true
  else do
    let n ← m.get node
    return n.level == 0

/-- `parentside`: the leaf of its parent a node is. -/
def parentside (m : Mem) (node : Ptr) : Option Side :=
  if node = null then some .right
  else do
    let n ← m.get node
    if n.parent = null then return .right
    else
      let p ← m.get n.parent
      return if p.left = node then .left else .right

/-- `direction`: the leaf to follow for a comparison result. -/
def direction (n : ℤ) : Side := if n ≤ 0 then .left else .right

/-- `andtree_compare`. -/
def andtreeCompare (getKey : Ptr → ℤ) (key : ℤ) (m : Mem) (node : Ptr) : Option ℤ := do
  let n ← m.get node
  return intSub key (getKey n.data)

/-! ## Searching -/

/-- Follow the leaves on one side to the last node. -/
def findEnd (side : Side) : ℕ → Mem → Ptr → Option Ptr
  | 0, _, _ => none
  | fuel + 1, m, node => do
    let n ← m.get node
    if ← isNil m (n.leaf side) then return node
    else findEnd side fuel m (n.leaf side)

/-- `find_min_node`. -/
def findMinNode (fuel : ℕ) (m : Mem) (node : Ptr) : Option Ptr := do
  let n ← m.get node
  if n.level = 0 then return null
  else findEnd .left fuel m node

/-- `find_max_node`. -/
def findMaxNode (fuel : ℕ) (m : Mem) (node : Ptr) : Option Ptr := do
  if ← isNil m node then return null
  else findEnd .right fuel m node

/-- The loop of `andtree_find_key`. -/
def findKeyLoop (getKey : Ptr → ℤ) (m : Mem) (key : ℤ) : ℕ → Ptr → Option Ptr
  | 0, _ => none
  | fuel + 1, temp => do
    if ← isNil m temp then return null
    else
      let diff ← andtreeCompare getKey key m temp
      if diff = 0 then return temp
      else
        let n ← m.get temp
        findKeyLoop getKey m key fuel (n.leaf (direction diff))

/-- `andtree_find_key`. -/
def andtreeFindKey (getKey : Ptr → ℤ) (m : Mem) (t : AndTree) (key : ℤ) : Option Ptr :=
  findKeyLoop getKey m key t.fuel t.root

/-- `andtree_find_dupe_data`: the search among equal keys goes through both leaves, and through
the leaf `direction` chooses once more. -/
def andtreeFindDupeData (getKey : Ptr → ℤ) (m : Mem) (data : Ptr) : ℕ → Ptr → Option Ptr
  | 0, _ => none
  | fuel + 1, node => do
    if ← isNil m node then return null
    else
      let n ← m.get node
      if n.data = data then return node
      else
        let diff ← andtreeCompare getKey (getKey data) m node
        if diff = 0 then
          let a ← andtreeFindDupeData getKey m data fuel n.left
          if a ≠ null then return a
          else
            let a ← andtreeFindDupeData getKey m data fuel n.right
            if a ≠ null then return a
            else andtreeFindDupeData getKey m data fuel (n.leaf (direction diff))
        else andtreeFindDupeData getKey m data fuel (n.leaf (direction diff))

/-- The loop of `andtree_find_data`. -/
def findDataLoop (getKey : Ptr → ℤ) (m : Mem) (data : Ptr) : ℕ → Ptr → Option Ptr
  | 0, _ => none
  | fuel + 1, temp => do
    if ← isNil m temp then return null
    else
      let diff ← andtreeCompare getKey (getKey data) m temp
      if diff = 0 then andtreeFindDupeData getKey m data (fuel + 1) temp
      else
        let n ← m.get temp
        findDataLoop getKey m data fuel (n.leaf (direction diff))

/-- `andtree_find_data`. -/
def andtreeFindData (getKey : Ptr → ℤ) (m : Mem) (t : AndTree) (data : Ptr) : Option Ptr :=
  findDataLoop getKey m data t.fuel t.root

/-- `do_find_at_least`. -/
def doFindAtLeast (getKey : Ptr → ℤ) (m : Mem) (key : ℤ) : ℕ → Ptr → Option Ptr
  | 0, _ => none
  | fuel + 1, node => do
    if ← isNil m node then return null
    else
      let diff ← andtreeCompare getKey key m node
      -- found the exact value we're looking for, return it
      if diff = 0 then return node
      else
        let n ← m.get node
        let temp ← doFindAtLeast getKey m key fuel (n.leaf (direction diff))
        if diff < 0 then
          if temp = null then return node
          else
            let other ← andtreeCompare getKey key m temp
            return if other > diff then temp else node
        else return temp

/-- `andtree_find_at_least`. -/
def andtreeFindAtLeast (getKey : Ptr → ℤ) (m : Mem) (t : AndTree) (key : ℤ) : Option Ptr :=
  doFindAtLeast getKey m key t.fuel t.root

/-- The loop of `andtree_next` and `andtree_previous`: go up while `last` is the leaf of `p` on
`side`. -/
def climb (side : Side) (m : Mem) : ℕ → Ptr → Ptr → Option Ptr
  | 0, _, _ => none
  | fuel + 1, last, p => do
    if ← isNil m p then return p
    else
      let n ← m.get p
      if n.leaf side = last then climb side m fuel p n.parent
      else return p

/-- `andtree_next`. -/
def andtreeNext (fuel : ℕ) (m : Mem) (node : Ptr) : Option Ptr :=
  if node = null then some node
  else do
    let n ← m.get node
    let right ← findMinNode fuel m n.right
    if ← isNil m right then climb .right m fuel node n.parent
    else return right

/-- `andtree_previous`. -/
def andtreePrevious (fuel : ℕ) (m : Mem) (node : Ptr) : Option Ptr :=
  if node = null then some node
  else do
    let n ← m.get node
    let left ← findMaxNode fuel m n.left
    if ← isNil m left then climb .left m fuel node n.parent
    else return left

/-! ## Rotations -/

/-- `node->parent->leaves[parentside(node)] = value`, the first half of `replace_in_parent`. -/
def setInParent (m : Mem) (node value : Ptr) : Option Mem := do
  let n ← m.get node
  if n.parent ≠ null then
    let side ← parentside m node
    m.modify n.parent (·.setLeaf side value)
  else some m

/-- `replace_in_parent`. -/
def replaceInParent (m : Mem) (node value : Ptr) : Option Mem := do
  let m ← setInParent m node value
  if ← isNil m value then return m
  else
    let n ← m.get node
    m.modify value (·.setParent n.parent)

/-- `rotate`. -/
def rotate (m : Mem) (t : AndTree) (node : Ptr) (dir : Side) : Option (Mem × AndTree × Ptr) := do
  let n ← m.get node
  let temp := n.leaf dir.flip
  let tn ← m.get temp
  let m ← m.modify node (·.setLeaf dir.flip (tn.leaf dir))
  let m ← m.modify temp (·.setLeaf dir node)
  let n ← m.get node
  let m ← if n.leaf dir.flip ≠ null then m.modify (n.leaf dir.flip) (·.setParent node) else some m
  let m ← replaceInParent m node temp
  let m ← m.modify node (·.setParent temp)
  let t := if node = t.root then { t with root := temp } else t
  return (m, t, temp)

/-- `andtree_skew`. -/
def andtreeSkew : ℕ → Mem → AndTree → Ptr → Option (Mem × AndTree × Ptr)
  | 0, _, _, _ => none
  | fuel + 1, m, t, node => do
    if ← isNil m node then return (m, t, node)
    else
      let n ← m.get node
      let l ← m.get n.left
      if l.level = n.level then
        let (m, t, ret) ← rotate m t node .right
        let r ← m.get ret
        let (m, t, _) ← andtreeSkew fuel m t r.right
        return (m, t, ret)
      else return (m, t, node)

/-- `andtree_split`. -/
def andtreeSplit : ℕ → Mem → AndTree → Ptr → Option (Mem × AndTree × Ptr)
  | 0, _, _, _ => none
  | fuel + 1, m, t, node => do
    if ← isNil m node then return (m, t, node)
    else
      let n ← m.get node
      let r ← m.get n.right
      let rr ← m.get r.right
      if n.level = rr.level then
        let (m, t, ret) ← rotate m t node .left
        let m ← m.modify ret fun r => { r with level := r.level + 1 }
        let r ← m.get ret
        let (m, t, _) ← andtreeSplit fuel m t r.right
        return (m, t, ret)
      else return (m, t, node)

/-! ## Insertion -/

/-- The loop of `andtree_bin_insert`. -/
def binInsertLoop (getKey : Ptr → ℤ) (node : Ptr) : ℕ → Mem → Ptr → Option Mem
  | 0, _, _ => none
  | fuel + 1, m, temp =>
    if temp = node then some m
    else do
      let d ← m.get node
      let diff ← andtreeCompare getKey (getKey d.data) m temp
      let dir := if diff < 0 then Side.left else .right
      let n ← m.get temp
      let m ← if ← isNil m (n.leaf dir) then do
          let m ← m.modify temp (·.setLeaf dir node)
          m.modify node (·.setParent temp)
        else some m
      let n ← m.get temp
      binInsertLoop getKey node fuel m (n.leaf dir)

/-- `andtree_bin_insert`. -/
def andtreeBinInsert (getKey : Ptr → ℤ) (m : Mem) (t : AndTree) (node : Ptr) :
    Option (Mem × AndTree) := do
  if ← isNil m t.root then return (m, { t with root := node })
  else
    let m ← binInsertLoop getKey node t.fuel m t.root
    return (m, t)

/-- The loop of `andtree_insert_repair`; `steps` bounds the skews and splits on the way. -/
def insertRepairLoop (steps : ℕ) : ℕ → Mem → AndTree → Ptr → Option (Mem × AndTree)
  | 0, _, _, _ => none
  | fuel + 1, m, t, temp =>
    if temp = null then some (m, t)
    else do
      let (m, t, temp) ← andtreeSkew steps m t temp
      let (m, t, temp) ← andtreeSplit steps m t temp
      let n ← m.get temp
      insertRepairLoop steps fuel m t n.parent

/-- `andtree_insert_repair`. -/
def andtreeInsertRepair (m : Mem) (t : AndTree) (node : Ptr) : Option (Mem × AndTree) :=
  insertRepairLoop t.fuel t.fuel m t node

/-- `make_andnode`. -/
def makeAndnode (calloc : Allocator AndNode) (m : Mem) (data : Ptr) : Mem × Ptr :=
  let ret := calloc.pick m
  (m.set ret ⟨null, sentinel, sentinel, 1, data⟩, ret)

/-- `andtree_insert`. -/
def andtreeInsert (calloc : Allocator AndNode) (getKey : Ptr → ℤ) (m : Mem) (t : AndTree)
    (data : Ptr) : Option (Mem × AndTree × Ptr) := do
  let (m, node) := makeAndnode calloc m data
  let (m, t) ← andtreeBinInsert getKey m t node
  let (m, t) ← andtreeInsertRepair m t node
  return (m, { t with nodes := t.nodes + 1 }, node)

/-! ## Removal -/

/-- `do_remove_node`. -/
def doRemoveNode (m : Mem) (t : AndTree) (node replacement : Ptr) : Option (Mem × AndTree) := do
  let t := if node = t.root then { t with root := replacement } else t
  let m ← replaceInParent m node replacement
  return (m.free node, { t with nodes := t.nodes - 1 })

/-- Lower a node by a level, and its right leaf if that stands above it then. -/
def lowerLevel (m : Mem) (repair : Ptr) : Option Mem := do
  let n ← m.get repair
  let level := n.level - 1
  let m ← m.modify repair fun n => { n with level := level }
  let r ← m.get n.right
  if r.level > level then m.modify n.right fun r => { r with level := level } else some m

/-- The repair of one node on the way up from a removed node. -/
def removeRepairStep (steps : ℕ) (m : Mem) (t : AndTree) (repair : Ptr) :
    Option (Mem × AndTree × Ptr) := do
  let n ← m.get repair
  let l ← m.get n.left
  let r ← m.get n.right
  if l.level < n.level - 1 ∨ r.level < n.level - 1 then
    let m ← lowerLevel m repair
    let (m, t, repair) ← andtreeSkew steps m t repair
    let (m, t, repair) ← andtreeSplit steps m t repair
    let n ← m.get repair
    let (m, t, _) ← andtreeSplit steps m t n.left
    andtreeSkew steps m t repair
  else return (m, t, repair)

/-- The loop of `andtree_remove_repair`. -/
def removeRepairLoop (steps : ℕ) : ℕ → Mem → AndTree → Ptr → Option (Mem × AndTree)
  | 0, _, _, _ => none
  | fuel + 1, m, t, repair => do
    if ← isNil m repair then return (m, t)
    else
      let (m, t, repair) ← removeRepairStep steps m t repair
      let n ← m.get repair
      removeRepairLoop steps fuel m t n.parent

/-- The successor of `andtree_remove_repair`: the last node of the left subtree or else the first
node of the right subtree, `NULL` for a leaf. -/
def findSuccessor (fuel : ℕ) (m : Mem) (node : Ptr) : Option Ptr := do
  let n ← m.get node
  let successor ← findMaxNode fuel m n.left
  if successor ≠ null then return successor
  else findMinNode fuel m n.right

/-- Take the data of the successor over and remove the successor, or remove the node itself. -/
def removeSuccessor (m : Mem) (t : AndTree) (node successor : Ptr) : Option (Mem × AndTree) := do
  if successor ≠ null then
    let s ← m.get successor
    let m ← m.modify node fun n => { n with data := s.data }
    let s ← m.get successor
    let side := if ← isNil m s.left then Side.right else .left
    doRemoveNode m t successor (s.leaf side)
  else doRemoveNode m t node sentinel

/-- `andtree_remove_repair`. -/
def andtreeRemoveRepair (m : Mem) (t : AndTree) (node : Ptr) : Option (Mem × AndTree) := do
  let fuel := t.fuel
  let successor ← findSuccessor fuel m node
  let temp := if ← isNil m successor then node else successor
  let repair := (← m.get temp).parent
  let (m, t) ← removeSuccessor m t node successor
  removeRepairLoop fuel fuel m t repair

/-- `andtree_remove`. -/
def andtreeRemove (m : Mem) (t : AndTree) (node : Ptr) : Option (Mem × AndTree) :=
  andtreeRemoveRepair m t node

/-- Remove a node that a search found and return its data, or return `NULL`. -/
def removeFound (m : Mem) (t : AndTree) (node : Ptr) : Option (Mem × AndTree × Ptr) := do
  if node ≠ null then
    let n ← m.get node
    let (m, t) ← andtreeRemove m t node
    return (m, t, n.data)
  else return (m, t, null)

/-- `andtree_remove_key`. -/
def andtreeRemoveKey (getKey : Ptr → ℤ) (m : Mem) (t : AndTree) (key : ℤ) :
    Option (Mem × AndTree × Ptr) := do
  let node ← andtreeFindKey getKey m t key
  removeFound m t node

/-- `andtree_remove_data`. -/
def andtreeRemoveData (getKey : Ptr → ℤ) (m : Mem) (t : AndTree) (data : Ptr) :
    Option (Mem × AndTree × Ptr) := do
  let node ← andtreeFindData getKey m t data
  removeFound m t node

/-- `andtree_init`. -/
def andtreeInit : AndTree := ⟨sentinel, 0⟩

end C4OS.Andtree
