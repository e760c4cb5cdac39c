import C4OS.Andtree.Model

/-!
# The address region manager

The functions of `addrman.c`. A region is cut into runs of pages, each described by a
`c4rt_vnode_t`. Two balanced trees index the vnodes: `layout` holds all of them by offset,
`free_nodes` those that are free by size. The nodes of both trees live in one memory; the vnodes
are kept in a store of their own.

Fields and addresses are 32 bits wide, and so is the arithmetic on them. `calloc` is an allocator
for the nodes of the trees and one for the vnodes. The loop of `free_vnode` ends after as many
turns as there are vnodes; it is given one step more.
-/

namespace C4OS.Addrman

open Foundations Andtree

/-- The page size. -/
abbrev pageSize : ℕ := 0x1000

/-- `c4rt_vnode_t`. -/
structure Vnode where
  size : ℕ
  offset : ℕ
  isFree : Bool
  deriving DecidableEq

/-- The memory of the vnodes. -/
abbrev VMem := Store Vnode

/-- A region (`c4rt_vaddr_region_t`) with the memory its trees and vnodes are in. -/
structure Region where
  mem : Mem
  vmem : VMem
  layout : AndTree
  freeNodes : AndTree
  base : ℕ

/-- The two uses of `calloc`. -/
structure Calloc where
  node : Allocator AndNode
  vnode : Allocator Vnode

/-- The value of an `unsigned` converted to `int`. -/
def toInt (n : ℕ) : ℤ := (n : ℤ).bmod (2 ^ 32)

/-- `vnode_get_offset`. -/
def vnodeGetOffset (vm : VMem) (a : Ptr) : ℤ := ((vm.get a).map fun n => toInt n.offset).getD 0

/-- `vnode_get_size`. -/
def vnodeGetSize (vm : VMem) (a : Ptr) : ℤ := ((vm.get a).map fun n => toInt n.size).getD 0

/-- `make_vnode`. -/
def makeVnode (calloc : Allocator Vnode) (vm : VMem) (size offset : ℕ) : VMem × Ptr :=
  let ret := calloc.pick vm
  (vm.set ret ⟨size, offset, true⟩, ret)

namespace Region

/-- Insert into `layout`. -/
def insertLayout (calloc : Calloc) (st : Region) (v : Ptr) : Option Region := do
  let (m, t, _) ← andtreeInsert calloc.node (vnodeGetOffset st.vmem) st.mem st.layout v
  return { st with mem := m, layout := t }

/-- Insert into `free_nodes`. -/
def insertFree (calloc : Calloc) (st : Region) (v : Ptr) : Option Region := do
  let (m, t, _) ← andtreeInsert calloc.node (vnodeGetSize st.vmem) st.mem st.freeNodes v
  return { st with mem := m, freeNodes := t }

/-- Remove from `layout`. -/
def removeLayout (st : Region) (v : Ptr) : Option Region := do
  let (m, t, _) ← andtreeRemoveData (vnodeGetOffset st.vmem) st.mem st.layout v
  return { st with mem := m, layout := t }

/-- Remove from `free_nodes`. -/
def removeFree (st : Region) (v : Ptr) : Option Region := do
  let (m, t, _) ← andtreeRemoveData (vnodeGetSize st.vmem) st.mem st.freeNodes v
  return { st with mem := m, freeNodes := t }

/-- Write to a vnode. -/
def modifyVnode (st : Region) (v : Ptr) (f : Vnode → Vnode) : Option Region := do
  let vm ← st.vmem.modify v f
  return { st with vmem := vm }

end Region

/-- The half of `split_vnode` that cuts `node` off at `size` pages. -/
def cutVnode (calloc : Calloc) (st : Region) (node : Ptr) (size : ℕ) : Option Region := do
  let st ← st.removeLayout node
  let n ← st.vmem.get node
  let (vm, vn) := makeVnode calloc.vnode st.vmem ((n.size + 2 ^ 32 - size) % 2 ^ 32)
    ((n.offset + size) % 2 ^ 32)
  let st := { st with vmem := vm }
  let st ← st.modifyVnode node fun n => { n with size := size }
  let st ← st.insertFree calloc vn
  let st ← st.insertLayout calloc node
  st.insertLayout calloc vn

/-- `split_vnode`. -/
def splitVnode (calloc : Calloc) (st : Region) (node : Ptr) (size : ℕ) :
    Option (Region × Ptr) := do
  let st ← st.removeFree node
  let st ← st.modifyVnode node fun n => { n with isFree := false }
  let n ← st.vmem.get node
  if size ≠ n.size then
    let st ← cutVnode calloc st node size
    return (st, node)
  else return (st, node)

/-- The half of `try_merge` that joins two free vnodes. -/
def joinVnodes (calloc : Calloc) (st : Region) (lower upper : Ptr) : Option Region := do
  let st ← st.removeLayout upper
  let st ← st.removeFree lower
  let st ← st.removeFree upper
  let u ← st.vmem.get upper
  let st ← st.modifyVnode lower fun n => { n with size := (n.size + u.size) % 2 ^ 32 }
  st.insertFree calloc lower

/-- `try_merge`. -/
def tryMerge (calloc : Calloc) (st : Region) (a b : Ptr) : Option (Region × Ptr) :=
  if a = null ∨ b = null then some (st, null)
  else do
    let na ← st.vmem.get a
    let nb ← st.vmem.get b
    if !na.isFree || !nb.isFree then return (st, null)
    else
      let lower := if na.offset < nb.offset then a else b
      let upper := if na.offset < nb.offset then b else a
      let st ← joinVnodes calloc st lower upper
      return (st, lower)

/-- `node ? node->data : NULL`. -/
def nodeData (m : Mem) (node : Ptr) : Option Ptr :=
  if node = null then some null
  else (m.get node).map AndNode.data

/-- The vnodes before and after `v` in the layout. -/
def neighbours (st : Region) (v : Ptr) : Option (Ptr × Ptr) := do
  let laynode ← andtreeFindData (vnodeGetOffset st.vmem) st.mem st.layout v
  let prevnode ← andtreePrevious st.layout.fuel st.mem laynode
  let nextnode ← andtreeNext st.layout.fuel st.mem laynode
  let prev ← nodeData st.mem prevnode
  let next ← nodeData st.mem nextnode
  return (prev, next)

/-- The loop of `free_vnode`. -/
def mergeLoop (calloc : Calloc) : ℕ → Region → Ptr → Option Region
  | 0, _, _ => none
  | fuel + 1, st, temp =>
    if temp = null then some st
    else do
      let (prev, next) ← neighbours st temp
      let (st, foo) ← tryMerge calloc st prev temp
      if foo ≠ null then mergeLoop calloc fuel st foo
      else
        let (st, temp) ← tryMerge calloc st temp next
        mergeLoop calloc fuel st temp

/-- `free_vnode`. -/
def freeVnode (calloc : Calloc) (st : Region) (node : Ptr) : Option Region := do
  let st ← st.modifyVnode node fun n => { n with isFree := true }
  let st ← st.insertFree calloc node
  mergeLoop calloc st.layout.fuel st node

/-- `alloc_vnode`. -/
def allocVnode (calloc : Calloc) (st : Region) (size : ℕ) : Option (Region × Ptr) := do
  let temp ← andtreeFindAtLeast (vnodeGetSize st.vmem) st.mem st.freeNodes (toInt size)
  if temp = null then return (st, null)
  else
    let t ← st.mem.get temp
    let n ← st.vmem.get t.data
    if size ≤ n.size then splitVnode calloc st t.data size
    else return (st, null)

/-- `c4rt_vaddr_region_create`, in a memory that may hold other trees. -/
def c4rtVaddrRegionCreate (calloc : Calloc) (mem : Mem) (vmem : VMem) (base pages : ℕ) :
    Option Region := do
  let (vm, root) := makeVnode calloc.vnode vmem pages 0
  let st : Region := ⟨mem, vm, andtreeInit, andtreeInit, base⟩
  let st ← st.insertLayout calloc root
  st.insertFree calloc root

/-- The number of pages for a size. -/
def numPages (size : ℕ) : ℕ := size / pageSize + (if size % pageSize ≠ 0 then 1 else 0)

/-- `c4rt_vaddr_alloc`. -/
def c4rtVaddrAlloc (calloc : Calloc) (st : Region) (size : ℕ) : Option (Region × Ptr) := do
  let (st, node) ← allocVnode calloc st (numPages size)
  if node = null then return (st, null)
  else
    let n ← st.vmem.get node
    return (st, (st.base + n.offset * pageSize) % 2 ^ 32)

/-- The page offset of an address in the region. -/
def pageOffset (st : Region) (ptr : Ptr) : ℕ := (ptr + 2 ^ 32 - st.base) % 2 ^ 32 / pageSize

/-- `c4rt_vaddr_free`. -/
def c4rtVaddrFree (calloc : Calloc) (st : Region) (ptr : Ptr) : Option Region := do
  let node ← andtreeFindKey (vnodeGetOffset st.vmem) st.mem st.layout (toInt (pageOffset st ptr))
  if node = null then return st
  else
    let n ← st.mem.get node
    freeVnode calloc st n.data

/-- `c4rt_vaddr_size`. -/
def c4rtVaddrSize (st : Region) (ptr : Ptr) : Option ℕ := do
  let node ← andtreeFindKey (vnodeGetOffset st.vmem) st.mem st.layout (toInt (pageOffset st ptr))
  if node = null then return 0
  else
    let n ← st.mem.get node
    let v ← st.vmem.get n.data
    return v.size * pageSize % 2 ^ 32

end C4OS.Addrman
