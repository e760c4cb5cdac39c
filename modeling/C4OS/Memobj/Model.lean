import C4OS.Addrman.Model

/-!
# Memory objects

The functions of `mem.c` that map pages into the general-purpose region of a process. A process has
this region, if it was initialized, and its capability space. What the pager and the kernel answer
is an argument: `page` is the result of `pager_request_pages`, negative for a failure, and `ret` the
one of `c4_addrspace_map`. The pager grants the pages before it answers, so that the capability is
there when the call returns.
-/

namespace C4OS.Memobj

open Foundations Addrman

/-- `c4_mem_object_t`. -/
structure MemObject where
  vaddr : ℕ
  pageObj : ℕ
  permissions : ℕ
  mapped : Bool
  deriving DecidableEq

/-- The general-purpose region of a process, `none` for `NULL`, and the capabilities in its
space. -/
structure Process where
  genregion : Option Region
  cspace : List ℕ

/-- An `int` converted to `uint32_t`. -/
def toUint (n : ℤ) : ℕ := (n % 2 ^ 32).toNat

/-- `c4_memobj_make`. -/
def memobjMake (obj vaddr permissions : ℕ) : MemObject := ⟨vaddr, obj, permissions, false⟩

/-- `c4_memobj_map`. -/
def memobjMap (ret : ℤ) (obj : MemObject) : MemObject × Bool :=
  if obj.mapped then (obj, true)
  else
    let obj := { obj with mapped := decide (0 ≤ ret) }
    (obj, obj.mapped)

/-- `c4_memobj_region_map`. The object is written only when there is an address for it. -/
def memobjRegionMap (calloc : Calloc) (ret : ℤ) (st : Process) (obj : ℕ) (memobj : MemObject)
    (size permissions : ℕ) : Option (Process × MemObject × Bool) :=
  match st.genregion with
  | none => some (st, memobj, false)
  | some region => do
    let (region, ptr) ← c4rtVaddrAlloc calloc region size
    let st := { st with genregion := some region }
    if ptr = Andtree.null then return (st, memobj, false)
    else
      let (memobj, mapped) := memobjMap ret (memobjMake obj ptr permissions)
      return (st, memobj, mapped)

/-- `pager_request_pages`: the capability of the pages that the pager grants. -/
def pagerRequestPages (page : ℤ) (st : Process) : Process :=
  if 0 ≤ page then { st with cspace := toUint page :: st.cspace } else st

/-- `c4_memobj_alloc`. -/
def memobjAlloc (calloc : Calloc) (page ret : ℤ) (st : Process) (memobj : MemObject)
    (size permissions : ℕ) : Option (Process × MemObject × Bool) :=
  memobjRegionMap calloc ret (pagerRequestPages page st) (toUint page) memobj size permissions

end C4OS.Memobj
