import C4OS.Foundations.Bytes

/-!
# The heap allocator

The functions of `alloc.c`. A heap is a row of chunks of 16 KiB, each cut into blocks whose sizes
are powers of two. A block starts with a `c4a_node_t`, and what is behind the node is the payload.
The nodes are in the same memory as the payloads, a memory of bytes of which some are mapped; the
heap itself (`c4a_heap_t`) is a global variable outside of it.

A function returns `none` where the source reads or writes through the null pointer or at an
address that is not mapped, or uses a bucket that does not exist. Pointers and fields have the
widths of the source on i686. The loops of `c4a_grow` and `c4a_coalesce` count their turns: the
first has at most one, since `temp` is `end` after it, and each turn but the last of the second
adds one to a 16-bit number.
-/

namespace C4OS.C4alloc

open Foundations

/-- A pointer; the null pointer is `0`. -/
abbrev Ptr := UInt32

/-- `PAGE_SIZE`. -/
abbrev pageSize : UInt32 := 4096

/-- `C4A_MAX_BUCKETS`. -/
abbrev c4aMaxBuckets : ℕ := 14

/-- `C4A_STATUS_FREE`. -/
abbrev c4aStatusFree : UInt16 := 1

/-- `C4A_STATUS_USED`. -/
abbrev c4aStatusUsed : UInt16 := 2

/-- `c4a_node_t`. -/
@[ext] structure Node where
  previous : Ptr
  next : Ptr
  physNext : Ptr
  physPrev : Ptr
  status : UInt16
  bucket : UInt16
  deriving DecidableEq

/-- `sizeof(c4a_node_t)`. -/
abbrev nodeSize : ℕ := 20

/-- A memory, with the addresses that are mapped. -/
structure Mem where
  byte : ℕ → UInt8
  mapped : ℕ → Bool

namespace Mem

/-- The node at an address. -/
def node (m : Mem) (a : Ptr) : Node where
  previous := .ofNat (readLE 4 m.byte a.toNat)
  next := .ofNat (readLE 4 m.byte (a.toNat + 4))
  physNext := .ofNat (readLE 4 m.byte (a.toNat + 8))
  physPrev := .ofNat (readLE 4 m.byte (a.toNat + 12))
  status := .ofNat (readLE 2 m.byte (a.toNat + 16))
  bucket := .ofNat (readLE 2 m.byte (a.toNat + 18))

/-- The memory with a node written to an address. -/
def putNode (m : Mem) (a : Ptr) (n : Node) : Mem :=
  let f := writeLE 4 m.byte a.toNat n.previous.toNat
  let f := writeLE 4 f (a.toNat + 4) n.next.toNat
  let f := writeLE 4 f (a.toNat + 8) n.physNext.toNat
  let f := writeLE 4 f (a.toNat + 12) n.physPrev.toNat
  let f := writeLE 2 f (a.toNat + 16) n.status.toNat
  let f := writeLE 2 f (a.toNat + 18) n.bucket.toNat
  { m with byte := f }

/-- Whether a node can be read and written at an address. -/
def accessible (m : Mem) (a : Ptr) : Bool :=
  a != 0 && (List.range nodeSize).all fun i => m.mapped (a.toNat + i)

/-- Read the fields of a node. -/
def load (m : Mem) (a : Ptr) : Option Node :=
  if m.accessible a then some (m.node a) else none

/-- Assign fields of a node. -/
def modify (m : Mem) (a : Ptr) (f : Node → Node) : Option Mem :=
  if m.accessible a then some (m.putNode a (f (m.node a))) else none

/-- Assign fields of a node unless the pointer to it is null. -/
def modifyIf (m : Mem) (a : Ptr) (f : Node → Node) : Option Mem :=
  if a = 0 then some m else m.modify a f

/-- `pager_request_pages_map`, when there is memory for the pages. -/
def requestPagesMap (m : Mem) (virt : Ptr) (pages : UInt32) : Mem :=
  { m with mapped := fun c =>
      m.mapped c || decide (virt.toNat ≤ c ∧ c < virt.toNat + (pages * pageSize).toNat) }

end Mem

/-- `c4a_heap_t`. -/
structure Heap where
  start : Ptr
  pages : UInt32
  buckets : ℕ → Ptr

namespace Heap

/-- `c4a_bucket`, read. -/
def bucket (h : Heap) (i : ℕ) : Option Ptr :=
  if i ≤ c4aMaxBuckets then some (h.buckets i) else none

/-- `c4a_bucket`, assigned to. -/
def setBucket (h : Heap) (i : ℕ) (a : Ptr) : Option Heap :=
  if i ≤ c4aMaxBuckets then some { h with buckets := fun j => if j = i then a else h.buckets j }
  else none

end Heap

/-- A heap and the memory. -/
structure State where
  heap : Heap
  mem : Mem

/-- The loop of `ulog2`, a turn for each bit. -/
def ulog2Loop : ℕ → UInt32 → ℕ → ℕ
  | 0, _, i => i
  | k + 1, n, i => if n ≠ 0 ∧ n >>> 1 ≠ 0 then ulog2Loop k (n >>> 1) (i + 1) else i

/-- `ulog2`. -/
def ulog2 (n : UInt32) : ℕ := ulog2Loop 32 n 0

/-- The first branch of `c4a_node_unlink`. -/
def unlinkStart (h : Heap) (n : Node) (node : Ptr) : Option Heap := do
  let start ← h.bucket n.bucket.toNat
  if node = start then h.setBucket n.bucket.toNat n.next else some h

/-- `c4a_node_unlink`. -/
def c4aNodeUnlink (s : State) (node : Ptr) : Option State := do
  let n ← s.mem.load node
  let h ← unlinkStart s.heap n node
  let m ← s.mem.modifyIf n.previous fun p => { p with next := n.next }
  let n ← m.load node
  let m ← m.modifyIf n.next fun p => { p with previous := n.previous }
  let m ← m.modify node fun n => { n with previous := 0, next := 0 }
  return ⟨h, m⟩

/-- `c4a_bucket_insert`. -/
def c4aBucketInsert (s : State) (bucket : ℕ) (node : Ptr) : Option State := do
  let start ← s.heap.bucket bucket
  let m ← s.mem.modifyIf start fun p => { p with previous := node }
  let m ← m.modify node fun n => { n with next := start, previous := 0 }
  let h ← s.heap.setBucket bucket node
  return ⟨h, m⟩

/-- `c4a_bucket_pop`. -/
def c4aBucketPop (s : State) (index : ℕ) : Option (Ptr × State) := do
  let ret ← s.heap.bucket index
  if ret ≠ 0 then
    let s ← c4aNodeUnlink s ret
    return (ret, s)
  else
    return (ret, s)

/-- The number of pages in a chunk. -/
abbrev chunkPages : UInt32 := (1 : UInt32) <<< 14 / pageSize

/-- The loop of `c4a_grow`. -/
def c4aGrowLoop : ℕ → State → Ptr → Ptr → Option State
  | 0, _, _, _ => none
  | k + 1, s, temp, stop =>
    if temp < stop then do
      let m := s.mem.requestPagesMap temp chunkPages
      let m ← m.modify temp fun _ => ⟨0, 0, 0, 0, c4aStatusFree, UInt16.ofNat c4aMaxBuckets⟩
      let s ← c4aBucketInsert ⟨s.heap, m⟩ c4aMaxBuckets temp
      c4aGrowLoop k s (temp + chunkPages * pageSize) stop
    else
      return s

/-- `c4a_grow`. -/
def c4aGrow (s : State) : Option State :=
  let temp := s.heap.start + s.heap.pages * pageSize
  let stop := s.heap.start + (s.heap.pages + chunkPages) * pageSize
  c4aGrowLoop 2 ⟨{ s.heap with pages := s.heap.pages + chunkPages }, s.mem⟩ temp stop

/-- The loop of `c4a_find_upwards_bucket`, over the `n` buckets from `k` on. -/
def findLoop (h : Heap) : ℕ → ℕ → Option ℕ
  | 0, _ => none
  | n + 1, k => if h.buckets k ≠ 0 then some k else findLoop h n (k + 1)

/-- `c4a_find_upwards_bucket`. -/
def c4aFindUpwardsBucket (s : State) (index : ℕ) : Option (ℕ × State) :=
  match findLoop s.heap (c4aMaxBuckets + 1 - index) index with
  | some k => some (k, s)
  | none => do
    let s ← c4aGrow s
    return (c4aMaxBuckets, s)

/-- `c4a_split_node`. -/
def c4aSplitNode (m : Mem) (node : Ptr) : Option (Ptr × Mem) := do
  let n ← m.load node
  let temp := node + 1 <<< (n.bucket.toUInt32 - 1)
  let m ← m.modify node fun n => { n with bucket := n.bucket - 1 }
  let n ← m.load node
  let m ← m.modify temp fun t => { t with
    bucket := n.bucket, status := n.status, next := n.next, previous := node }
  let m ← m.modify node fun n => { n with next := temp }
  let n ← m.load node
  let m ← m.modify temp fun t => { t with physPrev := node, physNext := n.physNext }
  let m ← m.modify node fun n => { n with physNext := temp }
  let t ← m.load temp
  let m ← m.modifyIf t.physNext fun p => { p with physPrev := temp }
  return (temp, m)

/-- The loop of `c4a_bucket_spillover`. -/
def spilloverLoop (lower : ℕ) (node : Ptr) : ℕ → State → Option State
  | 0, s => some s
  | prev + 1, s =>
    if prev + 1 > lower then do
      let (temp, m) ← c4aSplitNode s.mem node
      let s ← c4aBucketInsert ⟨s.heap, m⟩ prev temp
      spilloverLoop lower node prev s
    else
      some s

/-- `c4a_bucket_spillover`. -/
def c4aBucketSpillover (s : State) (lower upper : ℕ) : Option State := do
  let (node, s) ← c4aBucketPop s upper
  let s ← spilloverLoop lower node upper s
  c4aBucketInsert s lower node

/-- The rest of `c4a_get_node_from_bucket`, when there is a node in the bucket `next`. -/
def getNodeSpillover (s : State) (index next : ℕ) : Option (Ptr × State) := do
  let s ← c4aBucketSpillover s index next
  let (ret, s) ← c4aBucketPop s index
  let s ← c4aNodeUnlink s ret
  return (ret, s)

/-- `c4a_get_node_from_bucket`. -/
def c4aGetNodeFromBucket (s : State) (index : ℕ) : Option (Ptr × State) := do
  let (ret, s) ← c4aBucketPop s index
  if ret = 0 then
    let (next, s) ← c4aFindUpwardsBucket s (index + 1)
    getNodeSpillover s index next
  else
    return (ret, s)

/-- The bucket of a request, `index` in `c4a_alloc`. -/
def allocIndex (size : UInt32) : ℕ :=
  let adjusted := size + UInt32.ofNat nodeSize
  let index := ulog2 adjusted
  if adjusted ≠ 1 <<< UInt32.ofNat index then index + 1 else index

/-- `c4a_alloc`. -/
def c4aAlloc (s : State) (size : UInt32) : Option (Ptr × State) :=
  if allocIndex size > c4aMaxBuckets then
    some (0, s)
  else do
    let (node, s) ← c4aGetNodeFromBucket s (allocIndex size)
    let m ← s.mem.modify node fun n => { n with status := c4aStatusUsed }
    return (node + UInt32.ofNat nodeSize, ⟨s.heap, m⟩)

/-- `c4a_can_coalesce`; a node is read only when both pointers are not null. -/
def c4aCanCoalesce (m : Mem) (node next : Ptr) : Option Bool :=
  if node = 0 ∨ next = 0 then
    some false
  else do
    let a ← m.load node
    let b ← m.load next
    return a.status = c4aStatusFree ∧ b.status = c4aStatusFree ∧ a.bucket = b.bucket

/-- The last assignments of `c4a_do_coalesce`. -/
def joinNodes (m : Mem) (a b : Ptr) : Option Mem := do
  let m ← m.modify a fun p => { p with bucket := p.bucket + 1 }
  let n ← m.load b
  let m ← m.modify a fun p => { p with physNext := n.physNext }
  let p ← m.load a
  m.modifyIf p.physNext fun q => { q with physPrev := a }

/-- `c4a_do_coalesce`. -/
def c4aDoCoalesce (s : State) (a b : Ptr) : Option (Bool × State) := do
  if ← c4aCanCoalesce s.mem a b then
    let s ← c4aNodeUnlink s a
    let s ← c4aNodeUnlink s b
    let m ← joinNodes s.mem a b
    return (true, ⟨s.heap, m⟩)
  else
    return (false, s)

/-- The loop of `c4a_coalesce`. -/
def coalesceLoop : ℕ → State → Ptr → Option (Ptr × State)
  | 0, _, _ => none
  | k + 1, s, node => do
    let n ← s.mem.load node
    let (below, s) ← c4aDoCoalesce s n.physPrev node
    let node := if below then n.physPrev else node
    let n ← s.mem.load node
    let (above, s) ← c4aDoCoalesce s node n.physNext
    if below || above then coalesceLoop k s node else return (node, s)

/-- `c4a_coalesce`. -/
def c4aCoalesce (s : State) (node : Ptr) : Option (Ptr × State) := coalesceLoop (2 ^ 16) s node

/-- `c4a_free`. -/
def c4aFree (s : State) (ptr : Ptr) : Option State := do
  let node := ptr - UInt32.ofNat nodeSize
  let n ← s.mem.load node
  if n.status ≠ c4aStatusUsed then
    return s
  else
    let m ← s.mem.modify node fun n =>
      { n with status := c4aStatusFree, next := 0, previous := 0 }
    let (node, s) ← c4aCoalesce ⟨s.heap, m⟩ node
    let n ← s.mem.load node
    c4aBucketInsert s n.bucket.toNat node

/-- `c4a_heap_init`. -/
def c4aHeapInit (m : Mem) (location : Ptr) : State := ⟨⟨location, 0, fun _ => 0⟩, m⟩

end C4OS.C4alloc
