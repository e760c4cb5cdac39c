import C4OS.Ext2.Requests
import C4OS.Foundations.Faults

/-!
# The requests, with the reasons to stop

The functions of the server once more, as programs that say why they stop: a division by zero, a
shift by the width of a word or more, or a transfer or an access that leaves the block buffer. The
numbers of the superblock are used where the source uses them, so that a division or a shift stops
where the source makes it. All other reasons are one, `Stop.other`: a null pointer is read, a ring
is left, or a loop does not end.

What a function of the model does the program does, too (`ext2Server_extends`). The programs go
further in one place: when an inode cannot be read, `ext2_inode_alloc_block` prints that an
assertion failed and goes on with a record that is not initialised, `junk`.
-/

namespace C4OS.Ext2

open Foundations Ringbuffer

/-- Why a request is not served. -/
inductive Stop
  | division
  | shift
  | outside
  | other
  deriving DecidableEq

/-- The reasons that come from the numbers in the superblock. -/
def Hazard (e : Stop) : Prop := e ≠ .other

instance : DecidablePred Hazard := fun e => inferInstanceAs (Decidable (e ≠ .other))

namespace Checked

/-- A program on the device. -/
abbrev Prog := Faulting Device Stop

open Faulting

/-! ## The geometry -/

/-- `x / y`. -/
def divide (x y : ℕ) : Prog ℕ := if y = 0 then throw .division else pure (x / y)

/-- `x % y`. -/
def modulo (x y : ℕ) : Prog ℕ := if y = 0 then throw .division else pure (x % y)

/-- `ext2_block_size`. -/
def ext2BlockSize (sb : Superblock) : Prog ℕ :=
  if (sb.blockSize + 10) % wordSize ≥ 32 then throw .shift else pure (Ext2.ext2BlockSize sb)

/-- `ext2_total_block_descs`. -/
def ext2TotalBlockDescs (sb : Superblock) : Prog ℕ := divide sb.totalBlocks sb.blocksPerGroup

/-- `ext2_inodes_per_block`. -/
def ext2InodesPerBlock (sb : Superblock) : Prog ℕ := do
  let blockSize ← ext2BlockSize sb
  divide blockSize sb.inodeSize

/-- `ext2_block_group`. -/
def ext2BlockGroup (sb : Superblock) (inode : ℕ) : Prog ℕ :=
  divide ((inode + (wordSize - 1)) % wordSize) sb.inodesPerGroup

/-- `ext2_group_index`. -/
def ext2GroupIndex (sb : Superblock) (inode : ℕ) : Prog ℕ :=
  modulo ((inode + (wordSize - 1)) % wordSize) sb.inodesPerGroup

/-! ## The page and the block device -/

/-- A number in `block_buffer`. -/
def load (k off : ℕ) : Prog ℕ := read .outside fun d => d.load k off

/-- Assign to a number in `block_buffer`. -/
def store (k off x : ℕ) : Prog Unit :=
  act .outside fun d => (d.store k off x).map fun d => (d, ())

/-- A pointer is dereferenced. -/
def deref (ok : Bool) : Prog Unit := if ok then pure () else throw .other

/-- `ext2_read_block`. -/
def ext2ReadBlock (sb : Superblock) (block : ℕ) : Prog Bool :=
  if block > sb.totalBlocks then pure false
  else do
    let _ ← ext2BlockSize sb
    act .outside fun d => blockRead d (ext2BlockToSector sb block) (ext2BlockSizeToSectors sb)

/-- `ext2_write_block`. -/
def ext2WriteBlock (sb : Superblock) (block : ℕ) : Prog Bool :=
  if block > sb.totalBlocks then pure false
  else do
    let _ ← ext2BlockSize sb
    act .outside fun d => blockWrite d (ext2BlockToSector sb block) (ext2BlockSizeToSectors sb)

/-! ## Block groups -/

/-- `ext2_get_block_descs`. -/
def ext2GetBlockDescs (sb : Superblock) : Prog Bool := do
  let _ ← ext2BlockSize sb
  ext2ReadBlock sb (descStart sb)

/-- `ext2_write_block_descs`. -/
def ext2WriteBlockDescs (sb : Superblock) : Prog Bool := do
  let _ ← ext2BlockSize sb
  ext2WriteBlock sb (descStart sb)

/-- `ext2_get_block_desc`. -/
def ext2GetBlockDesc (sb : Superblock) (index : ℕ) : Prog (Option ℕ) := do
  let total ← ext2TotalBlockDescs sb
  if index ≥ total then return none
  else
    let ok ← ext2GetBlockDescs sb
    if ok then return some (index * descSize)
    else if index = 0 then return none
    else throw .other

/-- The end of an allocation. -/
def allocBit (sb : Superblock) (fields : MapFields) (descIndex block off map k : ℕ) :
    Prog Unit := do
  store 4 off (map ||| 2 ^ k)
  let _ ← ext2WriteBlock sb block
  let desc ← ext2GetBlockDesc sb descIndex
  let desc ← read .other fun _ => desc
  let unalloced ← load 2 (desc + fields.unalloced)
  store 2 (desc + fields.unalloced) (unalloced + (2 ^ 16 - 1))
  let _ ← ext2WriteBlockDescs sb
  return ()

/-- `table`, read again when the index of its block changes. -/
def readTable (sb : Superblock) (base index : ℕ) (last : Option ℕ) : Prog Unit :=
  if last = some index then pure ()
  else do
    let ok ← ext2ReadBlock sb ((base + index) % wordSize)
    deref ok

/-- The loop over the words of the bitmap. -/
def allocLoop (sb : Superblock) (fields : MapFields) (perGroup descIndex base : ℕ) :
    ℕ → Option ℕ → ℕ → Prog ℕ
  | 0, _, _ => throw .other
  | fuel + 1, last, i =>
    if i < perGroup then do
      let blockSize ← ext2BlockSize sb
      let index := i / blockSize
      readTable sb base index last
      let off := 4 * (i - index * blockSize)
      let map ← load 4 off
      match firstZero map with
      | some k =>
        allocBit sb fields descIndex ((base + index) % wordSize) off map k
        return (descIndex * perGroup + (i + k)) % wordSize
      | none => allocLoop sb fields perGroup descIndex base fuel (some index) ((i + 32) % wordSize)
    else
      return 0

/-- `ext2_alloc_block`. -/
def ext2AllocBlock (sb : Superblock) (descIndex : ℕ) : Prog ℕ := do
  let desc ← ext2GetBlockDesc sb descIndex
  match desc with
  | none => return 0
  | some desc =>
    let base ← load 4 (desc + blockFields.map)
    allocLoop sb blockFields sb.blocksPerGroup descIndex base (sb.blocksPerGroup / 32 + 2) none 0

/-! ## Inodes -/

/-- The block and the index in it of an inode; `descs` is whether the descriptors could be read. -/
def inodeLocation (sb : Superblock) (descs : Bool) (inode : ℕ) : Prog (ℕ × ℕ) := do
  let group ← ext2BlockGroup sb inode
  deref descs
  let table ← load 4 (group * descSize + 8)
  let groupIndex ← ext2GroupIndex sb inode
  let perBlock ← ext2InodesPerBlock sb
  let offset ← divide groupIndex perBlock
  let index ← modulo groupIndex perBlock
  return ((table + offset) % wordSize, index)

/-- `ext2_get_inode`. -/
def ext2GetInode (sb : Superblock) (inode : ℕ) : Prog (Option (ℕ × Inode)) := do
  let descs ← ext2GetBlockDescs sb
  if !descs || inode > sb.totalInodes then return none
  else
    let place ← inodeLocation sb descs inode
    let ok ← ext2ReadBlock sb place.1
    if ok then
      let e ← read .outside fun d => d.loadInode (place.2 * sb.inodeSize)
      return some (place.2 * sb.inodeSize, e)
    else return none

/-- `ext2_inode_table_block`. -/
def ext2InodeTableBlock (sb : Superblock) (inode : ℕ) : Prog ℕ := do
  let descs ← ext2GetBlockDescs sb
  let place ← inodeLocation sb descs inode
  return place.1

/-- `ext2_inode_update`. -/
def ext2InodeUpdate (sb : Superblock) (inode : ℕ) (e : Inode) : Prog ℕ := do
  let tableBlock ← ext2InodeTableBlock sb inode
  let bufptr ← ext2GetInode sb inode
  match bufptr with
  | none => return 0
  | some (off, _) =>
    act .outside fun d => (d.storeInode off e).map fun d => (d, ())
    let _ ← ext2WriteBlock sb tableBlock
    return inode

/-! ## The blocks of a file -/

/-- The branch of `ext2_inode_alloc_block` for the direct pointers. -/
def allocDirect (sb : Superblock) (inode block : ℕ) (e : Inode) : Prog ℕ :=
  if e.directPtr block ≠ 0 then pure (e.directPtr block)
  else do
    let group ← ext2BlockGroup sb inode
    let nBlock ← ext2AllocBlock sb group
    if nBlock = 0 then return 0
    else
      let _ ← ext2InodeUpdate sb inode (e.setDirectPtr block nBlock)
      return nBlock

/-- The first half of the branch for the indirect block. -/
def allocIndirect (sb : Superblock) (inode : ℕ) (e : Inode) : Prog (Option Inode) :=
  if e.singleIndirectPtr ≠ 0 then pure (some e)
  else do
    let group ← ext2BlockGroup sb inode
    let nBlock ← ext2AllocBlock sb group
    if nBlock = 0 then return none
    else
      let _ ← ext2InodeUpdate sb inode (e.setSingleIndirectPtr nBlock)
      return some (e.setSingleIndirectPtr nBlock)

/-- The second half. -/
def allocEntry (sb : Superblock) (inode block : ℕ) (e : Inode) : Prog ℕ := do
  let ok ← ext2ReadBlock sb e.singleIndirectPtr
  deref ok
  let ent ← load 4 (4 * (block - 12))
  if ent ≠ 0 then return ent
  else
    let group ← ext2BlockGroup sb inode
    let nBlock ← ext2AllocBlock sb group
    if nBlock = 0 then return 0
    else
      store 4 (4 * (block - 12)) nBlock
      let _ ← ext2WriteBlock sb e.singleIndirectPtr
      return nBlock

/-- `ext2_inode_alloc_block`. -/
def ext2InodeAllocBlock (sb : Superblock) (junk : Inode) (inode block : ℕ) : Prog ℕ := do
  let buf ← ext2GetInode sb inode
  let e := (buf.map Prod.snd).getD junk
  if block < 12 then allocDirect sb inode block e
  else
    let blockSize ← ext2BlockSize sb
    if block < blockSize / 4 + 12 then
      let e ← allocIndirect sb inode e
      match e with
      | none => return 0
      | some e => allocEntry sb inode block e
    else return 0

/-- The number of the disk block in `ext2_inode_read_block`. -/
def inodeBlock (sb : Superblock) (e : Inode) (block : ℕ) : Prog ℕ :=
  if block < 12 then pure (e.directPtr block)
  else do
    let blockSize ← ext2BlockSize sb
    if block < blockSize / 4 + 12 then
      if e.singleIndirectPtr = 0 then return 0
      else
        let ok ← ext2ReadBlock sb e.singleIndirectPtr
        deref ok
        load 4 (4 * (block - 12))
    else return 0

/-- `ext2_inode_read_block`. -/
def ext2InodeReadBlock (sb : Superblock) (e : Inode) (block : ℕ) : Prog Bool := do
  let rBlock ← inodeBlock sb e block
  if rBlock ≠ 0 then ext2ReadBlock sb rBlock
  else
    let blockSize ← ext2BlockSize sb
    act .outside fun d =>
      if blockSize ≤ pageSize then
        some ({ d with buffer := fun c => if c < blockSize then 0 else d.buffer c }, false)
      else none

/-! ## The handlers -/

/-- The connection and the replies at the end of a handler. -/
abbrev Handler := Prog (Conn × List Reply)

/-- `handle_set_node`. -/
def handleSetNode (sb : Superblock) (conn : Conn) (inode : ℕ) : Handler := do
  let e := (conn.progData.map ClientState.e2node).getD ⟨fun _ => 0⟩
  let buf ← ext2GetInode sb inode
  let e := (buf.map Prod.snd).getD e
  let cli : ClientState := ⟨⟨inode, FileType.unknown.toNat, 0⟩, e, 0⟩
  return ({ conn with progData := some cli }, [.completed []])

/-- The loop of `handle_find_name` over the entries of a block. -/
def findInBlock (sb : Superblock) (name : List UInt8) : ℕ → ℕ → Prog (Option Dirent)
  | 0, _ => throw .other
  | fuel + 1, i => do
    let blockSize ← ext2BlockSize sb
    if i < blockSize then
      let found ← read .outside fun d => nameMatches d i name
      if found then
        let ent ← read .outside fun d => d.loadDirent i
        return some ent
      else
        let size ← load 2 (i + 4)
        findInBlock sb name fuel (i + size)
    else
      return none

/-- The loop of `handle_find_name` over the blocks of a directory. -/
def findInDir (sb : Superblock) (e : Inode) (name : List UInt8) : ℕ → ℕ → Prog (Option Dirent)
  | 0, _ => throw .other
  | fuel + 1, block => do
    let blockSize ← ext2BlockSize sb
    if block * blockSize % wordSize < e.lowerSize then
      let ok ← ext2InodeReadBlock sb e block
      deref ok
      let found ← findInBlock sb name (blockSize + 1) 0
      match found with
      | some ent => return some ent
      | none => findInDir sb e name fuel (block + 1)
    else return none

/-- `handle_find_name`. -/
def handleFindName (sb : Superblock) (stack : ℕ → UInt8) (conn : Conn) (namelen : ℕ) :
    Handler := do
  let cli ← read .other fun _ => conn.progData
  if !ext2IsDirectory cli.e2node then return (conn, [.error .notDirectory])
  else
    let canRead ← read .other fun _ => c4RingbufCanRead conn.ring namelen
    if !canRead || namelen ≥ fsMaxNameLen then return (conn, [.error .badRequest])
    else
      let bytes ← read .other fun _ => c4RingbufRead conn.ring namelen
      let ent ← findInDir sb cli.e2node (nameBytes stack bytes.2 namelen)
        (cli.e2node.lowerSize / Ext2.ext2BlockSize sb + 2) 0
      return ({ conn with ring := bytes.1 }, [findReply ent])

/-- `handle_get_rootdir`. -/
def handleGetRootdir (sb : Superblock) (stack : ℕ → UInt8) (conn : Conn) : Handler := do
  let buf ← ext2GetInode sb 2
  let e := (buf.map Prod.snd).getD ⟨stack⟩
  return (conn, [.completed [2, FileType.directory.toNat, e.lowerSize]])

/-- `handle_get_node_info`. -/
def handleGetNodeInfo (sb : Superblock) (conn : Conn) (inode : ℕ) : Handler := do
  let buf ← ext2GetInode sb inode
  match buf with
  | none => return (conn, [.error .notFound])
  | some (_, e) =>
    return (conn, [.completed [e.lowerSize, (translateType (ext2InodeType e)).toNat]])

/-- The loop of `handle_list_dir`. -/
def listLoop (sb : Superblock) : ℕ → C4Ringbuf → (ℕ → UInt8) → ℕ → ℕ → Prog (C4Ringbuf × ℕ)
  | 0, _, _, _, _ => throw .other
  | fuel + 1, ring, name, i, sent => do
    let blockSize ← ext2BlockSize sb
    if i < blockSize then
      let ent ← read .outside fun d => d.loadDirent i
      let name ← read .outside fun d => copyName d i ent name
      let canWrite ← read .other fun _ => c4RingbufCanWrite ring fsDirentSize
      if canWrite then
        let write ← read .other fun _ => c4RingbufWrite ring
          (fsDirentBytes name ent.nameLength ent.inode (translateType ent.type).toNat)
        listLoop sb fuel write.1 name (i + ent.size) (sent + 1)
      else listLoop sb fuel ring name (i + ent.size) sent
    else
      return (ring, sent)

/-- `handle_list_dir`. -/
def handleListDir (sb : Superblock) (stack : ℕ → UInt8) (conn : Conn) : Handler :=
  match conn.progData with
  | none => pure (conn, [.error .badRequest])
  | some cli => do
    let blockSize ← ext2BlockSize sb
    if cli.index * blockSize % wordSize ≥ cli.e2node.lowerSize then
      return (conn, [.completed [0]])
    else
      let ok ← ext2InodeReadBlock sb cli.e2node cli.index
      deref ok
      let list ← listLoop sb (blockSize + 1) conn.ring stack 0 0
      let cli := { cli with index := (cli.index + 1) % wordSize }
      return (⟨list.1, some cli⟩, [.completed [list.2]])

/-- `handle_read_block`. -/
def handleReadBlock (sb : Superblock) (conn : Conn) : Handler :=
  match conn.progData with
  | none => pure (conn, [.error .badRequest])
  | some cli =>
    if cli.index ≥ cli.e2node.lowerSize then pure (conn, [.completed [0]])
    else do
      let blockSize ← ext2BlockSize sb
      let writesize := min (cli.e2node.lowerSize - cli.index) blockSize
      let offset ← modulo cli.index blockSize
      let canWrite ← read .other fun _ => c4RingbufCanWrite conn.ring writesize
      if !canWrite then return (conn, [.error .queueFull])
      else
        let ok ← ext2InodeReadBlock sb cli.e2node (cli.index / blockSize)
        deref ok
        let bytes ← read .outside fun d => d.loadBytes offset writesize
        let write ← read .other fun _ => c4RingbufWrite conn.ring bytes
        let cli := { cli with index := (cli.index + write.2) % wordSize }
        return (⟨write.1, some cli⟩, [.completed [write.2]])

/-- `handle_write_block`. -/
def handleWriteBlock (sb : Superblock) (stack : ℕ → UInt8) (conn : Conn) : Handler :=
  match conn.progData with
  | none => pure (conn, [.error .badRequest])
  | some cli => do
    let blockSize ← ext2BlockSize sb
    let offset ← modulo cli.index blockSize
    if c4RingbufEmpty conn.ring then return (conn, [.completed [0]])
    else
      let fsBlock ← ext2InodeAllocBlock sb ⟨stack⟩ cli.fsnode.inode (cli.index / blockSize)
      let ok ← ext2ReadBlock sb fsBlock
      deref ok
      let bytes ← read .other fun _ => c4RingbufRead conn.ring (blockSize - offset)
      act .outside fun d => (d.storeBytes offset bytes.2).map fun d => (d, ())
      let _ ← ext2WriteBlock sb fsBlock
      let cli := { cli with index := (cli.index + bytes.2.length) % wordSize }
      return (⟨bytes.1, some cli⟩, [.completed [bytes.2.length]])

/-- The body of the loop of `ext2_server`. -/
def ext2Server (sb : Superblock) (stack : ℕ → UInt8) (conn : Conn) (request : Message) : Handler :=
  match request.type with
  | .setNode => handleSetNode sb conn (request.data 0)
  | .findName => handleFindName sb stack conn (request.data 0)
  | .getRootDir => handleGetRootdir sb stack conn
  | .getNodeInfo => handleGetNodeInfo sb conn (request.data 0)
  | .listDir => handleListDir sb stack conn
  | .readBlock => handleReadBlock sb conn
  | .writeBlock => handleWriteBlock sb stack conn
  | .other => pure (conn, [.error .notImplemented])

/-! ## The model -/

variable {sb : Superblock}

theorem blockSize_run (hs : (sb.blockSize + 10) % wordSize < 32) (d : Device) :
    (ext2BlockSize sb).run d = .ok (Ext2.ext2BlockSize sb, d) := by
  rw [ext2BlockSize, if_neg (Nat.not_le_of_lt hs)]
  rfl

theorem load_run {d : Device} {k off x : ℕ} (h : d.load k off = some x) :
    (load k off).run d = .ok (x, d) := run_read_of_some h

theorem store_run {d d' : Device} {k off x : ℕ} (h : d.store k off x = some d') :
    (store k off x).run d = .ok ((), d') := run_act_of_some (congrArg (Option.map _) h)

theorem modulo_run {x y : ℕ} (hy : y ≠ 0) (d : Device) :
    (modulo x y).run d = .ok (x % y, d) := by
  rw [modulo, if_neg hy]
  rfl

theorem divide_run {x y : ℕ} (hy : y ≠ 0) (d : Device) :
    (divide x y).run d = .ok (x / y, d) := by
  rw [divide, if_neg hy]
  rfl

theorem divide_observes (x y : ℕ) :
    Observes (divide x y) fun _ => if y = 0 then none else some (x / y) :=
  .ite (fun _ => .none _) fun _ => .pure _

theorem modulo_observes (x y : ℕ) :
    Observes (modulo x y) fun _ => if y = 0 then none else some (x % y) :=
  .ite (fun _ => .none _) fun _ => .pure _

theorem blockGroup_observes (inode : ℕ) :
    Observes (ext2BlockGroup sb inode) fun _ => Ext2.ext2BlockGroup sb inode := divide_observes _ _

section

variable (hs : (sb.blockSize + 10) % wordSize < 32)

include hs

theorem readBlock_extends (block : ℕ) :
    Extends (ext2ReadBlock sb block) fun d => Ext2.ext2ReadBlock sb d block :=
  .ite (fun _ => .pure false) fun _ => .skip (blockSize_run hs) (.act _ _)

theorem writeBlock_extends (block : ℕ) :
    Extends (ext2WriteBlock sb block) fun d => Ext2.ext2WriteBlock sb d block :=
  .ite (fun _ => .pure false) fun _ => .skip (blockSize_run hs) (.act _ _)

theorem getBlockDescs_extends :
    Extends (ext2GetBlockDescs sb) fun d => Ext2.ext2GetBlockDescs sb d :=
  .skip (blockSize_run hs) (readBlock_extends hs _)

theorem writeBlockDescs_extends :
    Extends (ext2WriteBlockDescs sb) fun d => Ext2.ext2WriteBlockDescs sb d :=
  .skip (blockSize_run hs) (writeBlock_extends hs _)

theorem getBlockDesc_extends (index : ℕ) :
    Extends (ext2GetBlockDesc sb index) fun d => Ext2.ext2GetBlockDesc sb d index := by
  refine .get_bind (divide_observes _ _) fun total => .ite (fun _ => .pure none) fun _ => ?_
  refine .bind (getBlockDescs_extends hs) fun ok => .ite (fun _ => .pure _) fun _ => ?_
  exact .ite (fun _ => .pure none) fun _ => .none _

theorem allocBit_extends (fields : MapFields) (descIndex block off map k : ℕ) :
    Extends (allocBit sb fields descIndex block off map k) fun d =>
      (Ext2.allocBit sb fields d descIndex block off map k).map fun d => (d, ()) := by
  intro d d' _ h
  obtain ⟨d', hrun, heq⟩ := Option.map_eq_some_iff.1 h
  cases heq
  obtain ⟨d₁, h₁, hrun⟩ := Option.bind_eq_some_iff.1 hrun
  obtain ⟨⟨d₂, ok⟩, h₂, hrun⟩ := Option.bind_eq_some_iff.1 hrun
  obtain ⟨⟨d₃, desc⟩, h₃, hrun⟩ := Option.bind_eq_some_iff.1 hrun
  obtain ⟨off', hdesc, hrun⟩ := Option.bind_eq_some_iff.1 hrun
  obtain ⟨unalloced, h₄, hrun⟩ := Option.bind_eq_some_iff.1 hrun
  obtain ⟨d₅, h₅, hrun⟩ := Option.bind_eq_some_iff.1 hrun
  obtain ⟨⟨d₆, ok'⟩, h₆, hrun⟩ := Option.bind_eq_some_iff.1 hrun
  cases hrun
  rw [allocBit, run_bind_of_ok (store_run h₁),
    run_bind_of_ok (writeBlock_extends hs block _ _ _ h₂),
    run_bind_of_ok (getBlockDesc_extends hs _ _ _ _ h₃), run_bind_of_ok (run_read_of_some hdesc),
    run_bind_of_ok (load_run h₄), run_bind_of_ok (store_run h₅),
    run_bind_of_ok (writeBlockDescs_extends hs _ _ _ h₆)]
  rfl

theorem readTable_extends (base index : ℕ) (last : Option ℕ) :
    Extends (readTable sb base index last) fun d =>
      (Ext2.readTable sb d base index last).map fun d => (d, ()) := by
  intro d d' _ h
  obtain ⟨d', hrun, heq⟩ := Option.map_eq_some_iff.1 h
  cases heq
  rw [Ext2.readTable] at hrun
  rw [readTable]
  split at hrun
  · next hlast =>
    cases hrun
    rw [if_pos hlast]
    rfl
  · next hlast =>
    obtain ⟨⟨d₁, ok⟩, h₁, hrun⟩ := Option.bind_eq_some_iff.1 hrun
    obtain ⟨rfl, heq⟩ := Option.ite_none_right_eq_some.1 hrun
    cases heq
    rw [if_neg hlast, run_bind_of_ok (readBlock_extends hs _ _ _ _ h₁)]
    rfl

theorem allocLoop_extends (fields : MapFields) (perGroup descIndex base fuel : ℕ)
    (last : Option ℕ) (i : ℕ) :
    Extends (allocLoop sb fields perGroup descIndex base fuel last i) fun d =>
      Ext2.allocLoop sb fields perGroup descIndex base fuel d last i := by
  induction fuel generalizing last i with
  | zero => exact .none _
  | succ fuel ih =>
    refine .ite (fun _ => ?_) fun _ => .pure 0
    refine .skip (blockSize_run hs) (.set_bind (readTable_extends hs _ _ _) ?_)
    refine .get_bind (.read _ _) fun map => ?_
    cases hmap : firstZero map with
    | none => exact ih _ _
    | some k => exact .set_bind (allocBit_extends hs _ _ _ _ _ _) (.pure _)

theorem allocBlock_extends (descIndex : ℕ) :
    Extends (ext2AllocBlock sb descIndex) fun d => Ext2.ext2AllocBlock sb d descIndex := by
  refine .bind (getBlockDesc_extends hs _) fun desc => ?_
  cases desc with
  | none => exact .pure 0
  | some desc => exact .get_bind (.read _ _) fun base => allocLoop_extends hs _ _ _ _ _ _ _

theorem inodeLocation_observes (inode : ℕ) :
    Observes (inodeLocation sb true inode) fun d => Ext2.inodeLocation sb d inode := by
  refine .bind (blockGroup_observes inode) fun group => .skip (fun _ => rfl) ?_
  refine .bind (.read _ _) fun table => .bind (modulo_observes _ _) fun groupIndex => ?_
  refine .bind (.skip (blockSize_run hs) (divide_observes _ _)) fun perBlock => ?_
  intro d place h
  obtain ⟨hne, heq⟩ := Option.ite_none_left_eq_some.1 h
  cases heq
  rw [divide, modulo, if_neg hne, if_neg hne]
  rfl

theorem getInode_extends (inode : ℕ) :
    Extends (ext2GetInode sb inode) fun d => Ext2.ext2GetInode sb d inode := by
  refine .bind (getBlockDescs_extends hs) fun ok => .ite (fun _ => .pure none) fun hc => ?_
  obtain rfl : ok = true := by
    by_contra hok
    simp [hok] at hc
  refine .get_bind (inodeLocation_observes hs inode) fun place => ?_
  refine .bind (readBlock_extends hs _) fun ok => .ite (fun _ => ?_) fun _ => .pure none
  exact .get_bind (.read _ _) fun e => .pure _

theorem inodeTableBlock_extends (inode : ℕ) :
    Extends (ext2InodeTableBlock sb inode) fun d => Ext2.ext2InodeTableBlock sb d inode := by
  refine .bind (getBlockDescs_extends hs) fun ok => ?_
  cases ok with
  | true => exact .get_bind (inodeLocation_observes hs inode) fun place => .pure _
  | false => exact .none _

theorem inodeUpdate_extends (inode : ℕ) (e : Inode) :
    Extends (ext2InodeUpdate sb inode e) fun d => Ext2.ext2InodeUpdate sb d inode e := by
  refine .bind (inodeTableBlock_extends hs inode) fun tableBlock => ?_
  refine .bind (getInode_extends hs inode) fun bufptr => ?_
  cases bufptr with
  | none => exact .pure 0
  | some buf =>
    exact .set_bind (.act _ _) (.bind (writeBlock_extends hs _) fun _ => .pure inode)

theorem allocDirect_extends (inode block : ℕ) (e : Inode) :
    Extends (allocDirect sb inode block e) fun d => Ext2.allocDirect sb d inode block e := by
  refine .ite (fun _ => .pure _) fun _ => .get_bind (blockGroup_observes inode) fun group => ?_
  refine .bind (allocBlock_extends hs group) fun nBlock => .ite (fun _ => .pure 0) fun _ => ?_
  exact .bind (inodeUpdate_extends hs inode _) fun _ => .pure nBlock

theorem allocIndirect_extends (inode : ℕ) (e : Inode) :
    Extends (allocIndirect sb inode e) fun d => Ext2.allocIndirect sb d inode e := by
  refine .ite (fun _ => .pure _) fun _ => .get_bind (blockGroup_observes inode) fun group => ?_
  refine .bind (allocBlock_extends hs group) fun nBlock => .ite (fun _ => .pure none) fun _ => ?_
  exact .bind (inodeUpdate_extends hs inode _) fun _ => .pure _

theorem allocEntry_extends (inode block : ℕ) (e : Inode) :
    Extends (allocEntry sb inode block e) fun d => Ext2.allocEntry sb d inode block e := by
  refine .bind (readBlock_extends hs _) fun ok => ?_
  cases ok with
  | false => exact .none _
  | true =>
    refine .skip (fun _ => rfl) (.get_bind (.read _ _) fun ent => .ite (fun _ => .pure ent) ?_)
    refine fun _ => .get_bind (blockGroup_observes inode) fun group => ?_
    refine .bind (allocBlock_extends hs group) fun nBlock => .ite (fun _ => .pure 0) fun _ => ?_
    exact .set_bind (.act _ _) (.bind (writeBlock_extends hs _) fun _ => .pure nBlock)

theorem inodeAllocBlock_extends (junk : Inode) (inode block : ℕ) :
    Extends (ext2InodeAllocBlock sb junk inode block) fun d =>
      Ext2.ext2InodeAllocBlock sb d inode block := by
  refine .bind (getInode_extends hs inode) fun buf => ?_
  cases buf with
  | none => exact .none _
  | some record =>
    refine .ite (fun _ => allocDirect_extends hs inode block _) fun _ => ?_
    refine .skip (blockSize_run hs) (.ite (fun _ => ?_) fun _ => .pure 0)
    refine .bind (allocIndirect_extends hs inode _) fun e => ?_
    cases e with
    | none => exact .pure 0
    | some e => exact allocEntry_extends hs inode block e

theorem inodeBlock_extends (e : Inode) (block : ℕ) :
    Extends (inodeBlock sb e block) fun d => Ext2.inodeBlock sb d e block := by
  refine .ite (fun _ => .pure _) fun _ => .skip (blockSize_run hs) (.ite ?_ fun _ => .pure 0)
  refine fun _ => .ite (fun _ => .pure 0) fun _ => .bind (readBlock_extends hs _) fun ok => ?_
  cases ok with
  | false => exact .none _
  | true =>
    refine .skip (fun _ => rfl) fun d d' ent h => ?_
    obtain ⟨ent', hload, heq⟩ := Option.bind_eq_some_iff.1 h
    cases heq
    exact load_run hload

theorem inodeReadBlock_extends (e : Inode) (block : ℕ) :
    Extends (ext2InodeReadBlock sb e block) fun d => Ext2.ext2InodeReadBlock sb d e block := by
  refine .bind (inodeBlock_extends hs e block) fun rBlock => ?_
  exact .ite (fun _ => readBlock_extends hs rBlock) fun _ => .skip (blockSize_run hs) (.act _ _)

theorem findInBlock_observes (name : List UInt8) (fuel i : ℕ) :
    Observes (findInBlock sb name fuel i) fun d => Ext2.findInBlock sb d name fuel i := by
  induction fuel generalizing i with
  | zero => exact .none _
  | succ fuel ih =>
    refine .skip (blockSize_run hs) (.ite (fun _ => ?_) fun _ => .pure none)
    refine .bind (.read _ _) fun found => .ite (fun _ => ?_) fun _ => ?_
    · exact .bind (.read _ _) fun ent => .pure _
    · exact .bind (.read _ _) fun size => ih _

theorem findInDir_extends (e : Inode) (name : List UInt8) (fuel block : ℕ) :
    Extends (findInDir sb e name fuel block) fun d => Ext2.findInDir sb e name fuel d block := by
  induction fuel generalizing block with
  | zero => exact .none _
  | succ fuel ih =>
    refine .skip (blockSize_run hs) (.ite (fun _ => ?_) fun _ => .pure none)
    refine .bind (inodeReadBlock_extends hs e block) fun ok => ?_
    cases ok with
    | false => exact .none _
    | true =>
      refine .skip (fun _ => rfl) (.get_bind (findInBlock_observes hs name _ 0) fun found => ?_)
      cases found with
      | some ent => exact .pure _
      | none => exact ih _

theorem handleFindName_extends (stack : ℕ → UInt8) (conn : Conn) (namelen : ℕ) :
    Extends (handleFindName sb stack conn namelen) fun d => do
      let (d, conn, replies, _) ← Ext2.handleFindName sb stack d conn namelen
      return (d, conn, replies) := by
  intro d d' r h
  obtain ⟨⟨d₁, conn₁, replies, name⟩, hrun, heq⟩ := Option.bind_eq_some_iff.1 h
  cases heq
  obtain ⟨cli, hcli, hrun⟩ := Option.bind_eq_some_iff.1 hrun
  refine (run_bind_of_ok (Observes.read _ _ d cli hcli)).trans ?_
  split at hrun
  · next hdir =>
    cases hrun
    rw [if_pos hdir]
    rfl
  · next hdir =>
    obtain ⟨canRead, hcan, hrun⟩ := Option.bind_eq_some_iff.1 hrun
    rw [if_neg hdir]
    refine (run_bind_of_ok (Observes.read _ _ d canRead hcan)).trans ?_
    split at hrun
    · next hbad =>
      cases hrun
      rw [if_pos hbad]
      rfl
    · next hbad =>
      obtain ⟨⟨ring, bytes⟩, hread, hrun⟩ := Option.bind_eq_some_iff.1 hrun
      obtain ⟨⟨d₂, ent⟩, hfind, heq⟩ := Option.bind_eq_some_iff.1 hrun
      cases heq
      rw [if_neg hbad]
      refine (run_bind_of_ok (Observes.read _ _ d (ring, bytes) hread)).trans ?_
      exact run_bind_of_ok (findInDir_extends hs _ _ _ _ d _ _ hfind)

theorem listLoop_observes (fuel : ℕ) (ring : C4Ringbuf) (name : ℕ → UInt8) (i sent : ℕ) :
    Observes (listLoop sb fuel ring name i sent) fun d =>
      Ext2.listLoop sb d fuel ring name i sent := by
  induction fuel generalizing ring name i sent with
  | zero => exact .none _
  | succ fuel ih =>
    refine .skip (blockSize_run hs) (.ite (fun _ => ?_) fun _ => .pure _)
    refine .bind (.read _ _) fun ent d list h => ?_
    obtain ⟨⟨ring', name', fits⟩, hsend, hrun⟩ := Option.bind_eq_some_iff.1 h
    obtain ⟨copied, hcopy, hsend⟩ := Option.bind_eq_some_iff.1 hsend
    obtain ⟨canWrite, hcan, hsend⟩ := Option.bind_eq_some_iff.1 hsend
    refine (run_bind_of_ok (Observes.read _ _ d copied hcopy)).trans ?_
    refine (run_bind_of_ok (Observes.read _ _ d canWrite hcan)).trans ?_
    cases canWrite with
    | true =>
      obtain ⟨write, hwrite, heq⟩ := Option.bind_eq_some_iff.1 hsend
      cases heq
      exact (run_bind_of_ok (Observes.read _ _ d write hwrite)).trans (ih _ _ _ _ d list hrun)
    | false =>
      cases hsend
      exact ih _ _ _ _ d list hrun

theorem handleListDir_extends (stack : ℕ → UInt8) (conn : Conn) :
    Extends (handleListDir sb stack conn) fun d => Ext2.handleListDir sb stack d conn := by
  unfold handleListDir Ext2.handleListDir
  cases conn.progData with
  | none => exact .pure _
  | some cli =>
    refine .skip (blockSize_run hs) (.ite (fun _ => .pure _) fun _ => ?_)
    refine .bind (inodeReadBlock_extends hs _ _) fun ok => ?_
    cases ok with
    | false => exact .none _
    | true =>
      exact .skip (fun _ => rfl) (.get_bind (listLoop_observes hs _ _ _ _ _) fun list => .pure _)

theorem handleReadBlock_extends (conn : Conn) :
    Extends (handleReadBlock sb conn) fun d => Ext2.handleReadBlock sb d conn := by
  unfold handleReadBlock Ext2.handleReadBlock
  cases conn.progData with
  | none => exact .pure _
  | some cli =>
    refine .ite (fun _ => .pure _) fun _ => .skip (blockSize_run hs) ?_
    by_cases hzero : Ext2.ext2BlockSize sb = 0
    · simp only [if_pos hzero]
      exact .none _
    · simp only [if_neg hzero]
      refine .skip (modulo_run hzero) (.get_bind (.read _ _) fun canWrite => ?_)
      refine .ite (fun _ => .pure _) fun _ => .bind (inodeReadBlock_extends hs _ _) fun ok => ?_
      cases ok with
      | false => exact .none _
      | true =>
        refine .skip (fun _ => rfl) (.get_bind (.read _ _) fun bytes => ?_)
        exact .get_bind (.read _ _) fun write => .pure _

theorem handleWriteBlock_extends (stack : ℕ → UInt8) (conn : Conn) :
    Extends (handleWriteBlock sb stack conn) fun d => Ext2.handleWriteBlock sb d conn := by
  unfold handleWriteBlock Ext2.handleWriteBlock
  cases conn.progData with
  | none => exact .pure _
  | some cli =>
    refine .skip (blockSize_run hs) ?_
    by_cases hzero : Ext2.ext2BlockSize sb = 0
    · simp only [if_pos hzero]
      exact .none _
    · simp only [if_neg hzero]
      refine .skip (modulo_run hzero) (.ite (fun _ => .pure _) fun _ => ?_)
      refine .bind (inodeAllocBlock_extends hs _ _ _) fun fsBlock => ?_
      refine .bind (readBlock_extends hs _) fun ok => ?_
      cases ok with
      | false => exact .none _
      | true =>
        refine .skip (fun _ => rfl) (.get_bind (.read _ _) fun bytes => ?_)
        exact .set_bind (.act _ _) (.bind (writeBlock_extends hs _) fun _ => .pure _)

/-- **What the server of the model does, this one does.** -/
theorem ext2Server_extends (stack : ℕ → UInt8) (conn : Conn) (request : Message) :
    Extends (ext2Server sb stack conn request) fun d =>
      Ext2.ext2Server sb stack d conn request := by
  obtain ⟨type, data⟩ := request
  cases type with
  | setNode => exact .bind (getInode_extends hs _) fun buf => .pure _
  | findName => exact handleFindName_extends hs stack conn _
  | getRootDir => exact .bind (getInode_extends hs _) fun buf => .pure _
  | getNodeInfo =>
    refine .bind (getInode_extends hs _) fun buf => ?_
    cases buf <;> exact .pure _
  | listDir => exact handleListDir_extends hs stack conn
  | readBlock => exact handleReadBlock_extends hs conn
  | writeBlock => exact handleWriteBlock_extends hs stack conn
  | other => exact .pure _

end

end Checked

/-! ## Runs -/

/-- An event is handled: a request is served, or a client uses its ring. -/
inductive Serves (sb : Superblock) : Server → Event → Server → Prop
  | request {x : Server} {c : ℕ} {stack : ℕ → UInt8} {msg : Message} {d : Device}
      {r : Conn × List Reply}
      (hrun : (Checked.ext2Server sb stack (x.conns c) msg).run x.dev = .ok (r, d)) :
      Serves sb x (.request c stack msg) ⟨d, Function.update x.conns c r.1⟩
  | write {x : Server} {c : ℕ} {bytes : List UInt8} {ring : C4Ringbuf} {n : ℕ}
      (hrun : c4RingbufWrite (x.conns c).ring bytes = some (ring, n)) :
      Serves sb x (.write c bytes) (x.setRing c ring)
  | read {x : Server} {c size : ℕ} {ring : C4Ringbuf} {bytes : List UInt8}
      (hrun : c4RingbufRead (x.conns c).ring size = some (ring, bytes)) :
      Serves sb x (.read c size) (x.setRing c ring)

/-- A step of the model is one of these. -/
theorem Handles.serves {sb : Superblock} (hs : (sb.blockSize + 10) % wordSize < 32) {x y : Server}
    {ev : Event} (h : Handles sb x ev y) : Serves sb x ev y := by
  cases h with
  | request hrun => exact .request (Checked.ext2Server_extends hs _ _ _ _ _ _ hrun)
  | write hrun => exact .write hrun
  | read hrun => exact .read hrun

/-- The server of a device, with clients that have just connected. -/
def Server.on (d : Device) : Server := ⟨d, fun _ => (System.connect d.disk).conn⟩

end C4OS.Ext2
