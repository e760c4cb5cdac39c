import C4OS.Ext2.Requests
import C4OS.Foundations.Attempts

/-!
# The transfers of a request

A handler that stops, at a null pointer for instance, has no result in the model, and so nothing is
known of the transfers before. Here are its functions once more, as programs that keep the device at
the place where they stop. The erasure of each one is the function of the model, up to
`ext2Server_result`.
-/

namespace C4OS.Ext2

open Foundations Ringbuffer

instance : Attempting Device where
  attempts := Device.transfers
  fails := Device.fault

namespace Tracing

/-- A program on the device. -/
abbrev Prog := Traced Device

variable {sb : Superblock} {d : Device}

/-! ## The page and the device -/

/-- Where the source goes wrong. -/
def stop {α : Type} : Prog α := .get fun _ => none

/-- `Device.load`. -/
def load (k off : ℕ) : Prog ℕ := .get fun d => d.load k off

theorem local_of_ite {c : Device → Prop} [DecidablePred c] {f : Device → Device}
    (hf : ∀ d, (f d).transfers = d.transfers ∧ (f d).fault = d.fault) :
    Traced.Local fun d => if c d then some (f d) else none := by
  intro d d' h
  obtain ⟨-, h⟩ := Option.ite_none_right_eq_some.1 h
  rw [← Option.some.inj h]
  exact hf d

/-- `Device.store`. -/
def store (k off x : ℕ) : Prog Unit :=
  .update (fun d => d.store k off x) (local_of_ite fun _ => ⟨rfl, rfl⟩)

/-- `Device.storeBytes`. -/
def storeBytes (off : ℕ) (bytes : List UInt8) : Prog Unit :=
  .update (fun d => d.storeBytes off bytes) (local_of_ite fun _ => ⟨rfl, rfl⟩)

/-- `Device.storeInode`. -/
def storeInode (off : ℕ) (e : Inode) : Prog Unit :=
  .update (fun d => d.storeInode off e) (local_of_ite fun _ => ⟨rfl, rfl⟩)

/-- The page is cleared for a block that is not there. -/
def clear (sb : Superblock) : Prog Unit :=
  .update (fun d => if ext2BlockSize sb ≤ pageSize then
    some { d with buffer := fun c => if c < ext2BlockSize sb then 0 else d.buffer c } else none)
    (local_of_ite fun _ => ⟨rfl, rfl⟩)

theorem counts_readBlock (sb : Superblock) (block : ℕ) :
    Traced.Counts fun d => Ext2.ext2ReadBlock sb d block := by
  intro d d' ok h
  simp only [Ext2.ext2ReadBlock, blockRead] at h
  split_ifs at h
  · obtain ⟨rfl, -⟩ := Prod.mk.inj (Option.some.inj h)
    exact ⟨Nat.le_refl _, rfl⟩
  · obtain ⟨rfl, -⟩ := Prod.mk.inj (Option.some.inj h)
    exact ⟨Nat.le_succ _, rfl⟩
  · obtain ⟨rfl, -⟩ := Prod.mk.inj (Option.some.inj h)
    exact ⟨Nat.le_succ _, rfl⟩

theorem counts_writeBlock (sb : Superblock) (block : ℕ) :
    Traced.Counts fun d => Ext2.ext2WriteBlock sb d block := by
  intro d d' ok h
  simp only [Ext2.ext2WriteBlock, blockWrite] at h
  split_ifs at h
  · obtain ⟨rfl, -⟩ := Prod.mk.inj (Option.some.inj h)
    exact ⟨Nat.le_refl _, rfl⟩
  · obtain ⟨rfl, -⟩ := Prod.mk.inj (Option.some.inj h)
    exact ⟨Nat.le_succ _, rfl⟩
  · obtain ⟨rfl, -⟩ := Prod.mk.inj (Option.some.inj h)
    exact ⟨Nat.le_succ _, rfl⟩

/-- `ext2_read_block`. -/
def ext2ReadBlock (sb : Superblock) (block : ℕ) : Prog Bool := .step _ (counts_readBlock sb block)

/-- `ext2_write_block`. -/
def ext2WriteBlock (sb : Superblock) (block : ℕ) : Prog Bool :=
  .step _ (counts_writeBlock sb block)

@[simp] theorem load_result (k off : ℕ) :
    (load k off).result d = (d.load k off).map fun x => (d, x) := rfl

@[simp] theorem store_result (k off x : ℕ) :
    (store k off x).result d = (d.store k off x).map fun d' => (d', ()) :=
  Traced.result_update _ _ d

@[simp] theorem storeBytes_result (off : ℕ) (bytes : List UInt8) :
    (storeBytes off bytes).result d = (d.storeBytes off bytes).map fun d' => (d', ()) :=
  Traced.result_update _ _ d

@[simp] theorem storeInode_result (off : ℕ) (e : Inode) :
    (storeInode off e).result d = (d.storeInode off e).map fun d' => (d', ()) :=
  Traced.result_update _ _ d

@[simp] theorem ext2ReadBlock_result (block : ℕ) :
    (ext2ReadBlock sb block).result d = Ext2.ext2ReadBlock sb d block := Traced.result_step _ _ d

@[simp] theorem ext2WriteBlock_result (block : ℕ) :
    (ext2WriteBlock sb block).result d = Ext2.ext2WriteBlock sb d block := Traced.result_step _ _ d

/-! ## Block groups -/

/-- `ext2_get_block_desc`. -/
def ext2GetBlockDesc (sb : Superblock) (index : ℕ) : Prog (Option ℕ) := do
  let total ← .get fun _ => ext2TotalBlockDescs sb
  if index ≥ total then return none
  else
    let ok ← ext2ReadBlock sb (descStart sb)
    if ok then return some (index * descSize)
    else if index = 0 then return none
    else stop

/-- The end of an allocation. -/
def allocBit (sb : Superblock) (fields : MapFields) (descIndex block off map k : ℕ) :
    Prog Unit := do
  store 4 off (map ||| 2 ^ k)
  let _ ← ext2WriteBlock sb block
  let desc ← ext2GetBlockDesc sb descIndex
  let desc ← .get fun _ => desc
  let unalloced ← load 2 (desc + fields.unalloced)
  store 2 (desc + fields.unalloced) (unalloced + (2 ^ 16 - 1))
  let _ ← ext2WriteBlock sb (descStart sb)
  return ()

/-- `table`, read again when the index of its block changes. -/
def readTable (sb : Superblock) (base index : ℕ) (last : Option ℕ) : Prog Unit :=
  if last = some index then pure ()
  else do
    let ok ← ext2ReadBlock sb ((base + index) % wordSize)
    if ok then return () else stop

/-- The loop over the words of the bitmap. -/
def allocLoop (sb : Superblock) (fields : MapFields) (perGroup descIndex base : ℕ) :
    ℕ → Option ℕ → ℕ → Prog ℕ
  | 0, _, _ => stop
  | fuel + 1, last, i =>
    if i < perGroup then do
      let index := i / ext2BlockSize sb
      readTable sb base index last
      let off := 4 * (i - index * ext2BlockSize sb)
      let map ← load 4 off
      match firstZero map with
      | some k =>
        allocBit sb fields descIndex ((base + index) % wordSize) off map k
        return (descIndex * perGroup + (i + k)) % wordSize
      | none => allocLoop sb fields perGroup descIndex base fuel (some index) ((i + 32) % wordSize)
    else
      return 0

/-- `ext2_alloc_block`. -/
def ext2AllocBlock (sb : Superblock) (descIndex : ℕ) : Prog ℕ := do
  let desc ← ext2GetBlockDesc sb descIndex
  match desc with
  | none => return 0
  | some desc =>
    let base ← load 4 (desc + blockFields.map)
    allocLoop sb blockFields sb.blocksPerGroup descIndex base (sb.blocksPerGroup / 32 + 2) none 0

/-! ## Inodes -/

/-- `ext2_get_inode`. -/
def ext2GetInode (sb : Superblock) (inode : ℕ) : Prog (Option (ℕ × Inode)) := do
  let ok ← ext2ReadBlock sb (descStart sb)
  if !ok || inode > sb.totalInodes then return none
  else
    let place ← .get fun d => inodeLocation sb d inode
    let ok ← ext2ReadBlock sb place.1
    if ok then
      let e ← .get fun d => d.loadInode (place.2 * sb.inodeSize)
      return some (place.2 * sb.inodeSize, e)
    else return none

/-- `ext2_inode_table_block`. -/
def ext2InodeTableBlock (sb : Superblock) (inode : ℕ) : Prog ℕ := do
  let ok ← ext2ReadBlock sb (descStart sb)
  if ok then
    let place ← .get fun d => inodeLocation sb d inode
    return place.1
  else stop

/-- `ext2_inode_update`. -/
def ext2InodeUpdate (sb : Superblock) (inode : ℕ) (e : Inode) : Prog ℕ := do
  let tableBlock ← ext2InodeTableBlock sb inode
  let bufptr ← ext2GetInode sb inode
  match bufptr with
  | none => return 0
  | some (off, _) =>
    storeInode off e
    let _ ← ext2WriteBlock sb tableBlock
    return inode

/-! ## The blocks of a file -/

/-- The branch of `ext2_inode_alloc_block` for the direct pointers. -/
def allocDirect (sb : Superblock) (inode block : ℕ) (e : Inode) : Prog ℕ :=
  if e.directPtr block ≠ 0 then pure (e.directPtr block)
  else do
    let group ← .get fun _ => ext2BlockGroup sb inode
    let nBlock ← ext2AllocBlock sb group
    if nBlock = 0 then return 0
    else
      let _ ← ext2InodeUpdate sb inode (e.setDirectPtr block nBlock)
      return nBlock

/-- The first half of the branch for the indirect block. -/
def allocIndirect (sb : Superblock) (inode : ℕ) (e : Inode) : Prog (Option Inode) :=
  if e.singleIndirectPtr ≠ 0 then pure (some e)
  else do
    let group ← .get fun _ => ext2BlockGroup sb inode
    let nBlock ← ext2AllocBlock sb group
    if nBlock = 0 then return none
    else
      let _ ← ext2InodeUpdate sb inode (e.setSingleIndirectPtr nBlock)
      return some (e.setSingleIndirectPtr nBlock)

/-- The second half. -/
def allocEntry (sb : Superblock) (inode block : ℕ) (e : Inode) : Prog ℕ := do
  let ok ← ext2ReadBlock sb e.singleIndirectPtr
  if ok then
    let ent ← load 4 (4 * (block - 12))
    if ent ≠ 0 then return ent
    else
      let group ← .get fun _ => ext2BlockGroup sb inode
      let nBlock ← ext2AllocBlock sb group
      if nBlock = 0 then return 0
      else
        store 4 (4 * (block - 12)) nBlock
        let _ ← ext2WriteBlock sb e.singleIndirectPtr
        return nBlock
  else stop

/-- `ext2_inode_alloc_block`. -/
def ext2InodeAllocBlock (sb : Superblock) (inode block : ℕ) : Prog ℕ := do
  let buf ← ext2GetInode sb inode
  let record ← .get fun _ => buf
  if block < 12 then allocDirect sb inode block record.2
  else if block < ext2PointersPerBlock sb + 12 then
    let e ← allocIndirect sb inode record.2
    match e with
    | none => return 0
    | some e => allocEntry sb inode block e
  else return 0

/-- The number of the disk block in `ext2_inode_read_block`. -/
def inodeBlock (sb : Superblock) (e : Inode) (block : ℕ) : Prog ℕ :=
  if block < 12 then pure (e.directPtr block)
  else if block < ext2PointersPerBlock sb + 12 then
    if e.singleIndirectPtr = 0 then pure 0
    else do
      let ok ← ext2ReadBlock sb e.singleIndirectPtr
      if ok then load 4 (4 * (block - 12)) else stop
  else pure 0

/-- `ext2_inode_read_block`. -/
def ext2InodeReadBlock (sb : Superblock) (e : Inode) (block : ℕ) : Prog Bool := do
  let rBlock ← inodeBlock sb e block
  if rBlock ≠ 0 then ext2ReadBlock sb rBlock
  else
    clear sb
    return false

/-! ## The handlers -/

/-- The connection and the replies at the end of a handler. -/
abbrev Handler := Prog (Conn × List Reply)

/-- `handle_set_node`. -/
def handleSetNode (sb : Superblock) (conn : Conn) (inode : ℕ) : Handler := do
  let e := (conn.progData.map ClientState.e2node).getD ⟨fun _ => 0⟩
  let buf ← ext2GetInode sb inode
  let e := (buf.map Prod.snd).getD e
  let cli : ClientState := ⟨⟨inode, FileType.unknown.toNat, 0⟩, e, 0⟩
  return ({ conn with progData := some cli }, [.completed []])

/-- The loop of `handle_find_name` over the blocks of a directory. -/
def findInDir (sb : Superblock) (e : Inode) (name : List UInt8) : ℕ → ℕ → Prog (Option Dirent)
  | 0, _ => stop
  | fuel + 1, block =>
    if block * ext2BlockSize sb % wordSize < e.lowerSize then do
      let ok ← ext2InodeReadBlock sb e block
      if !ok then stop
      else
        let found ← .get fun d => findInBlock sb d name (ext2BlockSize sb + 1) 0
        match found with
        | some ent => return some ent
        | none => findInDir sb e name fuel (block + 1)
    else return none

/-- `handle_find_name`. -/
def handleFindName (sb : Superblock) (stack : ℕ → UInt8) (conn : Conn) (namelen : ℕ) :
    Handler := do
  let cli ← .get fun _ => conn.progData
  if !ext2IsDirectory cli.e2node then return (conn, [.error .notDirectory])
  else
    let canRead ← .get fun _ => c4RingbufCanRead conn.ring namelen
    if !canRead || namelen ≥ fsMaxNameLen then return (conn, [.error .badRequest])
    else
      let read ← .get fun _ => c4RingbufRead conn.ring namelen
      let ent ← findInDir sb cli.e2node (nameBytes stack read.2 namelen)
        (cli.e2node.lowerSize / ext2BlockSize sb + 2) 0
      return ({ conn with ring := read.1 }, [findReply ent])

/-- `handle_get_rootdir`. -/
def handleGetRootdir (sb : Superblock) (stack : ℕ → UInt8) (conn : Conn) : Handler := do
  let buf ← ext2GetInode sb 2
  let e := (buf.map Prod.snd).getD ⟨stack⟩
  return (conn, [.completed [2, FileType.directory.toNat, e.lowerSize]])

/-- `handle_get_node_info`. -/
def handleGetNodeInfo (sb : Superblock) (conn : Conn) (inode : ℕ) : Handler := do
  let buf ← ext2GetInode sb inode
  match buf with
  | none => return (conn, [.error .notFound])
  | some (_, e) =>
    return (conn, [.completed [e.lowerSize, (translateType (ext2InodeType e)).toNat]])

/-- `handle_list_dir`. -/
def handleListDir (sb : Superblock) (stack : ℕ → UInt8) (conn : Conn) : Handler :=
  match conn.progData with
  | none => pure (conn, [.error .badRequest])
  | some cli =>
    if cli.index * ext2BlockSize sb % wordSize ≥ cli.e2node.lowerSize then
      pure (conn, [.completed [0]])
    else do
      let ok ← ext2InodeReadBlock sb cli.e2node cli.index
      if !ok then stop
      else
        let list ← .get fun d => listLoop sb d (ext2BlockSize sb + 1) conn.ring stack 0 0
        let cli := { cli with index := (cli.index + 1) % wordSize }
        return (⟨list.1, some cli⟩, [.completed [list.2]])

/-- The second half of `handle_read_block`. -/
def readAndSend (sb : Superblock) (conn : Conn) (cli : ClientState) (writesize : ℕ) :
    Handler := do
  let canWrite ← .get fun _ => c4RingbufCanWrite conn.ring writesize
  if !canWrite then return (conn, [.error .queueFull])
  else
    let ok ← ext2InodeReadBlock sb cli.e2node (cli.index / ext2BlockSize sb)
    if !ok then stop
    else
      let bytes ← .get fun d => d.loadBytes (cli.index % ext2BlockSize sb) writesize
      let write ← .get fun _ => c4RingbufWrite conn.ring bytes
      let cli := { cli with index := (cli.index + write.2) % wordSize }
      return (⟨write.1, some cli⟩, [.completed [write.2]])

/-- `handle_read_block`. -/
def handleReadBlock (sb : Superblock) (conn : Conn) : Handler :=
  match conn.progData with
  | none => pure (conn, [.error .badRequest])
  | some cli =>
    if cli.index ≥ cli.e2node.lowerSize then pure (conn, [.completed [0]])
    else if ext2BlockSize sb = 0 then stop
    else readAndSend sb conn cli (min (cli.e2node.lowerSize - cli.index) (ext2BlockSize sb))

/-- The second half of `handle_write_block`. -/
def takeAndWrite (sb : Superblock) (conn : Conn) (cli : ClientState) : Handler := do
  let offset := cli.index % ext2BlockSize sb
  let fsBlock ← ext2InodeAllocBlock sb cli.fsnode.inode (cli.index / ext2BlockSize sb)
  let ok ← ext2ReadBlock sb fsBlock
  if !ok then stop
  else
    let read ← .get fun _ => c4RingbufRead conn.ring (ext2BlockSize sb - offset)
    storeBytes offset read.2
    let _ ← ext2WriteBlock sb fsBlock
    let cli := { cli with index := (cli.index + read.2.length) % wordSize }
    return (⟨read.1, some cli⟩, [.completed [read.2.length]])

/-- `handle_write_block`. -/
def handleWriteBlock (sb : Superblock) (conn : Conn) : Handler :=
  match conn.progData with
  | none => pure (conn, [.error .badRequest])
  | some cli =>
    if ext2BlockSize sb = 0 then stop
    else if c4RingbufEmpty conn.ring then pure (conn, [.completed [0]])
    else takeAndWrite sb conn cli

/-- The body of the loop of `ext2_server`. -/
def ext2Server (sb : Superblock) (stack : ℕ → UInt8) (conn : Conn) (request : Message) : Handler :=
  match request.type with
  | .setNode => handleSetNode sb conn (request.data 0)
  | .findName => handleFindName sb stack conn (request.data 0)
  | .getRootDir => handleGetRootdir sb stack conn
  | .getNodeInfo => handleGetNodeInfo sb conn (request.data 0)
  | .listDir => handleListDir sb stack conn
  | .readBlock => handleReadBlock sb conn
  | .writeBlock => handleWriteBlock sb conn
  | .other => pure (conn, [.error .notImplemented])

/-! ## The erasures -/

@[simp] theorem stop_result {α : Type} : (stop : Prog α).result d = none := rfl

@[simp] theorem ext2GetBlockDesc_result (index : ℕ) :
    (ext2GetBlockDesc sb index).result d = Ext2.ext2GetBlockDesc sb d index := by
  simp only [ext2GetBlockDesc, Ext2.ext2GetBlockDesc, Traced.result_bind, Traced.result_get,
    Traced.result_ite, Traced.result_pure, ext2ReadBlock_result, stop_result]
  cases ext2TotalBlockDescs sb with
  | none => rfl
  | some total => rfl

@[simp] theorem allocBit_result (fields : MapFields) (descIndex block off map k : ℕ) :
    (allocBit sb fields descIndex block off map k).result d =
      (Ext2.allocBit sb fields d descIndex block off map k).map fun d' => (d', ()) := by
  simp only [allocBit, Ext2.allocBit, Traced.result_bind, Traced.result_get, Traced.result_pure,
    ext2WriteBlock_result, ext2GetBlockDesc_result, store_result, load_result,
    Option.bind_eq_bind, Option.map_bind, Option.bind_map, Function.comp_def]
  rfl

@[simp] theorem readTable_result (base index : ℕ) (last : Option ℕ) :
    (readTable sb base index last).result d =
      (Ext2.readTable sb d base index last).map fun d' => (d', ()) := by
  simp only [readTable, Ext2.readTable, Traced.result_ite, Traced.result_bind, Traced.result_pure,
    ext2ReadBlock_result, stop_result]
  split
  · rfl
  · cases Ext2.ext2ReadBlock sb d ((base + index) % wordSize) with
    | none => rfl
    | some x =>
      obtain ⟨d', ok⟩ := x
      cases ok <;> rfl

@[simp] theorem allocLoop_result (fields : MapFields) (perGroup descIndex base fuel : ℕ)
    (last : Option ℕ) (i : ℕ) :
    (allocLoop sb fields perGroup descIndex base fuel last i).result d =
      Ext2.allocLoop sb fields perGroup descIndex base fuel d last i := by
  induction fuel generalizing d last i with
  | zero => rfl
  | succ fuel ih =>
    simp only [allocLoop, Ext2.allocLoop, Traced.result_ite, Traced.result_bind,
      Traced.result_pure, readTable_result, load_result, Option.bind_eq_bind, Option.bind_map,
      Function.comp_def]
    split
    · congr 1
      funext d₁
      congr 1
      funext map
      cases firstZero map with
      | none => exact ih _ _
      | some k =>
        simp only [Traced.result_bind, allocBit_result, Traced.result_pure, Option.bind_map]
        rfl
    · rfl

@[simp] theorem ext2AllocBlock_result (descIndex : ℕ) :
    (ext2AllocBlock sb descIndex).result d = Ext2.ext2AllocBlock sb d descIndex := by
  simp only [ext2AllocBlock, Ext2.ext2AllocBlock, allocInGroup, Traced.result_bind,
    ext2GetBlockDesc_result, Option.bind_eq_bind]
  congr 1
  funext x
  obtain ⟨d₁, desc⟩ := x
  cases desc with
  | none => rfl
  | some desc =>
    simp only [Traced.result_bind, load_result, allocLoop_result, Option.bind_map]
    rfl

@[simp] theorem ext2GetInode_result (inode : ℕ) :
    (ext2GetInode sb inode).result d = Ext2.ext2GetInode sb d inode := by
  simp only [ext2GetInode, Ext2.ext2GetInode, Traced.result_bind, Traced.result_ite,
    Traced.result_pure, Traced.result_get, ext2ReadBlock_result, Option.bind_eq_bind,
    Option.bind_map, Function.comp_def]
  rfl

@[simp] theorem ext2InodeTableBlock_result (inode : ℕ) :
    (ext2InodeTableBlock sb inode).result d = Ext2.ext2InodeTableBlock sb d inode := by
  simp only [ext2InodeTableBlock, Ext2.ext2InodeTableBlock, Traced.result_bind, Traced.result_ite,
    Traced.result_pure, Traced.result_get, ext2ReadBlock_result, stop_result, Option.bind_eq_bind,
    Option.bind_map, Function.comp_def]
  rfl

@[simp] theorem ext2InodeUpdate_result (inode : ℕ) (e : Inode) :
    (ext2InodeUpdate sb inode e).result d = Ext2.ext2InodeUpdate sb d inode e := by
  simp only [ext2InodeUpdate, Ext2.ext2InodeUpdate, Traced.result_bind,
    ext2InodeTableBlock_result, ext2GetInode_result, Option.bind_eq_bind]
  congr 1
  funext x
  congr 1
  funext y
  obtain ⟨d₁, buf⟩ := y
  cases buf with
  | none => rfl
  | some record =>
    simp only [Traced.result_bind, storeInode_result, ext2WriteBlock_result, Traced.result_pure,
      Option.bind_map]
    rfl

@[simp] theorem allocDirect_result (inode block : ℕ) (e : Inode) :
    (allocDirect sb inode block e).result d = Ext2.allocDirect sb d inode block e := by
  simp only [allocDirect, Ext2.allocDirect, Traced.result_bind, Traced.result_ite,
    Traced.result_pure, Traced.result_get, ext2AllocBlock_result, ext2InodeUpdate_result,
    Option.bind_eq_bind, Option.bind_map, Function.comp_def]
  rfl

@[simp] theorem allocIndirect_result (inode : ℕ) (e : Inode) :
    (allocIndirect sb inode e).result d = Ext2.allocIndirect sb d inode e := by
  simp only [allocIndirect, Ext2.allocIndirect, Traced.result_bind, Traced.result_ite,
    Traced.result_pure, Traced.result_get, ext2AllocBlock_result, ext2InodeUpdate_result,
    Option.bind_eq_bind, Option.bind_map, Function.comp_def]
  rfl

@[simp] theorem allocEntry_result (inode block : ℕ) (e : Inode) :
    (allocEntry sb inode block e).result d = Ext2.allocEntry sb d inode block e := by
  simp only [allocEntry, Ext2.allocEntry, Traced.result_bind, Traced.result_ite,
    Traced.result_pure, Traced.result_get, ext2AllocBlock_result, ext2ReadBlock_result,
    ext2WriteBlock_result, load_result, store_result, stop_result, Option.bind_eq_bind,
    Option.bind_map, Function.comp_def]
  rfl

@[simp] theorem ext2InodeAllocBlock_result (inode block : ℕ) :
    (ext2InodeAllocBlock sb inode block).result d = Ext2.ext2InodeAllocBlock sb d inode block := by
  simp only [ext2InodeAllocBlock, Ext2.ext2InodeAllocBlock, Traced.result_bind, Traced.result_ite,
    Traced.result_pure, Traced.result_get, ext2GetInode_result, allocDirect_result,
    allocIndirect_result, Option.bind_eq_bind, Option.bind_map, Function.comp_def]
  congr 1
  funext x
  congr 1
  funext record
  congr 2
  congr 1
  funext y
  obtain ⟨d₁, e⟩ := y
  cases e with
  | none => rfl
  | some e => exact allocEntry_result inode block e

@[simp] theorem inodeBlock_result (e : Inode) (block : ℕ) :
    (inodeBlock sb e block).result d = Ext2.inodeBlock sb d e block := by
  simp only [inodeBlock, Ext2.inodeBlock, Traced.result_bind, Traced.result_ite,
    Traced.result_pure, ext2ReadBlock_result, load_result, stop_result, Option.bind_eq_bind]
  congr 3
  congr 1
  funext x
  obtain ⟨d₁, ok⟩ := x
  cases ok with
  | false => rfl
  | true => exact Option.map_eq_bind

@[simp] theorem ext2InodeReadBlock_result (e : Inode) (block : ℕ) :
    (ext2InodeReadBlock sb e block).result d = Ext2.ext2InodeReadBlock sb d e block := by
  simp only [ext2InodeReadBlock, Ext2.ext2InodeReadBlock, Traced.result_bind, Traced.result_ite,
    Traced.result_pure, ext2ReadBlock_result, inodeBlock_result, clear, Traced.result_update,
    Option.bind_eq_bind, Option.bind_map, Function.comp_def]
  congr 1
  funext x
  congr 1
  split <;> rfl

@[simp] theorem findInDir_result (e : Inode) (name : List UInt8) (fuel block : ℕ) :
    (findInDir sb e name fuel block).result d = Ext2.findInDir sb e name fuel d block := by
  induction fuel generalizing d block with
  | zero => rfl
  | succ fuel ih =>
    simp only [findInDir, Ext2.findInDir, Traced.result_ite, Traced.result_bind,
      Traced.result_pure, Traced.result_get, ext2InodeReadBlock_result, stop_result,
      Option.bind_eq_bind, Option.bind_map, Function.comp_def]
    congr 2
    funext x
    congr 2
    funext found
    cases found with
    | none => exact ih _
    | some ent => rfl

/-- **The erasure of the server** is the model's. -/
theorem ext2Server_result (stack : ℕ → UInt8) (conn : Conn) (request : Message) :
    (ext2Server sb stack conn request).result d = Ext2.ext2Server sb stack d conn request := by
  obtain ⟨type, data⟩ := request
  cases type with
  | setNode =>
    show (handleSetNode sb conn (data 0)).result d = Ext2.handleSetNode sb d conn (data 0)
    simp only [handleSetNode, Ext2.handleSetNode, Traced.result_bind, ext2GetInode_result]
    rfl
  | findName =>
    show (handleFindName sb stack conn (data 0)).result d = _
    simp only [handleFindName, Ext2.ext2Server, Ext2.handleFindName, Traced.result_bind,
      Traced.result_ite, Traced.result_get, Traced.result_pure, findInDir_result,
      Option.bind_eq_bind, Option.bind_map, Option.bind_assoc, Function.comp_def]
    congr 1
    funext cli
    split
    · rfl
    · rw [Option.bind_assoc]
      congr 1
      funext canRead
      split
      · rfl
      · rw [Option.bind_assoc]
        congr 1
        funext read
        rw [Option.bind_assoc]
        rfl
  | getRootDir =>
    show (handleGetRootdir sb stack conn).result d = Ext2.handleGetRootdir sb stack d conn
    simp only [handleGetRootdir, Ext2.handleGetRootdir, Traced.result_bind, ext2GetInode_result]
    rfl
  | getNodeInfo =>
    show (handleGetNodeInfo sb conn (data 0)).result d = Ext2.handleGetNodeInfo sb d conn (data 0)
    simp only [handleGetNodeInfo, Ext2.handleGetNodeInfo, Traced.result_bind, ext2GetInode_result,
      Option.bind_eq_bind]
    congr 1
    funext x
    obtain ⟨d₁, buf⟩ := x
    cases buf <;> rfl
  | listDir =>
    show (handleListDir sb stack conn).result d = Ext2.handleListDir sb stack d conn
    unfold handleListDir Ext2.handleListDir
    cases conn.progData with
    | none => rfl
    | some cli =>
      simp only [Traced.result_ite, Traced.result_bind, Traced.result_get, Traced.result_pure,
        ext2InodeReadBlock_result, stop_result, Option.bind_eq_bind, Option.bind_map,
        Function.comp_def]
      rfl
  | readBlock =>
    show (handleReadBlock sb conn).result d = Ext2.handleReadBlock sb d conn
    unfold handleReadBlock Ext2.handleReadBlock
    cases conn.progData with
    | none => rfl
    | some cli =>
      simp only [readAndSend, Ext2.readAndSend, Traced.result_ite, Traced.result_bind,
        Traced.result_get, Traced.result_pure, ext2InodeReadBlock_result, stop_result,
        Option.bind_eq_bind, Option.bind_map, Function.comp_def]
      rfl
  | writeBlock =>
    show (handleWriteBlock sb conn).result d = Ext2.handleWriteBlock sb d conn
    unfold handleWriteBlock Ext2.handleWriteBlock
    cases conn.progData with
    | none => rfl
    | some cli =>
      simp only [takeAndWrite, Ext2.takeAndWrite, Traced.result_ite, Traced.result_bind,
        Traced.result_get, Traced.result_pure, ext2InodeAllocBlock_result, ext2ReadBlock_result,
        ext2WriteBlock_result, storeBytes_result, stop_result, Option.bind_eq_bind,
        Option.bind_map, Function.comp_def]
      rfl
  | other => rfl

end Tracing

end C4OS.Ext2
