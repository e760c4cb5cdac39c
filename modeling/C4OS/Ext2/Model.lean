import C4OS.Foundations.Bytes

/-!
# The ext2 file system

The functions of `main.c` in `ext2fs`. The disk is a row of bytes behind a block device that
transfers whole sectors to and from one page, `block_buffer`. All data of the file system pass
through this page: a pointer that `ext2_read_block` returns is a pointer to it, and it is null when
the block is not in the file system or the device reports an error. Records are read and written in
the page with `Device.load` and `Device.store`.

A function returns `none` where the source reads through the null pointer, leaves the page, divides
by zero or does not end. Numbers are 32 bits wide, and so is the arithmetic on them.
-/

namespace C4OS.Ext2

open Foundations

/-- The number of values of a word. -/
abbrev wordSize : ℕ := 2 ^ 32

/-- `PAGE_SIZE`, the size of `block_buffer`. -/
abbrev pageSize : ℕ := 4096

/-- The fields of `ext2_superblock_t` that are used. -/
structure Superblock where
  totalInodes : ℕ
  totalBlocks : ℕ
  blockSize : ℕ
  blocksPerGroup : ℕ
  inodesPerGroup : ℕ
  inodeSize : ℕ

/-! ## The geometry -/

/-- `ext2_block_size`. -/
def ext2BlockSize (sb : Superblock) : ℕ := 2 ^ ((sb.blockSize + 10) % wordSize) % wordSize

/-- `block_device_start`. -/
abbrev blockDeviceStart : ℕ := 2048

/-- `ext2_block_to_sector`: the product is reduced before it is divided. -/
def ext2BlockToSector (sb : Superblock) (block : ℕ) : ℕ :=
  (block * ext2BlockSize sb % wordSize / 512 + blockDeviceStart) % wordSize

/-- `ext2_block_size_to_sectors`. -/
def ext2BlockSizeToSectors (sb : Superblock) : ℕ := ext2BlockSize sb / 512

/-- `ext2_total_block_descs`. -/
def ext2TotalBlockDescs (sb : Superblock) : Option ℕ :=
  if sb.blocksPerGroup = 0 then none else some (sb.totalBlocks / sb.blocksPerGroup)

/-- `ext2_inodes_per_block`. -/
def ext2InodesPerBlock (sb : Superblock) : Option ℕ :=
  if sb.inodeSize = 0 then none else some (ext2BlockSize sb / sb.inodeSize)

/-- `ext2_block_group`. -/
def ext2BlockGroup (sb : Superblock) (inode : ℕ) : Option ℕ :=
  if sb.inodesPerGroup = 0 then none
  else some ((inode + (wordSize - 1)) % wordSize / sb.inodesPerGroup)

/-- `ext2_group_index`. -/
def ext2GroupIndex (sb : Superblock) (inode : ℕ) : Option ℕ :=
  if sb.inodesPerGroup = 0 then none
  else some ((inode + (wordSize - 1)) % wordSize % sb.inodesPerGroup)

/-- `ext2_pointers_per_block`. -/
def ext2PointersPerBlock (sb : Superblock) : ℕ := ext2BlockSize sb / 4

/-! ## The block device -/

/-- The disk, the transfers that will fail, and `block_buffer`. -/
structure Device where
  disk : ℕ → UInt8
  /-- Whether a transfer, counted from the first one, reports an error. -/
  fault : ℕ → Bool
  transfers : ℕ
  buffer : ℕ → UInt8

namespace Device

/-- A number in `block_buffer`. -/
def load (d : Device) (k off : ℕ) : Option ℕ :=
  if off + k ≤ pageSize then some (readLE k d.buffer off) else none

/-- Assign to a number in `block_buffer`. -/
def store (d : Device) (k off x : ℕ) : Option Device :=
  if off + k ≤ pageSize then some { d with buffer := writeLE k d.buffer off x } else none

/-- Bytes of `block_buffer`. -/
def loadBytes (d : Device) (off size : ℕ) : Option (List UInt8) :=
  if off + size ≤ pageSize then some ((List.range size).map fun i => d.buffer (off + i)) else none

/-- Assign to bytes of `block_buffer`. -/
def storeBytes (d : Device) (off : ℕ) (bytes : List UInt8) : Option Device :=
  if off + bytes.length ≤ pageSize then some { d with buffer := writeBytes d.buffer off bytes }
  else none

end Device

/-- `block_read`: whether the sectors were read. -/
def blockRead (d : Device) (location size : ℕ) : Option (Device × Bool) :=
  if size * 512 > pageSize then none
  else if d.fault d.transfers then some ({ d with transfers := d.transfers + 1 }, false)
  else some ({ d with
    transfers := d.transfers + 1
    buffer := fun c => if c < size * 512 then d.disk (location * 512 + c) else d.buffer c }, true)

/-- `block_write`: whether the sectors were written. -/
def blockWrite (d : Device) (location size : ℕ) : Option (Device × Bool) :=
  if size * 512 > pageSize then none
  else if d.fault d.transfers then some ({ d with transfers := d.transfers + 1 }, false)
  else some ({ d with
    transfers := d.transfers + 1
    disk := fun c => if location * 512 ≤ c ∧ c < location * 512 + size * 512 then
      d.buffer (c - location * 512) else d.disk c }, true)

/-- `ext2_read_block`: whether the pointer it returns is not null. -/
def ext2ReadBlock (sb : Superblock) (d : Device) (block : ℕ) : Option (Device × Bool) :=
  if block > sb.totalBlocks then some (d, false)
  else blockRead d (ext2BlockToSector sb block) (ext2BlockSizeToSectors sb)

/-- `ext2_write_block`: whether the pointer it returns is not null. -/
def ext2WriteBlock (sb : Superblock) (d : Device) (block : ℕ) : Option (Device × Bool) :=
  if block > sb.totalBlocks then some (d, false)
  else blockWrite d (ext2BlockToSector sb block) (ext2BlockSizeToSectors sb)

/-! ## Block groups -/

/-- The block `start` of the descriptors. -/
def descStart (sb : Superblock) : ℕ := if ext2BlockSize sb = 1024 then 2 else 1

/-- `ext2_get_block_descs`. -/
def ext2GetBlockDescs (sb : Superblock) (d : Device) : Option (Device × Bool) :=
  ext2ReadBlock sb d (descStart sb)

/-- `ext2_write_block_descs`. -/
def ext2WriteBlockDescs (sb : Superblock) (d : Device) : Option (Device × Bool) :=
  ext2WriteBlock sb d (descStart sb)

/-- `sizeof(ext2_block_group_desc_t)`. -/
abbrev descSize : ℕ := 32

/-- `ext2_get_block_desc`: the offset of the descriptor in the page, or nothing for the null
pointer. When the read failed, only the first descriptor is at the null pointer; the others are at
addresses that are not mapped, and all callers go there at once. -/
def ext2GetBlockDesc (sb : Superblock) (d : Device) (index : ℕ) :
    Option (Device × Option ℕ) := do
  let total ← ext2TotalBlockDescs sb
  if index ≥ total then
    return (d, none)
  else
    let (d, ok) ← ext2GetBlockDescs sb d
    if ok then return (d, some (index * descSize))
    else if index = 0 then return (d, none)
    else none

/-- The offsets in a descriptor of the fields that an allocation uses, `block_map` and
`unalloced_blocks` or `inode_map` and `unalloced_inodes`. -/
structure MapFields where
  map : ℕ
  unalloced : ℕ

/-- The fields for blocks. -/
def blockFields : MapFields := ⟨0, 12⟩

/-- The fields for inodes. -/
def inodeFields : MapFields := ⟨4, 14⟩

/-- The lowest bit of a word that is zero. -/
def firstZero (map : ℕ) : Option ℕ := (List.range 32).find? fun k => !map.testBit k

/-- The end of an allocation: the bit is set, the bitmap is written back, and the counter of the
group is decremented. -/
def allocBit (sb : Superblock) (fields : MapFields) (d : Device) (descIndex block off map k : ℕ) :
    Option Device := do
  let d ← d.store 4 off (map ||| 2 ^ k)
  let (d, _) ← ext2WriteBlock sb d block
  let (d, desc) ← ext2GetBlockDesc sb d descIndex
  let desc ← desc
  let unalloced ← d.load 2 (desc + fields.unalloced)
  let d ← d.store 2 (desc + fields.unalloced) (unalloced + (2 ^ 16 - 1))
  let (d, _) ← ext2WriteBlockDescs sb d
  return d

/-- `table`, read again when the index of its block changes. -/
def readTable (sb : Superblock) (d : Device) (base index : ℕ) (last : Option ℕ) :
    Option Device :=
  if last = some index then some d
  else do
    let (d, ok) ← ext2ReadBlock sb d ((base + index) % wordSize)
    if ok then some d else none

/-- The loop over the words of the bitmap. `last` is the block of the bitmap in the page, if any. -/
def allocLoop (sb : Superblock) (fields : MapFields) (perGroup descIndex base : ℕ) :
    ℕ → Device → Option ℕ → ℕ → Option (Device × ℕ)
  | 0, _, _, _ => none
  | fuel + 1, d, last, i =>
    if i < perGroup then do
      let index := i / ext2BlockSize sb
      let d ← readTable sb d base index last
      let off := 4 * (i - index * ext2BlockSize sb)
      let map ← d.load 4 off
      match firstZero map with
      | some k =>
        let d ← allocBit sb fields d descIndex ((base + index) % wordSize) off map k
        return (d, (descIndex * perGroup + (i + k)) % wordSize)
      | none => allocLoop sb fields perGroup descIndex base fuel d (some index) ((i + 32) % wordSize)
    else
      return (d, 0)

/-- The body that `ext2_alloc_block` and `ext2_alloc_inode` share. -/
def allocInGroup (sb : Superblock) (fields : MapFields) (perGroup : ℕ) (d : Device)
    (descIndex : ℕ) : Option (Device × ℕ) := do
  let (d, desc) ← ext2GetBlockDesc sb d descIndex
  match desc with
  | none => return (d, 0)
  | some desc =>
    let base ← d.load 4 (desc + fields.map)
    allocLoop sb fields perGroup descIndex base (perGroup / 32 + 2) d none 0

/-- `ext2_alloc_block`. -/
def ext2AllocBlock (sb : Superblock) (d : Device) (descIndex : ℕ) : Option (Device × ℕ) :=
  allocInGroup sb blockFields sb.blocksPerGroup d descIndex

/-- `ext2_alloc_inode`. -/
def ext2AllocInode (sb : Superblock) (d : Device) (descIndex : ℕ) : Option (Device × ℕ) :=
  allocInGroup sb inodeFields sb.inodesPerGroup d descIndex

/-! ## Inodes -/

/-- `sizeof(ext2_inode_t)`. -/
abbrev inodeRecordSize : ℕ := 120

/-- An `ext2_inode_t`, as the bytes of the record. -/
structure Inode where
  byte : ℕ → UInt8

namespace Inode

/-- `modes`. -/
def modes (e : Inode) : ℕ := readLE 2 e.byte 0

/-- `lower_size`. -/
def lowerSize (e : Inode) : ℕ := readLE 4 e.byte 4

/-- `direct_ptr[k]`. -/
def directPtr (e : Inode) (k : ℕ) : ℕ := readLE 4 e.byte (40 + 4 * k)

/-- `single_indirect_ptr`. -/
def singleIndirectPtr (e : Inode) : ℕ := readLE 4 e.byte 88

/-- Assign to `direct_ptr[k]`. -/
def setDirectPtr (e : Inode) (k x : ℕ) : Inode := ⟨writeLE 4 e.byte (40 + 4 * k) x⟩

/-- Assign to `single_indirect_ptr`. -/
def setSingleIndirectPtr (e : Inode) (x : ℕ) : Inode := ⟨writeLE 4 e.byte 88 x⟩

end Inode

/-- `ext2_inode_type`. -/
def ext2InodeType (e : Inode) : ℕ := e.modes / 2 ^ 12

/-- `ext2_is_directory`. -/
def ext2IsDirectory (e : Inode) : Bool := ext2InodeType e == 4

/-- `*buffer = *inode_ptr`. -/
def Device.loadInode (d : Device) (off : ℕ) : Option Inode :=
  if off + inodeRecordSize ≤ pageSize then some ⟨fun i => d.buffer (off + i)⟩ else none

/-- `*inode_ptr = *buffer`. -/
def Device.storeInode (d : Device) (off : ℕ) (e : Inode) : Option Device :=
  if off + inodeRecordSize ≤ pageSize then
    some { d with buffer := fun c =>
      if off ≤ c ∧ c < off + inodeRecordSize then e.byte (c - off) else d.buffer c }
  else none

/-- The block and the index in it of an inode, from the descriptors in `block_buffer`. -/
def inodeLocation (sb : Superblock) (d : Device) (inode : ℕ) : Option (ℕ × ℕ) := do
  let group ← ext2BlockGroup sb inode
  let table ← d.load 4 (group * descSize + 8)
  let groupIndex ← ext2GroupIndex sb inode
  let perBlock ← ext2InodesPerBlock sb
  if perBlock = 0 then none
  else return ((table + groupIndex / perBlock) % wordSize, groupIndex % perBlock)

/-- `ext2_get_inode`: the record and its place in the page, or nothing for the null pointer. -/
def ext2GetInode (sb : Superblock) (d : Device) (inode : ℕ) :
    Option (Device × Option (ℕ × Inode)) := do
  let (d, ok) ← ext2GetBlockDescs sb d
  if !ok || inode > sb.totalInodes then
    return (d, none)
  else
    let (block, index) ← inodeLocation sb d inode
    let (d, ok) ← ext2ReadBlock sb d block
    if ok then
      let e ← d.loadInode (index * sb.inodeSize)
      return (d, some (index * sb.inodeSize, e))
    else
      return (d, none)

/-- `ext2_inode_table_block`. -/
def ext2InodeTableBlock (sb : Superblock) (d : Device) (inode : ℕ) : Option (Device × ℕ) := do
  let (d, ok) ← ext2GetBlockDescs sb d
  if ok then
    let (block, _) ← inodeLocation sb d inode
    return (d, block)
  else
    none

/-- `ext2_inode_update`. -/
def ext2InodeUpdate (sb : Superblock) (d : Device) (inode : ℕ) (e : Inode) :
    Option (Device × ℕ) := do
  let (d, tableBlock) ← ext2InodeTableBlock sb d inode
  let (d, bufptr) ← ext2GetInode sb d inode
  match bufptr with
  | none => return (d, 0)
  | some (off, _) =>
    let d ← d.storeInode off e
    let (d, _) ← ext2WriteBlock sb d tableBlock
    return (d, inode)

/-! ## The blocks of a file -/

/-- The branch of `ext2_inode_alloc_block` for the direct pointers. -/
def allocDirect (sb : Superblock) (d : Device) (inode block : ℕ) (e : Inode) :
    Option (Device × ℕ) :=
  if e.directPtr block ≠ 0 then some (d, e.directPtr block)
  else do
    let group ← ext2BlockGroup sb inode
    let (d, nBlock) ← ext2AllocBlock sb d group
    if nBlock = 0 then return (d, 0)
    else
      let (d, _) ← ext2InodeUpdate sb d inode (e.setDirectPtr block nBlock)
      return (d, nBlock)

/-- The first half of the branch for the indirect block: it is allocated when there is none. The
record is nothing when that fails. -/
def allocIndirect (sb : Superblock) (d : Device) (inode : ℕ) (e : Inode) :
    Option (Device × Option Inode) :=
  if e.singleIndirectPtr ≠ 0 then some (d, some e)
  else do
    let group ← ext2BlockGroup sb inode
    let (d, nBlock) ← ext2AllocBlock sb d group
    if nBlock = 0 then return (d, none)
    else
      let (d, _) ← ext2InodeUpdate sb d inode (e.setSingleIndirectPtr nBlock)
      return (d, some (e.setSingleIndirectPtr nBlock))

/-- The second half: `ents` is a pointer to `block_buffer` all the time. -/
def allocEntry (sb : Superblock) (d : Device) (inode block : ℕ) (e : Inode) :
    Option (Device × ℕ) := do
  let (d, ok) ← ext2ReadBlock sb d e.singleIndirectPtr
  if ok then
    let ent ← d.load 4 (4 * (block - 12))
    if ent ≠ 0 then return (d, ent)
    else
      let group ← ext2BlockGroup sb inode
      let (d, nBlock) ← ext2AllocBlock sb d group
      if nBlock = 0 then return (d, 0)
      else
        let d ← d.store 4 (4 * (block - 12)) nBlock
        let (d, _) ← ext2WriteBlock sb d e.singleIndirectPtr
        return (d, nBlock)
  else
    none

/-- `ext2_inode_alloc_block`; the record is not initialised when the inode cannot be read. -/
def ext2InodeAllocBlock (sb : Superblock) (d : Device) (inode block : ℕ) :
    Option (Device × ℕ) := do
  let (d, buf) ← ext2GetInode sb d inode
  let (_, e) ← buf
  if block < 12 then allocDirect sb d inode block e
  else if block < ext2PointersPerBlock sb + 12 then
    let (d, e) ← allocIndirect sb d inode e
    match e with
    | none => return (d, 0)
    | some e => allocEntry sb d inode block e
  else return (d, 0)

/-- The number of the disk block in `ext2_inode_read_block`; zero for a hole, and for the blocks
behind the double and triple indirect pointers. -/
def inodeBlock (sb : Superblock) (d : Device) (e : Inode) (block : ℕ) : Option (Device × ℕ) :=
  if block < 12 then some (d, e.directPtr block)
  else if block < ext2PointersPerBlock sb + 12 then
    if e.singleIndirectPtr = 0 then some (d, 0)
    else do
      let (d, ok) ← ext2ReadBlock sb d e.singleIndirectPtr
      if ok then
        let ent ← d.load 4 (4 * (block - 12))
        return (d, ent)
      else none
  else some (d, 0)

/-- `ext2_inode_read_block`: whether the pointer it returns is not null. -/
def ext2InodeReadBlock (sb : Superblock) (d : Device) (e : Inode) (block : ℕ) :
    Option (Device × Bool) := do
  let (d, rBlock) ← inodeBlock sb d e block
  if rBlock ≠ 0 then ext2ReadBlock sb d rBlock
  else if ext2BlockSize sb ≤ pageSize then
    return ({ d with buffer := fun c => if c < ext2BlockSize sb then 0 else d.buffer c }, false)
  else none

end C4OS.Ext2
