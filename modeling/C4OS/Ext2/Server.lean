import C4OS.Ext2.Model
import C4OS.Ringbuffer.Model

/-!
# The ext2 server

The request handlers of `server.c`. A client and the server share a ring buffer, in which the names,
the directory entries and the contents of files travel, while requests and replies are messages. A
handler gets the device and the connection and returns them with the replies it sent. It returns
`none` where the source reads through a null pointer or outside of the block buffer, or where a loop
over the entries of a directory does not end, which happens at an entry of size zero.
-/

namespace C4OS.Ext2

open Foundations Ringbuffer

/-- The errors of the file system interface. -/
inductive FsError
  | notDirectory
  | notImplemented
  | notFound
  | queueFull
  | badRequest
  deriving DecidableEq

/-- The number of an error. -/
def FsError.toNat : FsError → ℕ
  | .notDirectory => 1
  | .notImplemented => 3
  | .notFound => 4
  | .queueFull => 6
  | .badRequest => 7

/-- A reply, `FS_MSG_COMPLETED` with its data or `FS_MSG_ERROR`. -/
inductive Reply
  | completed (data : List ℕ)
  | error (e : FsError)
  deriving DecidableEq

/-- The types of files in the interface. -/
inductive FileType
  | unknown
  | file
  | directory
  | symlink
  deriving DecidableEq

/-- The number of a file type. -/
def FileType.toNat : FileType → ℕ
  | .unknown => 0
  | .file => 1
  | .directory => 2
  | .symlink => 3

/-- `fs_node_t`. -/
structure FsNode where
  inode : ℕ
  type : ℕ
  size : ℕ

/-- `client_state_t`. -/
structure ClientState where
  fsnode : FsNode
  e2node : Inode
  index : ℕ

/-- A connection: the shared ring and `prog_data`. -/
structure Conn where
  ring : C4Ringbuf
  progData : Option ClientState

/-- `FS_MAX_NAME_LEN`. -/
abbrev fsMaxNameLen : ℕ := 256

/-- `translate_type`. -/
def translateType (extType : ℕ) : FileType :=
  match extType with
  | 1 => .file
  | 2 => .directory
  | 7 => .symlink
  | _ => .unknown

/-! ## Directory entries -/

/-- An `ext2_dirent_t` at an offset of the block buffer, without its name. -/
structure Dirent where
  inode : ℕ
  size : ℕ
  nameLength : ℕ
  type : ℕ

/-- The fields of the entry at an offset. -/
def Device.loadDirent (d : Device) (off : ℕ) : Option Dirent := do
  let inode ← d.load 4 off
  let size ← d.load 2 (off + 4)
  let nameLength ← d.load 1 (off + 6)
  let type ← d.load 1 (off + 7)
  return ⟨inode, size, nameLength, type⟩

/-- The loop of `name_matches`. -/
def matchLoop (d : Device) : ℕ → List UInt8 → Option Bool
  | _, [] => some true
  | off, c :: name => do
    let b ← d.load 1 off
    if b = c.toNat then matchLoop d (off + 1) name else return false

/-- `name_matches`, for the entry at an offset. -/
def nameMatches (d : Device) (off : ℕ) (name : List UInt8) : Option Bool := do
  let nameLength ← d.load 1 (off + 6)
  if nameLength ≠ name.length then return false else matchLoop d (off + 8) name

/-- The loop of `handle_find_name` over the entries of a block. -/
def findInBlock (sb : Superblock) (d : Device) (name : List UInt8) : ℕ → ℕ → Option (Option Dirent)
  | 0, _ => none
  | fuel + 1, i =>
    if i < ext2BlockSize sb then do
      if ← nameMatches d i name then
        let ent ← d.loadDirent i
        return some ent
      else
        let size ← d.load 2 (i + 4)
        findInBlock sb d name fuel (i + size)
    else
      return none

/-- The loop of `handle_find_name` over the blocks of a directory. -/
def findInDir (sb : Superblock) (e : Inode) (name : List UInt8) :
    ℕ → Device → ℕ → Option (Device × Option Dirent)
  | 0, _, _ => none
  | fuel + 1, d, block =>
    if block * ext2BlockSize sb % wordSize < e.lowerSize then do
      let (d, ok) ← ext2InodeReadBlock sb d e block
      if !ok then none
      else
        match ← findInBlock sb d name (ext2BlockSize sb + 1) 0 with
        | some ent => return (d, some ent)
        | none => findInDir sb e name fuel d (block + 1)
    else
      return (d, none)

/-- The bytes of an `fs_dirent_t`: the name, its length, the inode and the type. -/
def fsDirentBytes (name : ℕ → UInt8) (nameLen inode type : ℕ) : List UInt8 :=
  (List.range fsMaxNameLen).map name ++
    (List.range 12).map fun i => writeLE 4 (writeLE 4 (writeLE 4 (fun _ => 0) 0 nameLen) 4 inode) 8
      type i

/-- `sizeof(fs_dirent_t)`. -/
abbrev fsDirentSize : ℕ := 268

/-- `copy_name`, into the array `name`; at most 255 bytes are copied. -/
def copyName (d : Device) (off : ℕ) (ent : Dirent) (name : ℕ → UInt8) : Option (ℕ → UInt8) := do
  let k := min ent.nameLength (fsMaxNameLen - 1)
  let bytes ← d.loadBytes (off + 8) k
  return fun i => if i < k then bytes.getD i 0 else if i = k then 0 else name i

/-- One turn of the loop of `handle_list_dir`: the entry goes into the ring if it fits, and the
result says so. -/
def sendDirent (d : Device) (ring : C4Ringbuf) (off : ℕ) (ent : Dirent) (name : ℕ → UInt8) :
    Option (C4Ringbuf × (ℕ → UInt8) × Bool) := do
  let name ← copyName d off ent name
  if ← c4RingbufCanWrite ring fsDirentSize then
    let (ring, _) ← c4RingbufWrite ring
      (fsDirentBytes name ent.nameLength ent.inode (translateType ent.type).toNat)
    return (ring, name, true)
  else
    return (ring, name, false)

/-- The loop of `handle_list_dir`. The array `name` of the local variable `ent` is carried along,
since the bytes behind a name are not assigned. -/
def listLoop (sb : Superblock) (d : Device) :
    ℕ → C4Ringbuf → (ℕ → UInt8) → ℕ → ℕ → Option (C4Ringbuf × ℕ)
  | 0, _, _, _, _ => none
  | fuel + 1, ring, name, i, sent =>
    if i < ext2BlockSize sb then do
      let ent ← d.loadDirent i
      let (ring, name, fits) ← sendDirent d ring i ent name
      listLoop sb d fuel ring name (i + ent.size) (if fits then sent + 1 else sent)
    else
      return (ring, sent)

/-! ## The handlers -/

/-- The result of a handler. -/
abbrev Result := Option (Device × Conn × List Reply)

/-- `handle_set_node`. -/
def handleSetNode (sb : Superblock) (d : Device) (conn : Conn) (inode : ℕ) : Result := do
  -- `calloc` clears the state of a new client
  let e := (conn.progData.map ClientState.e2node).getD ⟨fun _ => 0⟩
  let (d, buf) ← ext2GetInode sb d inode
  let e := (buf.map Prod.snd).getD e
  let cli : ClientState := ⟨⟨inode, FileType.unknown.toNat, 0⟩, e, 0⟩
  return (d, { conn with progData := some cli }, [.completed []])

/-- The answer to a lookup. -/
def findReply (ent : Option Dirent) : Reply :=
  match ent with
  | some ent => .completed [ent.inode, (translateType ent.type).toNat, 0]
  | none => .error .notFound

/-- The first `namelen` bytes of the array `name` after the bytes from the ring were stored in it.
-/
def nameBytes (stack : ℕ → UInt8) (bytes : List UInt8) (namelen : ℕ) : List UInt8 :=
  bytes ++ (List.range (namelen - bytes.length)).map fun i => stack (bytes.length + i)

/-- `handle_find_name`, with the name that is looked for in the directory, if any; `stack` is what
is in the local variable `name` before. Without a node the null pointer is read after the error is
sent. -/
def handleFindName (sb : Superblock) (stack : ℕ → UInt8) (d : Device) (conn : Conn)
    (namelen : ℕ) : Option (Device × Conn × List Reply × Option (List UInt8)) := do
  let cli ← conn.progData
  if !ext2IsDirectory cli.e2node then
    return (d, conn, [.error .notDirectory], none)
  else
    let canRead ← c4RingbufCanRead conn.ring namelen
    if !canRead || namelen ≥ fsMaxNameLen then
      return (d, conn, [.error .badRequest], none)
    else
      let (ring, bytes) ← c4RingbufRead conn.ring namelen
      let name := nameBytes stack bytes namelen
      let (d, ent) ← findInDir sb cli.e2node name
        (cli.e2node.lowerSize / ext2BlockSize sb + 2) d 0
      return (d, { conn with ring := ring }, [findReply ent], some name)

/-- `handle_list_dir`; `stack` is what is in the local variable `ent` before. -/
def handleListDir (sb : Superblock) (stack : ℕ → UInt8) (d : Device) (conn : Conn) : Result :=
  match conn.progData with
  | none => some (d, conn, [.error .badRequest])
  | some cli =>
    if cli.index * ext2BlockSize sb % wordSize ≥ cli.e2node.lowerSize then
      some (d, conn, [.completed [0]])
    else do
      let (d, ok) ← ext2InodeReadBlock sb d cli.e2node cli.index
      if !ok then none
      else
        let (ring, sent) ← listLoop sb d (ext2BlockSize sb + 1) conn.ring stack 0 0
        let cli := { cli with index := (cli.index + 1) % wordSize }
        return (d, ⟨ring, some cli⟩, [.completed [sent]])

/-- The second half of `handle_read_block`, with a block to send. -/
def readAndSend (sb : Superblock) (d : Device) (conn : Conn) (cli : ClientState)
    (writesize : ℕ) : Result := do
  let canWrite ← c4RingbufCanWrite conn.ring writesize
  if !canWrite then
    return (d, conn, [.error .queueFull])
  else
    let (d, ok) ← ext2InodeReadBlock sb d cli.e2node (cli.index / ext2BlockSize sb)
    if !ok then none
    else
      let bytes ← d.loadBytes (cli.index % ext2BlockSize sb) writesize
      let (ring, wrote) ← c4RingbufWrite conn.ring bytes
      let cli := { cli with index := (cli.index + wrote) % wordSize }
      return (d, ⟨ring, some cli⟩, [.completed [wrote]])

/-- `handle_read_block`. -/
def handleReadBlock (sb : Superblock) (d : Device) (conn : Conn) : Result :=
  match conn.progData with
  | none => some (d, conn, [.error .badRequest])
  | some cli =>
    if cli.index ≥ cli.e2node.lowerSize then some (d, conn, [.completed [0]])
    else if ext2BlockSize sb = 0 then none
    else
      readAndSend sb d conn cli (min (cli.e2node.lowerSize - cli.index) (ext2BlockSize sb))

/-- The second half of `handle_write_block`, with bytes in the ring. When `ext2_read_block` returns
the null pointer, the first byte is stored through it. -/
def takeAndWrite (sb : Superblock) (d : Device) (conn : Conn) (cli : ClientState) : Result := do
  let offset := cli.index % ext2BlockSize sb
  let (d, fsBlock) ← ext2InodeAllocBlock sb d cli.fsnode.inode (cli.index / ext2BlockSize sb)
  let (d, ok) ← ext2ReadBlock sb d fsBlock
  if !ok then none
  else
    let (ring, bytes) ← c4RingbufRead conn.ring (ext2BlockSize sb - offset)
    let d ← d.storeBytes offset bytes
    let (d, _) ← ext2WriteBlock sb d fsBlock
    let cli := { cli with index := (cli.index + bytes.length) % wordSize }
    return (d, ⟨ring, some cli⟩, [.completed [bytes.length]])

/-- `handle_write_block`. -/
def handleWriteBlock (sb : Superblock) (d : Device) (conn : Conn) : Result :=
  match conn.progData with
  | none => some (d, conn, [.error .badRequest])
  | some cli =>
    if ext2BlockSize sb = 0 then none
    else if c4RingbufEmpty conn.ring then some (d, conn, [.completed [0]])
    else takeAndWrite sb d conn cli

end C4OS.Ext2
