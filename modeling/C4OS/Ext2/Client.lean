import C4OS.Ext2.Server
import C4OS.Ringbuffer.Bytes

/-!
# The clients of the server

The functions of `filesystem.h`, `fread` and `fwrite`. A client calls the server and waits for the
reply, so that a call is the handler of the request run on the shared state. Replies wait in the
endpoint of the connection until they are received.
-/

namespace C4OS.Ext2

open Foundations Ringbuffer

/-- The number of data bytes in the ring of a connection, which fills a page. -/
abbrev ringSize : ℕ := pageSize - sizeofRingbuf

/-- A client and the server: the device, the connection, the replies that are not received yet, and
the field `index` of `fs_connection_t`. -/
structure System where
  dev : Device
  conn : Conn
  inbox : List Reply
  index : ℕ

/-- The end of `c4rt_connman_call`: the first reply is received. A client that gets none waits for
ever. -/
def receive (sys : System) (d : Device) (conn : Conn) (replies : List Reply) :
    Option (System × Reply) :=
  match sys.inbox ++ replies with
  | [] => none
  | r :: rest => some ({ sys with dev := d, conn := conn, inbox := rest }, r)

/-- `fs_set_node`. -/
def fsSetNode (sb : Superblock) (sys : System) (inode : ℕ) : Option (System × Reply) := do
  let (d, conn, replies) ← handleSetNode sb sys.dev sys.conn inode
  receive sys d conn replies

/-- `fs_find_name`, with the name that the server looks for; `stack` is what is in its local
variable `name` before. -/
def fsFindName (sb : Superblock) (stack : ℕ → UInt8) (sys : System) (name : List UInt8) :
    Option (System × Reply × Option (List UInt8)) := do
  let (ring, _) ← c4RingbufWrite sys.conn.ring name
  let (d, conn, replies, compared) ←
    handleFindName sb stack sys.dev { sys.conn with ring := ring } name.length
  let (sys, reply) ← receive sys d conn replies
  return (sys, reply, compared)

/-- `fs_list_dir`: the number of entries, or the number of an error. -/
def fsListDir (sb : Superblock) (stack : ℕ → UInt8) (sys : System) : Option (System × ℕ) := do
  let (d, conn, replies) ← handleListDir sb stack sys.dev sys.conn
  let (sys, reply) ← receive sys d conn replies
  match reply with
  | .completed data => return (sys, data.headD 0)
  | .error e => return (sys, e.toNat)

/-- `fs_next_dirent`: the bytes of the entry, or nothing when it returns `0`. -/
def fsNextDirent (sb : Superblock) (stack : ℕ → UInt8) (sys : System) :
    Option (System × Option (List UInt8)) := do
  if ← c4RingbufCanRead sys.conn.ring fsDirentSize then
    let (ring, bytes) ← c4RingbufRead sys.conn.ring fsDirentSize
    return ({ sys with conn := { sys.conn with ring := ring } }, some bytes)
  else
    let (sys, n) ← fsListDir sb stack sys
    if n = 0 then
      return (sys, none)
    else
      let (ring, bytes) ← c4RingbufRead sys.conn.ring fsDirentSize
      return ({ sys with conn := { sys.conn with ring := ring } }, some bytes)

/-- The request of `fs_read_block`, made when the ring is empty; the result is whether the reply is
no error. -/
def requestBlock (sb : Superblock) (sys : System) : Option (System × Bool) :=
  if c4RingbufEmpty sys.conn.ring then do
    let (d, conn, replies) ← handleReadBlock sb sys.dev sys.conn
    let (sys, reply) ← receive sys d conn replies
    match reply with
    | .completed _ => return (sys, true)
    | .error _ => return (sys, false)
  else
    some (sys, true)

/-- `fs_read_block`: the bytes read, none of them after an error. -/
def fsReadBlock (sb : Superblock) (sys : System) (maxlen : ℕ) :
    Option (System × List UInt8) := do
  let (sys, ok) ← requestBlock sb sys
  if ok then
    let (ring, bytes) ← c4RingbufRead sys.conn.ring maxlen
    return ({ sys with
      conn := { sys.conn with ring := ring }
      index := (sys.index + bytes.length) % wordSize }, bytes)
  else
    return (sys, [])

/-- The loop of `fread`, with the bytes that are read already. -/
def freadLoop (sb : Superblock) : ℕ → System → ℕ → List UInt8 → Option (System × List UInt8)
  | 0, _, _, _ => none
  | fuel + 1, sys, len, ret => do
    let (sys, bytes) ← fsReadBlock sb sys len
    if bytes = [] then return (sys, ret)
    else freadLoop sb fuel sys (len - bytes.length) (ret ++ bytes)

/-- `fread`: the bytes stored at the caller's pointer. Each turn of the loop but the last one reads
at least one byte. -/
def fread (sb : Superblock) (sys : System) (size members : ℕ) : Option (System × List UInt8) :=
  let len := size * members % wordSize
  freadLoop sb (len + 1) sys len []

/-! ## Writing -/

/-- What a write moves: the addresses of the caller that are read, and the bytes that the server
takes out of the ring. -/
structure Transfer where
  reads : List ℕ
  taken : List UInt8

/-- The bytes that were taken out of a ring. -/
def takenBytes (before after : C4Ringbuf) : List UInt8 :=
  before.contents.take (before.fill - after.fill)

/-- A write request; `handler` is the handler of the server. -/
def requestWrite (handler : Device → Conn → Result) (sys : System) (t : Transfer) :
    Option (System × Transfer × Reply) := do
  let (d, conn, replies) ← handler sys.dev sys.conn
  let t := { t with taken := t.taken ++ takenBytes sys.conn.ring conn.ring }
  let (sys, reply) ← receive sys d conn replies
  return (sys, t, reply)

/-- The first loop of `fs_write_block`. The assertion that `n` is not zero only prints. Each turn
but the last one writes at least one byte. -/
def writeLoop (handler : Device → Conn → Result) (mem : ℕ → UInt8) (buffer : ℕ) :
    ℕ → System → Transfer → ℕ → ℕ → Option (System × Transfer × Except FsError ℕ)
  | 0, _, _, _, _ => none
  | fuel + 1, sys, t, len, n =>
    if len = 0 ∨ n = 0 then
      some (sys, t, .ok n)
    else do
      let addr (i : ℕ) := (buffer + sys.index + i) % wordSize
      let (ring, n) ← c4RingbufWrite sys.conn.ring ((List.range len).map fun i => mem (addr i))
      -- the byte that does not fit is read as well
      let t := { t with reads := t.reads ++ (List.range (min (n + 1) len)).map addr }
      let sys := { sys with
        conn := { sys.conn with ring := ring }
        index := (sys.index + n) % wordSize }
      let (sys, t, reply) ← requestWrite handler sys t
      match reply with
      | .error e => return (sys, t, .error e)
      | .completed _ => writeLoop handler mem buffer fuel sys t (len - n) n

/-- The second loop of `fs_write_block`, until the server has taken all bytes; it takes at least one
in every turn. -/
def drainLoop (handler : Device → Conn → Result) :
    ℕ → System → Transfer → Option (System × Transfer × Option FsError)
  | 0, _, _ => none
  | fuel + 1, sys, t =>
    if c4RingbufEmpty sys.conn.ring then
      some (sys, t, none)
    else do
      let (sys, t, reply) ← requestWrite handler sys t
      match reply with
      | .error e => return (sys, t, some e)
      | .completed _ => drainLoop handler fuel sys t

/-- `fs_write_block`: the length of the last piece, or an error, whose number is returned with a
minus sign. -/
def fsWriteBlock (handler : Device → Conn → Result) (mem : ℕ → UInt8) (sys : System) (t : Transfer)
    (buffer len : ℕ) : Option (System × Transfer × Except FsError ℕ) :=
  if len = 0 then
    some (sys, t, .ok 0)
  else do
    let (sys, t, n) ← writeLoop handler mem buffer (len + 1) sys t len 1
    match n with
    | .error e => return (sys, t, .error e)
    | .ok n =>
      let (sys, t, err) ← drainLoop handler (sys.conn.ring.fill + 1) sys t
      match err with
      | some e => return (sys, t, .error e)
      | none => return (sys, t, .ok n)

/-- The loop of `fwrite`; `ret` bytes are written already. -/
def fwriteLoop (handler : Device → Conn → Result) (mem : ℕ → UInt8) (ptr : ℕ) :
    ℕ → System → Transfer → ℕ → ℕ → Option (System × Transfer × ℕ)
  | 0, _, _, _, _ => none
  | fuel + 1, sys, t, len, ret => do
    let (sys, t, n) ← fsWriteBlock handler mem sys t (ptr + ret) len
    match n with
    | .error _ | .ok 0 => return (sys, t, ret)
    | .ok n => fwriteLoop handler mem ptr fuel sys t (len - n) (ret + n)

/-- `fwrite` of the bytes at an address of the caller. -/
def fwrite (handler : Device → Conn → Result) (mem : ℕ → UInt8) (sys : System)
    (ptr size members : ℕ) : Option (System × Transfer × ℕ) :=
  let len := size * members % wordSize
  fwriteLoop handler mem ptr (len + 1) sys ⟨[], []⟩ len 0

/-! ## Images -/

/-- The disk with numbers at places of the file system, each with its block, its offset in the block
and its width. -/
def image (sb : Superblock) (numbers : List (ℕ × ℕ × ℕ × ℕ)) : ℕ → UInt8 :=
  numbers.foldr (fun (block, off, k, x) disk =>
    writeLE k disk (ext2BlockToSector sb block * 512 + off) x) fun _ => 0

/-- The superblock of an image with blocks of 1024 bytes. -/
def smallSuperblock : Superblock := ⟨8, 64, 0, 64, 8, 128⟩

/-- A client that has just connected to the server of a disk. -/
def System.connect (disk : ℕ → UInt8) : System where
  dev := ⟨disk, fun _ => false, 0, fun _ => 0⟩
  conn := ⟨(c4RingbufInit ⟨0, 0, 0, ringSize, fun _ => 0⟩ pageSize).1, none⟩
  inbox := []
  index := 0

theorem System.connect_holds (disk : ℕ → UInt8) : Holds ringSize (connect disk).conn.ring [] :=
  holds_init (n := ringSize) (by decide) (by decide) rfl

end C4OS.Ext2
