import C4OS.Ext2.Inodes
import C4OS.Foundations.Events

/-!
# The requests to the server

One turn of the loop of `ext2_server`: a request is received on a connection, and the handler for
its type is called (`ext2Server`). The connections share the device, and each client uses its ring
between its requests. `Handles` is a step of the server and its clients in which a request gets one
response.
-/

namespace C4OS.Ext2

open Foundations Ringbuffer

/-! ## The other handlers -/

/-- `handle_get_rootdir`; `stack` is what is in the local variable `inode` before. -/
def handleGetRootdir (sb : Superblock) (stack : ℕ → UInt8) (d : Device) (conn : Conn) : Result := do
  let (d, buf) ← ext2GetInode sb d 2
  let e := (buf.map Prod.snd).getD ⟨stack⟩
  return (d, conn, [.completed [2, FileType.directory.toNat, e.lowerSize]])

/-- `handle_get_node_info`. -/
def handleGetNodeInfo (sb : Superblock) (d : Device) (conn : Conn) (inode : ℕ) : Result := do
  let (d, buf) ← ext2GetInode sb d inode
  match buf with
  | none => return (d, conn, [.error .notFound])
  | some (_, e) =>
    return (d, conn, [.completed [e.lowerSize, (translateType (ext2InodeType e)).toNat]])

/-- `handle_unimplemented`. -/
def handleUnimplemented (d : Device) (conn : Conn) : Result :=
  some (d, conn, [.error .notImplemented])

/-! ## The loop -/

/-- The types of requests that `ext2_server` has handlers for, and the others. -/
inductive FsMsg
  | setNode
  | findName
  | getRootDir
  | getNodeInfo
  | listDir
  | readBlock
  | writeBlock
  | other
  deriving DecidableEq

/-- A request, a `message_t`. -/
structure Message where
  type : FsMsg
  data : ℕ → ℕ

/-- The body of the loop of `ext2_server`, for a request on a connection; `stack` is what is in the
local variables of the handler before. -/
def ext2Server (sb : Superblock) (stack : ℕ → UInt8) (d : Device) (conn : Conn)
    (request : Message) : Result :=
  match request.type with
  | .setNode => handleSetNode sb d conn (request.data 0)
  | .findName => do
    let (d, conn, replies, _) ← handleFindName sb stack d conn (request.data 0)
    return (d, conn, replies)
  | .getRootDir => handleGetRootdir sb stack d conn
  | .getNodeInfo => handleGetNodeInfo sb d conn (request.data 0)
  | .listDir => handleListDir sb stack d conn
  | .readBlock => handleReadBlock sb d conn
  | .writeBlock => handleWriteBlock sb d conn
  | .other => handleUnimplemented d conn

/-- The server with its connections. -/
structure Server where
  dev : Device
  conns : ℕ → Conn

/-- What happens on a connection: a request, or a client that uses the ring. -/
inductive Event
  | request (c : ℕ) (stack : ℕ → UInt8) (msg : Message)
  | write (c : ℕ) (bytes : List UInt8)
  | read (c size : ℕ)

/-- The server with another ring on a connection. -/
def Server.setRing (x : Server) (c : ℕ) (ring : C4Ringbuf) : Server :=
  { x with conns := Function.update x.conns c { x.conns c with ring := ring } }

/-- An event is handled, and a request gets one response. -/
inductive Handles (sb : Superblock) : Server → Event → Server → Prop
  | request {x : Server} {c : ℕ} {stack : ℕ → UInt8} {msg : Message} {d : Device} {conn : Conn}
      {reply : Reply} (hrun : ext2Server sb stack x.dev (x.conns c) msg = some (d, conn, [reply])) :
      Handles sb x (.request c stack msg) ⟨d, Function.update x.conns c conn⟩
  | write {x : Server} {c : ℕ} {bytes : List UInt8} {ring : C4Ringbuf} {n : ℕ}
      (hrun : c4RingbufWrite (x.conns c).ring bytes = some (ring, n)) :
      Handles sb x (.write c bytes) (x.setRing c ring)
  | read {x : Server} {c size : ℕ} {ring : C4Ringbuf} {bytes : List UInt8}
      (hrun : c4RingbufRead (x.conns c).ring size = some (ring, bytes)) :
      Handles sb x (.read c size) (x.setRing c ring)

theorem handles_determined (sb : Superblock) : Determined (Handles sb) := by
  intro x ev y z hy hz
  cases hy with
  | request hrun =>
    cases hz with
    | request hrun' =>
      rw [hrun] at hrun'
      cases hrun'
      rfl
  | write hrun =>
    cases hz with
    | write hrun' =>
      rw [hrun] at hrun'
      cases hrun'
      rfl
  | read hrun =>
    cases hz with
    | read hrun' =>
      rw [hrun] at hrun'
      cases hrun'
      rfl

/-- The server of a disk, with clients that have just connected. -/
def Server.start (disk : ℕ → UInt8) : Server :=
  ⟨(System.connect disk).dev, fun _ => (System.connect disk).conn⟩

end C4OS.Ext2
