import C4OS.Connman.Clients
import C4OS.Foundations.Rendezvous

/-!
# The messages of a connection

A client connects to a server over the port of the server: it grants the server a temporary
endpoint, and the rest of the conversation goes over this endpoint. The functions of the connection
manager are programs that exchange messages. A grant is a synchronous message that carries the
object in its last word, the objects are named by the system that creates them, and the calls that
ask the system for objects, numbers and memory get values that nobody else has.

`C4_ASSERT` prints a message and goes on, so that it does nothing here. Where
`c4_memobj_region_map` fails, a client sets up the ring of its buffer behind a pointer to nothing and
is stopped, while `handle_connect` returns a record without a page.

A turn of `c4rt_connman_server_listen` is the body of its loop. What the asynchronous endpoints
carry is up to the clients and to the application of the server.
-/

namespace C4OS.Connman.Handshake

open Foundations Andtree

/-- The types of the messages on the synchronous endpoints. -/
inductive MessageType where
  | grantObject
  | connect
  | disconnect
  | clientId
  | newMessage
  | other (type : ℕ)
  deriving DecidableEq

/-- A message has six words. -/
instance neZero_words : NeZero 6 := ⟨by decide⟩

/-- `message_t`. -/
structure Message where
  type : MessageType
  data : Fin 6 → ℕ := fun _ => 0

/-- What the programs ask for: objects, random numbers, and memory. -/
inductive Fresh where
  | object
  | number
  | memory
  deriving DecidableEq

/-- A random number is a word, and memory is not at the null pointer. -/
def legal : Fresh → ℕ → Prop
  | .object, _ => True
  | .number, id => id < 2 ^ 32
  | .memory, ptr => ptr ≠ null

/-- A program of the connection manager. -/
abbrev Program := Proc Message Fresh

/-- `c4_msg_send`. -/
def msgSend (msg : Message) (e : ℕ) : Program Unit := .send e msg (.ret ())

/-- `c4_msg_recieve`. -/
def msgRecieve (e : ℕ) : Program Message := .receive e .ret

/-- `c4_cspace_grant`. -/
def cspaceGrant (object e : ℕ) : Program Unit :=
  msgSend { type := .grantObject, data := fun i => if i = 5 then object else 0 } e

/-- The calls that make an object: `c4_msg_create_sync`, `c4_msg_create_async` and
`pager_request_pages`. -/
def create : Program ℕ := .fresh .object .ret

/-- `c4_memobj_region_map`, which fails when there is no room for the object, or when the system does
not map it. -/
def memobjRegionMap : Program Bool := .test .ret

/-- `c4rt_conn_t`, with the page behind the pointer `ringbuf`, if there is one. -/
structure Conn where
  serverPort : ℕ
  asyncTo : ℕ
  asyncFrom : ℕ
  clientId : ℕ
  page : Option ℕ

/-! ## The client -/

/-- `c4_send_temp_endpoint`. -/
def sendTempEndpoint (server : ℕ) : Program ℕ := do
  let temppoint ← create
  cspaceGrant temppoint server
  return temppoint

/-- `c4rt_connman_connect`, with the connection and the temporary endpoint. -/
def connmanConnect (server : ℕ) : Program (Conn × ℕ) := do
  let asyncTo ← create
  let asyncFrom ← create
  let page ← create
  let mapped ← memobjRegionMap
  -- `c4_ringbuf_init` writes to the page
  if !mapped then .abort
  else
    let temppoint ← sendTempEndpoint server
    msgSend { type := .connect } temppoint
    let msg ← msgRecieve temppoint
    let clientId := msg.data 0
    cspaceGrant asyncTo temppoint
    cspaceGrant asyncFrom temppoint
    cspaceGrant page temppoint
    return (⟨server, asyncTo, asyncFrom, clientId, some page⟩, temppoint)

/-- `c4rt_connman_disconnect`. -/
def connmanDisconnect (conn : Conn) : Program Unit :=
  msgSend { type := .disconnect } conn.serverPort

/-- `c4rt_connman_send`. -/
def connmanSend (conn : Conn) (msg : Message) : Program Unit :=
  .post conn.asyncTo msg
    (msgSend { type := .newMessage, data := fun i => if i = 0 then conn.clientId else 0 }
      conn.serverPort)

/-- `c4rt_connman_recv`. -/
def connmanRecv (conn : Conn) (block : Bool) : Program (Option Message) :=
  .poll conn.asyncFrom block .ret

/-! ## The server -/

/-- `c4rt_conn_server_t` with its connections: the tree and the numbers, the other fields, the
connections that `handle_connect` returned, with the temporary endpoints that they came over, and
those for which the page was mapped. -/
structure ConnServer where
  server : Server
  asyncTo : Ptr → ℕ
  asyncFrom : Ptr → ℕ
  page : Ptr → Option ℕ
  accepted : List (ℕ × Ptr)
  mapped : List Ptr

/-- The connection at a pointer. The server does not set the port. -/
def ConnServer.record (s : ConnServer) (ptr : Ptr) : Conn :=
  ⟨0, s.asyncTo ptr, s.asyncFrom ptr, s.server.clientId ptr, s.page ptr⟩

/-- `c4rt_connman_server_init`. -/
def connServerInit (m : Mem) (clientId : Ptr → ℕ) : ConnServer :=
  ⟨serverInit m clientId, fun _ => 0, fun _ => 0, fun _ => none, [], []⟩

/-- The part of `handle_connect` behind `error_out`. -/
def errorOut (s : ConnServer) (newClient : Ptr) : Program (ConnServer × Ptr) :=
  match andtreeRemoveKey s.server.getClientId s.server.mem s.server.tree
      (s.server.getClientId newClient) with
  | none => .abort
  | some (m, t, _) => return ({ s with server := { s.server with mem := m, tree := t } }, null)

/-- `handle_connect`. -/
def handleConnect (calloc : Allocator AndNode) (s : ConnServer) (temp : ℕ) :
    Program (ConnServer × Ptr) := do
  let msgbuf ← msgRecieve temp
  if msgbuf.type ≠ .connect then return (s, null)
  else
    let newClient ← .fresh .memory .ret
    let id ← .fresh .number .ret
    let s := { s with server.clientId := Function.update s.server.clientId newClient id }
    match andtreeInsert calloc s.server.getClientId s.server.mem s.server.tree newClient with
    | none => .abort
    | some (m, t, _) =>
      let s := { s with server := { s.server with mem := m, tree := t } }
      msgSend { type := .clientId, data := fun i => if i = 0 then id else 0 } temp
      let msgbuf ← msgRecieve temp
      if msgbuf.type ≠ .grantObject then errorOut s newClient
      else
        let s := { s with asyncFrom := Function.update s.asyncFrom newClient (msgbuf.data 5) }
        let msgbuf ← msgRecieve temp
        if msgbuf.type ≠ .grantObject then errorOut s newClient
        else
          let s := { s with asyncTo := Function.update s.asyncTo newClient (msgbuf.data 5) }
          let msgbuf ← msgRecieve temp
          if msgbuf.type ≠ .grantObject then errorOut s newClient
          else
            let obj := msgbuf.data 5
            let mapped ← memobjRegionMap
            return ({ s with
              page := Function.update s.page newClient (if mapped then some obj else none)
              mapped := if mapped then newClient :: s.mapped else s.mapped }, newClient)

/-- `handle_new_message`, with the connection and the message. -/
def handleNewMessage (s : ConnServer) (client : ℕ) : Program (Option (Ptr × Message)) :=
  match findClient s.server client with
  | none => .abort
  | some conn =>
    if conn = null then return none
    else .poll (s.asyncFrom conn) false fun msg => return msg.map fun msg => (conn, msg)

/-- A turn of the loop of `c4rt_connman_server_listen`, with the server, and the connection and its
message that end the loop. -/
def serverListen (calloc : Allocator AndNode) (port : ℕ) (s : ConnServer) :
    Program (ConnServer × Option (Ptr × Message)) := do
  let msgbuf ← msgRecieve port
  let temp := msgbuf.data 5
  match msgbuf.type with
  | .grantObject =>
    let (s, newClient) ← handleConnect calloc s temp
    -- the connection is in the tree, and the result is not used
    return ({ s with
      accepted := if newClient = null then s.accepted else (temp, newClient) :: s.accepted }, none)
  | .newMessage =>
    let conn ← handleNewMessage s (msgbuf.data 0)
    return (s, conn)
  | _ => return (s, none)

/-- `c4rt_connman_server_respond`. -/
def serverRespond (s : ConnServer) (conn : Ptr) (msg : Message) : Program Unit :=
  .post (s.asyncTo conn) msg (.ret ())

/-! ## The system -/

/-- The calls of the applications. -/
inductive Call where
  | connect
  | disconnect
  | send (msg : Message)
  | recv (block : Bool)
  | listen
  | respond (conn : Ptr) (msg : Message)

/-- What a party keeps between its calls: the server its connections, and a client its own, with the
temporary endpoint that it was made over. -/
abbrev Party (ι : Type) : Option ι → Type
  | none => ConnServer
  | some _ => Option (Conn × ℕ)

/-- The calls of a client. -/
def clientCall (port : ℕ) : Option (Conn × ℕ) → Call → Program (Option (Conn × ℕ))
  | none, .connect => some <$> connmanConnect port
  | some c, .disconnect => do connmanDisconnect c.1; return some c
  | some c, .send msg => do connmanSend c.1 msg; return some c
  | some c, .recv block => do let _ ← connmanRecv c.1 block; return some c
  | c, _ => return c

/-- The calls of the server. -/
def serverCall (calloc : Allocator AndNode) (port : ℕ) (s : ConnServer) :
    Call → Program ConnServer
  | .listen => Prod.fst <$> serverListen calloc port s
  | .respond conn msg => do serverRespond s conn msg; return s
  | _ => return s

/-- The calls of the parties. -/
def call (ι : Type) (calloc : Allocator AndNode) (port : ℕ) :
    ∀ p : Option ι, Party ι p → Call → Program (Party ι p)
  | none => serverCall calloc port
  | some _ => clientCall port

/-- The clients `ι` and the server, before the first call. The port of the server exists. -/
def initial (ι : Type) (m : Mem) (clientId : Ptr → ℕ) (port : ℕ) :
    System (Option ι) Message Fresh (Party ι) where
  state
    | none => connServerInit m clientId
    | some _ => none
  proc _ := none
  queue _ := []
  issued
    | .object => [port]
    | _ => []

end C4OS.Connman.Handshake
