import C4OS.Connman.Messages

/-!
# The conversation of a client and a server

What a client or the server does next, while they connect, is a point of their conversation.
`ClientFollows` and `ServerFollows` say that a program keeps to the conversation from a point on,
whatever it is answered there. The programs of the connection manager keep to it
(`clientCall_follows`, `clientCall_follows_connected`, `serverCall_follows`), so that a proof about
the parties is one about points.
-/

namespace C4OS.Connman.Handshake

open Foundations Andtree

/-! ## The points of a conversation -/

/-- The objects that a client creates to connect. -/
structure Handles where
  asyncTo : ℕ
  asyncFrom : ℕ
  page : ℕ
  temp : ℕ

/-- The objects, the last one first. -/
def Handles.objects (h : Handles) : List ℕ := [h.temp, h.page, h.asyncFrom, h.asyncTo]

/-- The connection of a client. -/
def Handles.conn (h : Handles) (port id : ℕ) : Conn :=
  ⟨port, h.asyncTo, h.asyncFrom, id, some h.page⟩

/-- The record of the server for a client, whose page it could map or not. -/
def Handles.record (h : Handles) (id : ℕ) (mapped : Bool) : Conn :=
  ⟨0, h.asyncFrom, h.asyncTo, id, if mapped then some h.page else none⟩

/-- Where a client is. -/
inductive ClientPoint where
  | building (objects : List ℕ)
  | requesting (h : Handles)
  | waiting (h : Handles)
  | grantingTo (h : Handles) (id : ℕ)
  | grantingFrom (h : Handles) (id : ℕ)
  | grantingPage (h : Handles) (id : ℕ)
  | connected (h : Handles) (id : ℕ)

/-- The objects that the client has created. -/
def ClientPoint.objects : ClientPoint → List ℕ
  | .building objects => objects
  | .requesting h | .waiting h | .grantingTo h _ | .grantingFrom h _ | .grantingPage h _
  | .connected h _ => h.objects

/-- The client is in the middle of the conversation. -/
def ClientPoint.Busy : ClientPoint → Prop
  | .building _ | .connected _ _ => False
  | _ => True

/-- The program of a client keeps to the conversation from a point on. -/
inductive ClientFollows (port : ℕ) : ClientPoint → Program (Option (Conn × ℕ)) → Prop
  | unchanged : ClientFollows port (.building []) (.ret none)
  | abort {objects : List ℕ} : ClientFollows port (.building objects) .abort
  | create {objects : List ℕ} {next : ℕ → Program (Option (Conn × ℕ))}
      (h : ∀ v, ClientFollows port (.building (v :: objects)) (next v)) :
      ClientFollows port (.building objects) (.fresh .object next)
  | test {objects : List ℕ} {next : Bool → Program (Option (Conn × ℕ))}
      (h : ∀ b, ClientFollows port (.building objects) (next b)) :
      ClientFollows port (.building objects) (.test next)
  | grantTemp {h : Handles} {msg : Message} {next : Program (Option (Conn × ℕ))}
      (htype : msg.type = .grantObject) (hdata : msg.data 5 = h.temp)
      (hnext : ClientFollows port (.requesting h) next) :
      ClientFollows port (.building h.objects) (.send port msg next)
  | request {h : Handles} {msg : Message} {next : Program (Option (Conn × ℕ))}
      (htype : msg.type = .connect) (hnext : ClientFollows port (.waiting h) next) :
      ClientFollows port (.requesting h) (.send h.temp msg next)
  | receive {h : Handles} {next : Message → Program (Option (Conn × ℕ))}
      (hnext : ∀ msg, ClientFollows port (.grantingTo h (msg.data 0)) (next msg)) :
      ClientFollows port (.waiting h) (.receive h.temp next)
  | grantTo {h : Handles} {id : ℕ} {msg : Message} {next : Program (Option (Conn × ℕ))}
      (htype : msg.type = .grantObject) (hdata : msg.data 5 = h.asyncTo)
      (hnext : ClientFollows port (.grantingFrom h id) next) :
      ClientFollows port (.grantingTo h id) (.send h.temp msg next)
  | grantFrom {h : Handles} {id : ℕ} {msg : Message} {next : Program (Option (Conn × ℕ))}
      (htype : msg.type = .grantObject) (hdata : msg.data 5 = h.asyncFrom)
      (hnext : ClientFollows port (.grantingPage h id) next) :
      ClientFollows port (.grantingFrom h id) (.send h.temp msg next)
  | grantPage {h : Handles} {id : ℕ} {msg : Message} {next : Program (Option (Conn × ℕ))}
      (htype : msg.type = .grantObject) (hdata : msg.data 5 = h.page)
      (hnext : ClientFollows port (.connected h id) next) :
      ClientFollows port (.grantingPage h id) (.send h.temp msg next)
  | done {h : Handles} {id : ℕ} :
      ClientFollows port (.connected h id) (.ret (some (h.conn port id, h.temp)))
  | notify {h : Handles} {id : ℕ} {msg : Message} {next : Program (Option (Conn × ℕ))}
      (htype : msg.type ≠ .grantObject) (hnext : ClientFollows port (.connected h id) next) :
      ClientFollows port (.connected h id) (.send port msg next)
  | post {h : Handles} {id e : ℕ} {msg : Message} {next : Program (Option (Conn × ℕ))}
      (hnext : ClientFollows port (.connected h id) next) :
      ClientFollows port (.connected h id) (.post e msg next)
  | poll {h : Handles} {id e : ℕ} {block : Bool}
      {next : Option Message → Program (Option (Conn × ℕ))}
      (hnext : ∀ msg, ClientFollows port (.connected h id) (next msg)) :
      ClientFollows port (.connected h id) (.poll e block next)

/-- Where the server is. A point has the temporary endpoint, the record, its number, and the objects
that were granted, as far as they are known. -/
inductive ServerPoint where
  | idle
  | request (temp : ℕ)
  | allocating (temp : ℕ)
  | numbering (temp : ℕ) (ptr : Ptr)
  | reply (temp : ℕ) (ptr : Ptr) (id : ℕ)
  | awaitTo (temp : ℕ) (ptr : Ptr) (id : ℕ)
  | awaitFrom (temp : ℕ) (ptr : Ptr) (id asyncTo : ℕ)
  | awaitPage (temp : ℕ) (ptr : Ptr) (id asyncTo asyncFrom : ℕ)
  | mapping (ptr : Ptr) (id : ℕ) (h : Handles)
  | done (ptr : Ptr) (id : ℕ) (h : Handles) (mapped : Bool)

/-- The server with the record of a client. -/
structure ConnServer.Accepts (calloc : Allocator AndNode) (s : ConnServer) (ptr : Ptr) (id : ℕ)
    (h : Handles) (mapped : Bool) (s' : ConnServer) : Prop where
  accepted : s'.accepted = (h.temp, ptr) :: s.accepted
  mapped_eq : s'.mapped = if mapped then ptr :: s.mapped else s.mapped
  record_self : s'.record ptr = h.record id mapped
  record_of_ne : ∀ p, p ≠ ptr → s'.record p = s.record p
  connect : Connman.handleConnect calloc s.server true true ptr id = some (s'.server, ptr)

/-- The program of the server keeps to the conversation from a point on. A message that a client
does not send at the point may end it. -/
inductive ServerFollows (calloc : Allocator AndNode) (port : ℕ) (s : ConnServer) :
    ServerPoint → Program ConnServer → Prop
  | unchanged : ServerFollows calloc port s .idle (.ret s)
  | abort {pt : ServerPoint} : ServerFollows calloc port s pt .abort
  | post {e : ℕ} {msg : Message} {next : Program ConnServer}
      (hnext : ServerFollows calloc port s .idle next) :
      ServerFollows calloc port s .idle (.post e msg next)
  | poll {e : ℕ} {block : Bool} {next : Option Message → Program ConnServer}
      (hnext : ∀ msg, ServerFollows calloc port s .idle (next msg)) :
      ServerFollows calloc port s .idle (.poll e block next)
  | listen {next : Message → Program ConnServer}
      (hgrant : ∀ msg, msg.type = .grantObject →
        ServerFollows calloc port s (.request (msg.data 5)) (next msg))
      (hother : ∀ msg, msg.type ≠ .grantObject → ServerFollows calloc port s .idle (next msg)) :
      ServerFollows calloc port s .idle (.receive port next)
  | request {temp : ℕ} {next : Message → Program ConnServer}
      (hnext : ∀ msg, msg.type = .connect →
        ServerFollows calloc port s (.allocating temp) (next msg)) :
      ServerFollows calloc port s (.request temp) (.receive temp next)
  | allocate {temp : ℕ} {next : ℕ → Program ConnServer}
      (hnext : ∀ ptr, ptr ≠ null → ServerFollows calloc port s (.numbering temp ptr) (next ptr)) :
      ServerFollows calloc port s (.allocating temp) (.fresh .memory next)
  | number {temp : ℕ} {ptr : Ptr} {next : ℕ → Program ConnServer}
      (hnext : ∀ id, ServerFollows calloc port s (.reply temp ptr id) (next id)) :
      ServerFollows calloc port s (.numbering temp ptr) (.fresh .number next)
  | reply {temp : ℕ} {ptr : Ptr} {id : ℕ} {msg : Message} {next : Program ConnServer}
      (hdata : msg.data 0 = id) (hnext : ServerFollows calloc port s (.awaitTo temp ptr id) next) :
      ServerFollows calloc port s (.reply temp ptr id) (.send temp msg next)
  | grantTo {temp : ℕ} {ptr : Ptr} {id : ℕ} {next : Message → Program ConnServer}
      (hnext : ∀ msg, msg.type = .grantObject →
        ServerFollows calloc port s (.awaitFrom temp ptr id (msg.data 5)) (next msg)) :
      ServerFollows calloc port s (.awaitTo temp ptr id) (.receive temp next)
  | grantFrom {temp : ℕ} {ptr : Ptr} {id asyncTo : ℕ} {next : Message → Program ConnServer}
      (hnext : ∀ msg, msg.type = .grantObject →
        ServerFollows calloc port s (.awaitPage temp ptr id asyncTo (msg.data 5)) (next msg)) :
      ServerFollows calloc port s (.awaitFrom temp ptr id asyncTo) (.receive temp next)
  | grantPage {temp : ℕ} {ptr : Ptr} {id asyncTo asyncFrom : ℕ}
      {next : Message → Program ConnServer}
      (hnext : ∀ msg, msg.type = .grantObject →
        ServerFollows calloc port s (.mapping ptr id ⟨asyncTo, asyncFrom, msg.data 5, temp⟩)
          (next msg)) :
      ServerFollows calloc port s (.awaitPage temp ptr id asyncTo asyncFrom) (.receive temp next)
  | map {ptr : Ptr} {id : ℕ} {h : Handles} {next : Bool → Program ConnServer}
      (hnext : ∀ b, ServerFollows calloc port s (.done ptr id h b) (next b)) :
      ServerFollows calloc port s (.mapping ptr id h) (.test next)
  | done {ptr : Ptr} {id : ℕ} {h : Handles} {mapped : Bool} {s' : ConnServer}
      (haccepts : s.Accepts calloc ptr id h mapped s') :
      ServerFollows calloc port s (.done ptr id h mapped) (.ret s')

/-! ## The programs follow -/

/-- A client that connects keeps to the conversation. -/
theorem connmanConnect_follows (port : ℕ) :
    ClientFollows port (.building []) (some <$> connmanConnect port) := by
  simp only [connmanConnect, create, memobjRegionMap, sendTempEndpoint, msgSend, msgRecieve,
    cspaceGrant, Proc.bind_eq, Proc.map_eq, Proc.pure_eq, Proc.bind]
  apply ClientFollows.create
  intro asyncTo
  apply ClientFollows.create
  intro asyncFrom
  apply ClientFollows.create
  intro page
  apply ClientFollows.test
  intro mapped
  cases mapped with
  | false => exact .abort
  | true =>
    apply ClientFollows.create
    intro temp
    let h : Handles := ⟨asyncTo, asyncFrom, page, temp⟩
    apply ClientFollows.grantTemp (h := h) rfl rfl
    apply ClientFollows.request (h := h) rfl
    apply ClientFollows.receive (h := h)
    intro msg
    apply ClientFollows.grantTo (h := h) rfl rfl
    apply ClientFollows.grantFrom (h := h) rfl rfl
    apply ClientFollows.grantPage (h := h) rfl rfl
    exact ClientFollows.done (h := h)

/-- Each call of a client that is not connected keeps to the conversation. -/
theorem clientCall_follows (port : ℕ) (c : Call) :
    ClientFollows port (.building []) (clientCall port none c) := by
  cases c with
  | connect => exact connmanConnect_follows port
  | _ => exact .unchanged

/-- So does each call of a client that is. -/
theorem clientCall_follows_connected (port : ℕ) (h : Handles) (id : ℕ) (c : Call) :
    ClientFollows port (.connected h id) (clientCall port (some (h.conn port id, h.temp)) c) := by
  cases c with
  | disconnect => exact .notify (by simp) .done
  | send msg => exact .post (.notify (by simp) .done)
  | recv block => exact .poll fun msg => .done
  | _ => exact .done

theorem handleNewMessage_follows (calloc : Allocator AndNode) (port : ℕ) (s : ConnServer)
    (client : ℕ) {f : Option (Ptr × Message) → Program ConnServer}
    (hf : ∀ conn, ServerFollows calloc port s .idle (f conn)) :
    ServerFollows calloc port s .idle ((handleNewMessage s client).bind f) := by
  unfold handleNewMessage
  split
  · exact .abort
  · split
    · exact hf none
    · exact .poll fun msg => hf _

/-- The handler of a connect keeps to the conversation. -/
theorem handleConnect_follows (calloc : Allocator AndNode) (port : ℕ) (s : ConnServer) (temp : ℕ)
    {f : ConnServer × Ptr → Program ConnServer}
    (hf : ∀ s' ptr, ptr ≠ null →
      f (s', ptr) = .ret { s' with accepted := (temp, ptr) :: s'.accepted }) :
    ServerFollows calloc port s (.request temp) ((handleConnect calloc s temp).bind f) := by
  apply ServerFollows.request
  intro msg hmsg
  simp only [Proc.bind_eq, hmsg, ne_eq, not_true_eq_false, if_false, Proc.bind, Proc.pure_eq,
    msgSend, msgRecieve, memobjRegionMap]
  apply ServerFollows.allocate
  intro ptr hptr
  apply ServerFollows.number
  intro id
  split
  · exact .abort
  · rename_i m t a hins
    apply ServerFollows.reply (by simp)
    apply ServerFollows.grantTo
    intro msg₁ h₁
    simp only [h₁, not_true_eq_false, if_false, Proc.bind]
    apply ServerFollows.grantFrom
    intro msg₂ h₂
    simp only [h₂, not_true_eq_false, if_false, Proc.bind]
    apply ServerFollows.grantPage
    intro msg₃ h₃
    simp only [h₃, not_true_eq_false, if_false, Proc.bind]
    apply ServerFollows.map
    intro mapped
    simp only [hf _ _ hptr]
    apply ServerFollows.done
    constructor
    · rfl
    · rfl
    · simp [ConnServer.record, Handles.record]
    · intro p hp
      simp [ConnServer.record, Function.update_of_ne hp]
    · simp only [Connman.handleConnect, Bool.not_true, Bool.false_eq_true, if_false, if_true]
      exact run_bind hins rfl

/-- Each call of the server keeps to the conversation. -/
theorem serverCall_follows (calloc : Allocator AndNode) (port : ℕ) (s : ConnServer) (c : Call) :
    ServerFollows calloc port s .idle (serverCall calloc port s c) := by
  cases c with
  | listen =>
    simp only [serverCall, serverListen, msgRecieve, Proc.bind_eq, Proc.map_eq, Proc.pure_eq,
      Proc.bind]
    apply ServerFollows.listen
    · intro msg hmsg
      simp only [hmsg, Proc.bind_assoc]
      apply handleConnect_follows
      intro s' ptr hptr
      simp only [Proc.bind, if_neg hptr]
    · intro msg hmsg
      split
      · exact absurd ‹_› hmsg
      · rw [Proc.bind_assoc]
        exact handleNewMessage_follows calloc port s _ fun conn => .unchanged
      · exact .unchanged
  | respond conn msg => exact .post .unchanged
  | _ => exact .unchanged

end C4OS.Connman.Handshake
