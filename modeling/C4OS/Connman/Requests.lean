import C4OS.Connman.Handshake

/-!
# Requests of connected clients

Clients that are connected call `c4rt_connman_call` again and again, while the server loops over
`c4rt_connman_server_listen` and answers each request that it returns with
`c4rt_connman_server_respond`. A request is a message on the private queue of the client and a
notification on the port of the server, so a request that is under way is at one of several places.

`Request` lists these places: the program of the client, the two queues of its connection and what
the server does about it then fit together. `Serving` is the same for the program of the server. The
applications choose the requests and the responses: each choice is a turn of its own.
-/

namespace C4OS.Connman.Requests

open Foundations Andtree Handshake

/-! ## The parties -/

/-- `c4rt_connman_call`. -/
def connmanCall (conn : Conn) (msg : Message) : Program (Option Message) := do
  connmanSend conn msg
  connmanRecv conn true

/-- A client: the request that its application has made, and the requests that were answered. -/
structure ClientState where
  asked : Option Message
  log : List (Message × Message)

/-- A turn of a client: the application makes a request, or the request is sent. -/
def clientTurn (conn : Conn) (c : ClientState) (msg : Message) : Program ClientState :=
  match c.asked with
  | none => return { c with asked := some msg }
  | some request => do
    let response ← connmanCall conn request
    return ⟨none, c.log ++ (response.map fun response => (request, response)).toList⟩

/-- What the server has in hand: nothing, a request that it has returned, or a response. -/
inductive Stage where
  | free
  | returned (conn : Ptr) (request : Message)
  | decided (conn : Ptr) (response : Message)

/-- The server, with the requests that its application has decided about and their responses. -/
structure ServerState where
  srv : ConnServer
  stage : Stage
  log : List (Ptr × Message × Message)

/-- The stage after a turn of the loop of `c4rt_connman_server_listen`. -/
def Stage.ofListen : Option (Ptr × Message) → Stage
  | none => .free
  | some (conn, request) => .returned conn request

/-- A turn of the server: it listens, or the application decides about a request, or the response is
sent. -/
def serverTurn (calloc : Allocator AndNode) (port : ℕ) (s : ServerState) (msg : Message) :
    Program ServerState :=
  match s.stage with
  | .free => do
    let (srv, result) ← serverListen calloc port s.srv
    return ⟨srv, .ofListen result, s.log⟩
  | .returned conn request => return ⟨s.srv, .decided conn msg, s.log ++ [(conn, request, msg)]⟩
  | .decided conn response => do
    serverRespond s.srv conn response
    return { s with stage := .free }

/-- The state of a party. -/
abbrev State (ι : Type) : Option ι → Type
  | none => ServerState
  | some _ => ClientState

section

variable {ι : Type}

/-- The turns of the parties. -/
def turn (conn : ι → Conn) (calloc : Allocator AndNode) (port : ℕ) :
    ∀ p : Option ι, State ι p → Message → Program (State ι p)
  | none => serverTurn calloc port
  | some c => clientTurn (conn c)

/-- The clients and the server before the first request. -/
def atRest (srv : ConnServer) : System (Option ι) Message Fresh (State ι) where
  state
    | none => ⟨srv, .free, []⟩
    | some _ => ⟨none, []⟩
  proc _ := none
  queue _ := []
  issued _ := []

/-- The clients are connected: each has a record, with the endpoints of each other and the same
number, and no endpoint in common with other clients. The numbers of all clients of the server are
different, with differences that fit in an `int`. -/
structure Connected (port : ℕ) (srv : ConnServer) (conn : ι → Conn) (record : ι → Ptr) : Prop where
  port : ∀ c, (conn c).serverPort = port
  linked : ∀ c, (conn c).Linked (srv.record (record c))
  to_ne_from : ∀ c, (conn c).asyncTo ≠ (conn c).asyncFrom
  apart : ∀ c d, c ≠ d → (conn c).Apart (conn d)
  numbers : ∃ conns, Connects srv.server conns ∧ (∀ c, (record c, (conn c).clientId) ∈ conns) ∧
    (conns.map Prod.snd).Nodup ∧
    ∀ a ∈ conns, ∀ b ∈ conns, -2 ^ 31 ≤ toInt a.2 - toInt b.2 ∧ toInt a.2 - toInt b.2 < 2 ^ 31

end

/-! ## The programs on their way -/

/-- The notification of a request. -/
def notification (conn : Conn) : Message :=
  { type := .newMessage, data := fun i => if i = 0 then conn.clientId else 0 }

/-- The end of a turn of a client. -/
def answered (log : List (Message × Message)) (request : Message) (response : Option Message) :
    Program ClientState :=
  .ret ⟨none, log ++ (response.map fun response => (request, response)).toList⟩

/-- A client that waits for its response. -/
def waiting (conn : Conn) (log : List (Message × Message)) (request : Message) :
    Program ClientState :=
  .poll conn.asyncFrom true (answered log request)

/-- A client that has posted its request. -/
def notifying (conn : Conn) (log : List (Message × Message)) (request : Message) :
    Program ClientState :=
  .send conn.serverPort (notification conn) (waiting conn log request)

theorem clientTurn_asked (conn : Conn) (log : List (Message × Message)) (request msg : Message) :
    clientTurn conn ⟨some request, log⟩ msg =
      .post conn.asyncTo request (notifying conn log request) := rfl

/-- The server looks for the message of a client. -/
def looking (conn : Conn) (srv : ConnServer) (ptr : Ptr) (log : List (Ptr × Message × Message)) :
    Program ServerState :=
  .poll conn.asyncTo false fun msg => .ret ⟨srv, .ofListen (msg.map fun msg => (ptr, msg)), log⟩

theorem serverTurn_decided (calloc : Allocator AndNode) (port : ℕ) (srv : ConnServer) (ptr : Ptr)
    (response msg : Message) (log : List (Ptr × Message × Message)) :
    serverTurn calloc port ⟨srv, .decided ptr response, log⟩ msg =
      .post (srv.asyncTo ptr) response (.ret ⟨srv, .free, log⟩) := rfl

section Connected

variable {ι : Type} {port : ℕ} {srv : ConnServer} {conn : ι → Conn} {record : ι → Ptr}

/-- The server finds the record of a client. -/
theorem Connected.find (h : Connected port srv conn record) (c : ι) :
    findClient srv.server (conn c).clientId = some (record c) := by
  obtain ⟨conns, hconns, hmem, hnodup, hfit⟩ := h.numbers
  have hhalf : ∃ k, InHalf k (conns.map Prod.snd) := by
    unfold InHalf
    apply exists_half
    intro x hx y hy
    obtain ⟨a, ha, rfl⟩ := List.mem_map.1 hx
    obtain ⟨b, hb, rfl⟩ := List.mem_map.1 hy
    have hlt := (hfit a ha b hb).2
    omega
  obtain ⟨k, hk⟩ := hhalf
  have hfound := findClient_of_mem hconns hnodup hk (hmem c)
  exact hfound

theorem Connected.record_ne_null (h : Connected port srv conn record) (c : ι) :
    record c ≠ null := by
  obtain ⟨conns, hconns, hmem, -, -⟩ := h.numbers
  exact hconns.ne_null _ (hmem c)

/-- Different clients have different records. -/
theorem Connected.record_inj (h : Connected port srv conn record) {c d : ι}
    (heq : record c = record d) : c = d := by
  by_contra hne
  apply (h.apart c d hne).clientId
  rw [← (h.linked c).clientId, ← (h.linked d).clientId, heq]

theorem Connected.asyncFrom_record (h : Connected port srv conn record) (c : ι) :
    srv.asyncFrom (record c) = (conn c).asyncTo := (h.linked c).to_from

theorem Connected.asyncTo_record (h : Connected port srv conn record) (c : ι) :
    srv.asyncTo (record c) = (conn c).asyncFrom := (h.linked c).from_to

/-- Clients that have shaken hands with the server are connected, as long as the numbers fit. -/
theorem Connected.of_handshake [DecidableEq ι] {calloc : Allocator AndNode} {m : Mem}
    (hm : SentinelOk m) {clientId : Ptr → ℕ}
    {s : System (Option ι) Message Fresh (Handshake.Party ι)}
    (hs : System.Reaches legal (call ι calloc port) (initial ι m clientId port) s) {temp : ι → ℕ}
    (hkept : ∀ c, s.state (some c) = some (conn c, temp c))
    (hmade : ∀ c, (temp c, record c) ∈ (s.state none).accepted)
    (hne : ∀ c, (conn c).asyncTo ≠ (conn c).asyncFrom)
    (hfit : ∀ a ∈ (s.state none).accepted, ∀ b ∈ (s.state none).accepted,
      -2 ^ 31 ≤ toInt ((s.state none).record a.2).clientId -
          toInt ((s.state none).record b.2).clientId ∧
        toInt ((s.state none).record a.2).clientId -
          toInt ((s.state none).record b.2).clientId < 2 ^ 31) :
    Connected port (s.state none) conn record := by
  obtain ⟨cp, sp, h⟩ := reaches_inv hm hs
  have hlinked (c : ι) := (h.linked (hkept c) (hmade c)).1
  constructor
  · intro c
    obtain ⟨hd, id, -, hconn, -⟩ := h.kept_handles (hkept c)
    rw [hconn]
    rfl
  · exact hlinked
  · exact hne
  · intro c d hcd
    -- the temporary endpoints are different, so that the records are
    have htemp : (temp d, record d) ≠ (temp c, record c) := by
      intro heq
      obtain ⟨hc, idc, hptc, -, htc⟩ := h.kept_handles (hkept c)
      obtain ⟨hd, idd, hptd, -, htd⟩ := h.kept_handles (hkept d)
      have hsame : hd.temp = hc.temp := by
        rw [← htc, ← htd]
        exact congrArg Prod.fst heq
      apply hcd
      apply h.agreed.apart c d hc.temp
      · simp [hptc, ClientPoint.objects, Handles.objects]
      · simp [hptd, ClientPoint.objects, Handles.objects, hsame]
    have hapart := (h.linked (hkept c) (hmade c)).2.2 _ (hmade d) htemp
    constructor
    · rw [← (hlinked c).clientId, ← (hlinked d).clientId]
      exact hapart.clientId
    · rw [← (hlinked c).to_from, ← (hlinked d).to_from, ← (hlinked d).from_to]
      exact ⟨hapart.asyncFrom.2, hapart.asyncFrom.1⟩
    · rw [← (hlinked c).from_to, ← (hlinked d).to_from, ← (hlinked d).from_to]
      exact ⟨hapart.asyncTo.2, hapart.asyncTo.1⟩
    · -- the pages are objects of the clients
      intro p hp hp'
      obtain ⟨hc, idc, hptc, hconnc, -⟩ := h.kept_handles (hkept c)
      obtain ⟨hd, idd, hptd, hconnd, -⟩ := h.kept_handles (hkept d)
      rw [hconnc] at hp
      rw [hconnd] at hp'
      refine hcd (h.agreed.apart c d p ?_ ?_)
      · rw [hptc, ← Option.some.inj hp]
        simp [ClientPoint.objects, Handles.objects]
      · rw [hptd, ← Option.some.inj hp']
        simp [ClientPoint.objects, Handles.objects]
  · refine ⟨_, h.agreed.connects, ?_, ?_, ?_⟩
    · intro c
      rw [← (hlinked c).clientId]
      exact List.mem_map_of_mem (hmade c)
    · rw [List.map_map]
      exact h.agreed.numbers
    · intro x hx y hy
      obtain ⟨a, ha, rfl⟩ := List.mem_map.1 hx
      obtain ⟨b, hb, rfl⟩ := List.mem_map.1 hy
      exact hfit a ha b hb

/-- The server waits for a message, and a notification makes it look for the request. -/
theorem Connected.serverTurn_free (h : Connected port srv conn record)
    (calloc : Allocator AndNode) (msg : Message) (log : List (Ptr × Message × Message)) :
    ∃ next, serverTurn calloc port ⟨srv, .free, log⟩ msg = .receive port next ∧
      ∀ c, next (notification (conn c)) = looking (conn c) srv (record c) log := by
  refine ⟨_, rfl, fun c => ?_⟩
  have hdata : (notification (conn c)).data 0 = (conn c).clientId := rfl
  have htype : (notification (conn c)).type = .newMessage := rfl
  simp only [Proc.bind, htype, hdata, handleNewMessage, h.find c, if_neg (h.record_ne_null c),
    h.asyncFrom_record c, Proc.bind_eq, Proc.pure_eq]
  rfl

end Connected

/-! ## Where a request is -/

/-- What the server does about a client: nothing, or it looks for the request, has it in hand, or
has a response in hand. -/
inductive View where
  | away
  | looking
  | holding (request : Message)
  | responding (response : Message)

/-- A client, its program, the queues to and from the server, what the server does about it, and the
requests of the client that the server has decided about. -/
inductive Request (conn : Conn) : ClientState → Option (Program ClientState) → List Message →
    List Message → View → List (Message × Message) → Prop
  | idle (asked : Option Message) (log : List (Message × Message)) :
      Request conn ⟨asked, log⟩ none [] [] .away log
  | making (request : Message) (log : List (Message × Message)) :
      Request conn ⟨none, log⟩ (some (.ret ⟨some request, log⟩)) [] [] .away log
  | posting (request : Message) (log : List (Message × Message)) :
      Request conn ⟨some request, log⟩
        (some (.post conn.asyncTo request (notifying conn log request))) [] [] .away log
  | posted (request : Message) (log : List (Message × Message)) :
      Request conn ⟨some request, log⟩ (some (notifying conn log request)) [request] [] .away log
  | looked (request : Message) (log : List (Message × Message)) :
      Request conn ⟨some request, log⟩ (some (waiting conn log request)) [request] [] .looking log
  | held (request : Message) (log : List (Message × Message)) :
      Request conn ⟨some request, log⟩ (some (waiting conn log request)) [] [] (.holding request)
        log
  | decided (request response : Message) (log : List (Message × Message)) :
      Request conn ⟨some request, log⟩ (some (waiting conn log request)) [] []
        (.responding response) (log ++ [(request, response)])
  | replied (request response : Message) (log : List (Message × Message)) :
      Request conn ⟨some request, log⟩ (some (waiting conn log request)) [] [response] .away
        (log ++ [(request, response)])
  | done (request response : Message) (log : List (Message × Message)) :
      Request conn ⟨some request, log⟩ (some (answered log request (some response))) [] [] .away
        (log ++ [(request, response)])

/-- The program of the server, and the client that it is about. -/
inductive Serving {ι : Type} (calloc : Allocator AndNode) (port : ℕ) (srv : ConnServer)
    (conn : ι → Conn) (record : ι → Ptr) :
    ServerState → Option (Program ServerState) → Option (ι × View) → Prop
  | free (log : List (Ptr × Message × Message)) :
      Serving calloc port srv conn record ⟨srv, .free, log⟩ none none
  | listening (msg : Message) (log : List (Ptr × Message × Message)) :
      Serving calloc port srv conn record ⟨srv, .free, log⟩
        (some (serverTurn calloc port ⟨srv, .free, log⟩ msg)) none
  | looking (c : ι) (log : List (Ptr × Message × Message)) :
      Serving calloc port srv conn record ⟨srv, .free, log⟩
        (some (looking (conn c) srv (record c) log)) (some (c, .looking))
  | found (c : ι) (request : Message) (log : List (Ptr × Message × Message)) :
      Serving calloc port srv conn record ⟨srv, .free, log⟩
        (some (.ret ⟨srv, .returned (record c) request, log⟩)) (some (c, .holding request))
  | returned (c : ι) (request : Message) (log : List (Ptr × Message × Message)) :
      Serving calloc port srv conn record ⟨srv, .returned (record c) request, log⟩ none
        (some (c, .holding request))
  | deciding (c : ι) (request response : Message) (log : List (Ptr × Message × Message)) :
      Serving calloc port srv conn record ⟨srv, .returned (record c) request, log⟩
        (some (.ret ⟨srv, .decided (record c) response, log ++ [(record c, request, response)]⟩))
        (some (c, .holding request))
  | decided (c : ι) (response : Message) (log : List (Ptr × Message × Message)) :
      Serving calloc port srv conn record ⟨srv, .decided (record c) response, log⟩ none
        (some (c, .responding response))
  | answering (c : ι) (response : Message) (log : List (Ptr × Message × Message)) :
      Serving calloc port srv conn record ⟨srv, .decided (record c) response, log⟩
        (some (.post (conn c).asyncFrom response (.ret ⟨srv, .free, log⟩)))
        (some (c, .responding response))
  | answered (c : ι) (response : Message) (log : List (Ptr × Message × Message)) :
      Serving calloc port srv conn record ⟨srv, .decided (record c) response, log⟩
        (some (.ret ⟨srv, .free, log⟩)) none

/-! ### Inversions -/

section Inversions

variable {cn : Conn} {st : ClientState} {x : Program ClientState} {qto qfrom : List Message}
  {v : View} {decided : List (Message × Message)}

/-- A client that sends notifies the server. -/
theorem Request.of_send {e : ℕ} {msg : Message}
    (h : Request cn st (some (.send e msg x)) qto qfrom v decided) :
    ∃ request log, st = ⟨some request, log⟩ ∧ e = cn.serverPort ∧ msg = notification cn ∧
      x = waiting cn log request ∧ qto = [request] ∧ qfrom = [] ∧ v = .away ∧ decided = log := by
  cases h
  exact ⟨_, _, rfl, rfl, rfl, rfl, rfl, rfl, rfl, rfl⟩

/-- A client that posts has made its request. -/
theorem Request.of_post {e : ℕ} {msg : Message}
    (h : Request cn st (some (.post e msg x)) qto qfrom v decided) :
    ∃ log, st = ⟨some msg, log⟩ ∧ e = cn.asyncTo ∧ x = notifying cn log msg ∧ qto = [] ∧
      qfrom = [] ∧ v = .away ∧ decided = log := by
  cases h
  exact ⟨_, rfl, rfl, rfl, rfl, rfl, rfl, rfl⟩

/-- A client that polls waits for its response. -/
theorem Request.of_poll {e : ℕ} {block : Bool} {next : Option Message → Program ClientState}
    (h : Request cn st (some (.poll e block next)) qto qfrom v decided) :
    ∃ request log, st = ⟨some request, log⟩ ∧ e = cn.asyncFrom ∧ block = true ∧
      next = answered log request ∧
      (qfrom = [] ∨ ∃ response, qfrom = [response] ∧ qto = [] ∧ v = .away ∧
        decided = log ++ [(request, response)]) := by
  cases h with
  | looked => exact ⟨_, _, rfl, rfl, rfl, rfl, .inl rfl⟩
  | held => exact ⟨_, _, rfl, rfl, rfl, rfl, .inl rfl⟩
  | decided => exact ⟨_, _, rfl, rfl, rfl, rfl, .inl rfl⟩
  | replied => exact ⟨_, _, rfl, rfl, rfl, rfl, .inr ⟨_, rfl, rfl, rfl, rfl⟩⟩

/-- A client that returns has made a request or got a response, and has nothing under way. -/
theorem Request.of_ret {st' : ClientState}
    (h : Request cn st (some (.ret st')) qto qfrom v decided) :
    qto = [] ∧ qfrom = [] ∧ v = .away ∧ decided = st'.log := by
  cases h <;> exact ⟨rfl, rfl, rfl, rfl⟩

/-- A client does nothing else. -/
theorem Request.ne (h : Request cn st (some x) qto qfrom v decided) :
    (∀ e next, x ≠ .receive e next) ∧ (∀ kind next, x ≠ .fresh kind next) ∧
      ∀ next, x ≠ .test next := by
  cases h <;> simp [notifying, waiting, answered]

theorem Request.of_looking {prog : Option (Program ClientState)}
    (h : Request cn st prog qto qfrom .looking decided) :
    ∃ request log, st = ⟨some request, log⟩ ∧ prog = some (waiting cn log request) ∧
      qto = [request] ∧ qfrom = [] ∧ decided = log := by
  cases h
  exact ⟨_, _, rfl, rfl, rfl, rfl, rfl⟩

theorem Request.of_holding {request : Message} {prog : Option (Program ClientState)}
    (h : Request cn st prog qto qfrom (.holding request) decided) :
    ∃ log, st = ⟨some request, log⟩ ∧ prog = some (waiting cn log request) ∧ qto = [] ∧
      qfrom = [] ∧ decided = log := by
  cases h
  exact ⟨_, rfl, rfl, rfl, rfl, rfl⟩

theorem Request.of_responding {response : Message} {prog : Option (Program ClientState)}
    (h : Request cn st prog qto qfrom (.responding response) decided) :
    ∃ request log, st = ⟨some request, log⟩ ∧ prog = some (waiting cn log request) ∧ qto = [] ∧
      qfrom = [] ∧ decided = log ++ [(request, response)] := by
  cases h
  exact ⟨_, _, rfl, rfl, rfl, rfl, rfl⟩

/-- A client that waits has its response when the server has nothing of it and no message. -/
theorem Request.of_waiting {log : List (Message × Message)} {request : Message}
    (h : Request cn st (some (waiting cn log request)) qto qfrom .away decided) :
    ∃ response, qfrom = [response] := by
  generalize hprog : some (waiting cn log request) = prog at h
  cases h with
  | replied _ response => exact ⟨response, rfl⟩
  | _ => cases hprog

/-- The places of a request that the application of a client has made. -/
theorem Request.of_asked {prog : Option (Program ClientState)} {log : List (Message × Message)}
    {request : Message} (h : Request cn ⟨some request, log⟩ prog qto qfrom v decided) :
    prog = none ∨ prog = some (.post cn.asyncTo request (notifying cn log request)) ∨
      prog = some (notifying cn log request) ∨ prog = some (waiting cn log request) ∨
      ∃ response, prog = some (answered log request (some response)) := by
  cases h with
  | idle => exact .inl rfl
  | posting => exact .inr (.inl rfl)
  | posted => exact .inr (.inr (.inl rfl))
  | done _ response => exact .inr (.inr (.inr (.inr ⟨response, rfl⟩)))
  | _ => exact .inr (.inr (.inr (.inl rfl)))

/-- A turn of a client begins. -/
theorem Request.start (h : Request cn st none qto qfrom v decided) (msg : Message) :
    Request cn st (some (clientTurn cn st msg)) qto qfrom v decided := by
  cases h with
  | idle asked =>
    cases asked with
    | none => exact .making msg _
    | some request =>
      rw [clientTurn_asked]
      exact .posting request _

end Inversions

section ServingInversions

variable {ι : Type} {calloc : Allocator AndNode} {port : ℕ} {srv : ConnServer} {conn : ι → Conn}
  {record : ι → Ptr} {st : ServerState} {focus : Option (ι × View)}

/-- The server receives between the requests. -/
theorem Serving.of_receive (hconn : Connected port srv conn record) {e : ℕ}
    {next : Message → Program ServerState}
    (h : Serving calloc port srv conn record st (some (.receive e next)) focus) :
    ∃ log, st = ⟨srv, .free, log⟩ ∧ focus = none ∧ e = port ∧
      ∀ c, next (notification (conn c)) = Requests.looking (conn c) srv (record c) log := by
  generalize hprog : some (Proc.receive e next) = prog at h
  cases h with
  | listening msg log =>
    obtain ⟨next', hnext, hlooking⟩ := hconn.serverTurn_free calloc msg log
    rw [hnext] at hprog
    cases hprog
    exact ⟨log, rfl, rfl, rfl, hlooking⟩
  | _ => cases hprog

theorem Serving.focus_of_listening (hconn : Connected port srv conn record) {msg : Message}
    {log : List (Ptr × Message × Message)}
    (h : Serving calloc port srv conn record st
      (some (serverTurn calloc port ⟨srv, .free, log⟩ msg)) focus) : focus = none := by
  obtain ⟨next, hnext, -⟩ := hconn.serverTurn_free calloc msg log
  rw [hnext] at h
  obtain ⟨-, -, hfocus, -⟩ := h.of_receive hconn
  exact hfocus

/-- The server posts a response. -/
theorem Serving.of_post (hconn : Connected port srv conn record) {e : ℕ} {msg : Message}
    {next : Program ServerState}
    (h : Serving calloc port srv conn record st (some (.post e msg next)) focus) :
    ∃ c log, st = ⟨srv, .decided (record c) msg, log⟩ ∧ focus = some (c, .responding msg) ∧
      e = (conn c).asyncFrom ∧ next = .ret ⟨srv, .free, log⟩ := by
  generalize hprog : some (Proc.post e msg next) = prog at h
  cases h with
  | listening msg log =>
    obtain ⟨next', hnext, -⟩ := hconn.serverTurn_free calloc msg log
    rw [hnext] at hprog
    cases hprog
  | answering c response log =>
    cases hprog
    exact ⟨c, log, rfl, rfl, rfl, rfl⟩
  | _ => cases hprog

/-- The server polls for the request of a client. -/
theorem Serving.of_poll (hconn : Connected port srv conn record) {e : ℕ} {block : Bool}
    {next : Option Message → Program ServerState}
    (h : Serving calloc port srv conn record st (some (.poll e block next)) focus) :
    ∃ c log, st = ⟨srv, .free, log⟩ ∧ focus = some (c, .looking) ∧ e = (conn c).asyncTo ∧
      ∀ request, next (some request) = .ret ⟨srv, .returned (record c) request, log⟩ := by
  generalize hprog : some (Proc.poll e block next) = prog at h
  cases h with
  | listening msg log =>
    obtain ⟨next', hnext, -⟩ := hconn.serverTurn_free calloc msg log
    rw [hnext] at hprog
    cases hprog
  | looking c log =>
    cases hprog
    exact ⟨c, log, rfl, rfl, rfl, fun _ => rfl⟩
  | _ => cases hprog

/-- The server returns, and has decided about a request or is still about the same client. -/
theorem Serving.of_ret (hconn : Connected port srv conn record) {st' : ServerState}
    (h : Serving calloc port srv conn record st (some (.ret st')) focus) :
    (Serving calloc port srv conn record st' none focus ∧ st'.log = st.log) ∨
      ∃ c request response, focus = some (c, .holding request) ∧
        st' = ⟨srv, .decided (record c) response, st.log ++ [(record c, request, response)]⟩ := by
  generalize hprog : some (Proc.ret st') = prog at h
  cases h with
  | listening msg log =>
    obtain ⟨next', hnext, -⟩ := hconn.serverTurn_free calloc msg log
    rw [hnext] at hprog
    cases hprog
  | found c request log =>
    cases hprog
    exact .inl ⟨.returned c request log, rfl⟩
  | deciding c request response log =>
    cases hprog
    exact .inr ⟨c, request, response, rfl, rfl⟩
  | answered c response log =>
    cases hprog
    exact .inl ⟨.free log, rfl⟩
  | _ => cases hprog

/-- A turn of the server begins. -/
theorem Serving.start (hconn : Connected port srv conn record)
    (h : Serving calloc port srv conn record st none focus) (msg : Message) :
    Serving calloc port srv conn record st (some (serverTurn calloc port st msg)) focus := by
  cases h with
  | free log => exact .listening msg log
  | returned c request log => exact .deciding c request msg log
  | decided c response log =>
    rw [serverTurn_decided, hconn.asyncTo_record c]
    exact .answering c response log

/-- The server does nothing else. -/
theorem Serving.ne (hconn : Connected port srv conn record) {prog : Program ServerState}
    (h : Serving calloc port srv conn record st (some prog) focus) :
    (∀ e msg next, prog ≠ .send e msg next) ∧ (∀ kind next, prog ≠ .fresh kind next) ∧
      ∀ next, prog ≠ .test next := by
  generalize hprog : some prog = prog' at h
  cases h with
  | listening msg log =>
    obtain ⟨next', hnext, -⟩ := hconn.serverTurn_free calloc msg log
    rw [hnext] at hprog
    cases hprog
    simp
  | free => cases hprog
  | returned => cases hprog
  | decided => cases hprog
  | _ =>
    cases hprog
    simp [Requests.looking]

end ServingInversions

end C4OS.Connman.Requests
