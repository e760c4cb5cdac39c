import C4OS.Connman.Requests

/-!
# The service of connected clients

The programs of the clients and of the server are at places that fit together (`Inv`), and each step
of the system keeps this. So a notification finds the message of its client, the server returns it
with the record of this client, and the response goes to the client that waits for it.

`requests_served` is the result about all states of all runs of the system.
-/

namespace C4OS.Connman.Requests

open Foundations Andtree Handshake

/-- What the server does about one of the clients. -/
def viewOf {ι : Type} [DecidableEq ι] (focus : Option (ι × View)) (c : ι) : View :=
  match focus with
  | none => .away
  | some (d, v) => if d = c then v else .away

/-- The requests of a record that were decided about, with their responses. -/
def decidedFor (ptr : Ptr) (log : List (Ptr × Message × Message)) : List (Message × Message) :=
  (log.filter (·.1 = ptr)).map Prod.snd

theorem decidedFor_append (ptr : Ptr) (log new : List (Ptr × Message × Message)) :
    decidedFor ptr (log ++ new) = decidedFor ptr log ++ decidedFor ptr new := by
  rw [decidedFor, List.filter_append, List.map_append]
  rfl

theorem decidedFor_of_ne {ptr : Ptr} {log : List (Ptr × Message × Message)}
    (h : ∀ a ∈ log, a.1 ≠ ptr) : decidedFor ptr log = [] := by
  unfold decidedFor
  rw [List.filter_eq_nil_iff.2 fun a ha => by simpa using h a ha]
  rfl

section Views

variable {ι : Type} [DecidableEq ι] {c d : ι} {v : View}

@[simp] theorem viewOf_none : viewOf none c = .away := rfl

@[simp] theorem viewOf_self : viewOf (some (c, v)) c = v := if_pos rfl

theorem viewOf_of_ne (h : d ≠ c) : viewOf (some (c, v)) d = .away := if_neg h.symm

end Views

/-! ## The steps -/

section Steps

variable {ι : Type} [DecidableEq ι] {calloc : Allocator AndNode} {port : ℕ} {srv : ConnServer}
  {conn : ι → Conn} {record : ι → Ptr}

/-- Each request is at one of its places. -/
structure Inv (calloc : Allocator AndNode) (port : ℕ) (srv : ConnServer) (conn : ι → Conn)
    (record : ι → Ptr) (s : System (Option ι) Message Fresh (State ι))
    (focus : Option (ι × View)) : Prop where
  serving : Serving calloc port srv conn record (s.state none) (s.proc none) focus
  known : ∀ a ∈ (s.state none).log, ∃ c, a.1 = record c
  request : ∀ c, Request (conn c) (s.state (some c)) (s.proc (some c)) (s.queue (conn c).asyncTo)
    (s.queue (conn c).asyncFrom) (viewOf focus c) (decidedFor (record c) (s.state none).log)

variable {s s' : System (Option ι) Message Fresh (State ι)} {focus focus' : Option (ι × View)}
  {c d : ι}

/-- The beginning. -/
theorem Inv.init : Inv calloc port srv conn record (atRest srv) none := by
  constructor
  · exact .free []
  · intro a ha
    cases ha
  · intro c
    exact .idle none []

namespace Inv

/-- A step about a client leaves the other clients. -/
theorem move (h : Inv calloc port srv conn record s focus) (hconn : Connected port srv conn record)
    (hother : ∀ d, d ≠ c → s'.state (some d) = s.state (some d) ∧
      s'.proc (some d) = s.proc (some d) ∧ viewOf focus' d = viewOf focus d)
    (hqueue : ∀ e, e ≠ (conn c).asyncTo → e ≠ (conn c).asyncFrom → s'.queue e = s.queue e)
    (hlog : ∃ new, (s'.state none).log = (s.state none).log ++ new ∧ ∀ a ∈ new, a.1 = record c)
    (hserving : Serving calloc port srv conn record (s'.state none) (s'.proc none) focus')
    (hrequest : Request (conn c) (s'.state (some c)) (s'.proc (some c))
      (s'.queue (conn c).asyncTo) (s'.queue (conn c).asyncFrom) (viewOf focus' c)
      (decidedFor (record c) (s'.state none).log)) :
    Inv calloc port srv conn record s' focus' := by
  obtain ⟨new, hlog, hnew⟩ := hlog
  constructor
  · exact hserving
  · intro a ha
    rw [hlog, List.mem_append] at ha
    rcases ha with ha | ha
    · exact h.known a ha
    · exact ⟨c, hnew a ha⟩
  · intro d
    rcases eq_or_ne d c with rfl | hne
    · exact hrequest
    · obtain ⟨hstate, hproc, hview⟩ := hother d hne
      have hapart := hconn.apart d c hne
      have hrest : decidedFor (record d) new = [] := by
        apply decidedFor_of_ne
        intro a ha heq
        exact hne (hconn.record_inj (heq.symm.trans (hnew a ha)))
      rw [hstate, hproc, hview, hlog, decidedFor_append, hrest, List.append_nil,
        hqueue _ hapart.asyncTo.1 hapart.asyncTo.2, hqueue _ hapart.asyncFrom.1 hapart.asyncFrom.2]
      exact h.request d

/-- A client does something, and the server and the queues stay. -/
theorem move_client (h : Inv calloc port srv conn record s focus)
    (hconn : Connected port srv conn record) (hserver : s'.state none = s.state none)
    (hserving : s'.proc none = s.proc none)
    (hother : ∀ d, d ≠ c → s'.state (some d) = s.state (some d) ∧
      s'.proc (some d) = s.proc (some d))
    (hqueue : ∀ e, e ≠ (conn c).asyncTo → e ≠ (conn c).asyncFrom → s'.queue e = s.queue e)
    (hrequest : Request (conn c) (s'.state (some c)) (s'.proc (some c))
      (s'.queue (conn c).asyncTo) (s'.queue (conn c).asyncFrom) (viewOf focus c)
      (decidedFor (record c) (s.state none).log)) :
    Inv calloc port srv conn record s' focus := by
  apply h.move hconn
  · intro d hne
    exact ⟨(hother d hne).1, (hother d hne).2, rfl⟩
  · exact hqueue
  · exact ⟨[], by rw [hserver, List.append_nil], by simp⟩
  · rw [hserver, hserving]
    exact h.serving
  · rw [hserver]
    exact hrequest

/-- The server does something about a client, that the client does not see. -/
theorem move_server (h : Inv calloc port srv conn record s focus)
    (hconn : Connected port srv conn record)
    (hstate : ∀ d, s'.state (some d) = s.state (some d))
    (hproc : ∀ d, s'.proc (some d) = s.proc (some d))
    (hview : ∀ d, d ≠ c → viewOf focus' d = viewOf focus d)
    (hqueue : ∀ e, e ≠ (conn c).asyncTo → e ≠ (conn c).asyncFrom → s'.queue e = s.queue e)
    (hlog : ∃ new, (s'.state none).log = (s.state none).log ++ new ∧ ∀ a ∈ new, a.1 = record c)
    (hserving : Serving calloc port srv conn record (s'.state none) (s'.proc none) focus')
    (hrequest : Request (conn c) (s.state (some c)) (s.proc (some c))
      (s'.queue (conn c).asyncTo) (s'.queue (conn c).asyncFrom) (viewOf focus' c)
      (decidedFor (record c) (s'.state none).log)) :
    Inv calloc port srv conn record s' focus' := by
  apply h.move hconn _ hqueue hlog hserving
  · rw [hstate, hproc]
    exact hrequest
  · intro d hne
    exact ⟨hstate d, hproc d, hview d hne⟩

omit [DecidableEq ι] in
/-- The server does something that no client sees. -/
theorem stay_server [DecidableEq ι] (h : Inv calloc port srv conn record s focus)
    (hstate : ∀ d, s'.state (some d) = s.state (some d))
    (hproc : ∀ d, s'.proc (some d) = s.proc (some d)) (hqueue : s'.queue = s.queue)
    (hlog : (s'.state none).log = (s.state none).log)
    (hserving : Serving calloc port srv conn record (s'.state none) (s'.proc none) focus) :
    Inv calloc port srv conn record s' focus := by
  constructor
  · exact hserving
  · rw [hlog]
    exact h.known
  · intro d
    rw [hstate, hproc, hqueue, hlog]
    exact h.request d

/-- A client posts its request. -/
theorem post_client (h : Inv calloc port srv conn record s focus)
    (hconn : Connected port srv conn record) {e : ℕ} {msg : Message} {next : Program ClientState}
    (hp : s.proc (some c) = some (.post e msg next)) :
    Inv calloc port srv conn record
      ((s.setProc (some c) (some next)).setQueue e (s.queue e ++ [msg])) focus := by
  have hreq := h.request c
  rw [hp] at hreq
  obtain ⟨log, hst, rfl, rfl, hto, hfrom, hview, hdecided⟩ := hreq.of_post
  refine h.move_client (c := c) hconn rfl ?_ ?_ ?_ ?_
  · rw [System.setQueue_proc, System.setProc_of_ne (by simp)]
  · intro d hne
    rw [System.setQueue_proc, System.setProc_of_ne (by simpa using hne)]
    exact ⟨rfl, rfl⟩
  · intro e he _
    exact System.setQueue_of_ne he
  · rw [System.setQueue_self, System.setQueue_of_ne (hconn.to_ne_from c).symm,
      System.setQueue_proc, System.setProc_self, System.setQueue_state, System.setProc_state,
      System.setProc_queue, hst, hto, hfrom, hview, hdecided]
    exact .posted msg log

/-- The server gets the notification of a client. -/
theorem notify (h : Inv calloc port srv conn record s focus)
    (hconn : Connected port srv conn record) {e : ℕ} {msg : Message} {next : Program ClientState}
    {next' : Message → Program ServerState} (hp : s.proc (some c) = some (.send e msg next))
    (hq : s.proc none = some (.receive e next')) :
    Inv calloc port srv conn record
      ((s.setProc (some c) (some next)).setProc none (some (next' msg)))
      (some (c, .looking)) := by
  have hreq := h.request c
  rw [hp] at hreq
  obtain ⟨request, log, hst, -, rfl, rfl, hto, hfrom, -, hdecided⟩ := hreq.of_send
  have hserving := h.serving
  rw [hq] at hserving
  obtain ⟨slog, hsrv, rfl, -, hnext⟩ := hserving.of_receive hconn
  have hclient : ((s.setProc (some c) (some (waiting (conn c) log request))).setProc none
      (some (next' (notification (conn c))))).proc (some c) =
      some (waiting (conn c) log request) := by
    rw [System.setProc_of_ne (by simp), System.setProc_self]
  apply h.move hconn
  · intro d hne
    rw [System.setProc_of_ne (by simp), System.setProc_of_ne (by simpa using hne)]
    exact ⟨rfl, rfl, viewOf_of_ne hne⟩
  · exact fun _ _ _ => rfl
  · exact ⟨[], by simp, by simp⟩
  · rw [System.setProc_self, hnext c]
    show Serving calloc port srv conn record (s.state none) _ _
    rw [hsrv]
    exact .looking c slog
  · rw [hclient, viewOf_self]
    show Request (conn c) (s.state (some c)) _ (s.queue _) (s.queue _) _
      (decidedFor (record c) (s.state none).log)
    rw [hst, hto, hfrom, hdecided]
    exact .looked request log

/-- A client gets its response. -/
theorem poll_client (h : Inv calloc port srv conn record s focus)
    (hconn : Connected port srv conn record) {e : ℕ} {block : Bool} {msg : Message}
    {rest : List Message} {next : Option Message → Program ClientState}
    (hp : s.proc (some c) = some (.poll e block next)) (hq : s.queue e = msg :: rest) :
    Inv calloc port srv conn record
      ((s.setProc (some c) (some (next (some msg)))).setQueue e rest) focus := by
  have hreq := h.request c
  rw [hp] at hreq
  obtain ⟨request, log, hst, rfl, -, rfl, hempty | ⟨response, hfrom, hto, hview, hdecided⟩⟩ :=
    hreq.of_poll
  · rw [hempty] at hq
    cases hq
  rw [hfrom] at hq
  cases hq
  refine h.move_client (c := c) hconn rfl ?_ ?_ ?_ ?_
  · rw [System.setQueue_proc, System.setProc_of_ne (by simp)]
  · intro d hne
    rw [System.setQueue_proc, System.setProc_of_ne (by simpa using hne)]
    exact ⟨rfl, rfl⟩
  · intro e _ he
    exact System.setQueue_of_ne he
  · rw [System.setQueue_self, System.setQueue_of_ne (hconn.to_ne_from c), System.setQueue_proc,
      System.setProc_self, System.setQueue_state, System.setProc_state, System.setProc_queue, hst,
      hto, hview, hdecided]
    exact .done request msg log

/-- The server finds the request of a client. -/
theorem poll_server (h : Inv calloc port srv conn record s focus)
    (hconn : Connected port srv conn record) {e : ℕ} {block : Bool} {msg : Message}
    {rest : List Message} {next : Option Message → Program ServerState}
    (hp : s.proc none = some (.poll e block next)) (hq : s.queue e = msg :: rest) :
    ∃ focus', Inv calloc port srv conn record
      ((s.setProc none (some (next (some msg)))).setQueue e rest) focus' := by
  have hserving := h.serving
  rw [hp] at hserving
  obtain ⟨c, slog, hsrv, rfl, rfl, hnext⟩ := hserving.of_poll hconn
  have hreq := h.request c
  rw [viewOf_self] at hreq
  obtain ⟨request, log, hst, hprog, hto, hfrom, hdecided⟩ := hreq.of_looking
  rw [hto] at hq
  cases hq
  refine ⟨some (c, .holding msg), h.move_server (c := c) hconn (fun _ => rfl) ?_ ?_ ?_ ?_ ?_ ?_⟩
  · intro d
    rw [System.setQueue_proc, System.setProc_of_ne (by simp)]
  · intro d hne
    rw [viewOf_of_ne hne, viewOf_of_ne hne]
  · intro e he _
    exact System.setQueue_of_ne he
  · exact ⟨[], by simp, by simp⟩
  · rw [System.setQueue_proc, System.setProc_self, hnext]
    show Serving calloc port srv conn record (s.state none) _ _
    rw [hsrv]
    exact .found c msg slog
  · rw [System.setQueue_self, System.setQueue_of_ne (hconn.to_ne_from c).symm, viewOf_self]
    show Request (conn c) _ _ [] (s.queue _) _ (decidedFor (record c) (s.state none).log)
    rw [hst, hprog, hfrom, hdecided]
    exact .held msg log

/-- The server posts a response. -/
theorem post_server (h : Inv calloc port srv conn record s focus)
    (hconn : Connected port srv conn record) {e : ℕ} {msg : Message} {next : Program ServerState}
    (hp : s.proc none = some (.post e msg next)) :
    ∃ focus', Inv calloc port srv conn record
      ((s.setProc none (some next)).setQueue e (s.queue e ++ [msg])) focus' := by
  have hserving := h.serving
  rw [hp] at hserving
  obtain ⟨c, slog, hsrv, rfl, rfl, rfl⟩ := hserving.of_post hconn
  have hreq := h.request c
  rw [viewOf_self] at hreq
  obtain ⟨request, log, hst, hprog, hto, hfrom, hdecided⟩ := hreq.of_responding
  refine ⟨none, h.move_server (c := c) hconn (fun _ => rfl) ?_ ?_ ?_ ?_ ?_ ?_⟩
  · intro d
    rw [System.setQueue_proc, System.setProc_of_ne (by simp)]
  · intro d hne
    rw [viewOf_of_ne hne, viewOf_none]
  · intro e _ he
    exact System.setQueue_of_ne he
  · exact ⟨[], by simp, by simp⟩
  · rw [System.setQueue_proc, System.setProc_self]
    show Serving calloc port srv conn record (s.state none) _ _
    rw [hsrv]
    exact .answered c msg slog
  · rw [System.setQueue_self, System.setQueue_of_ne (hconn.to_ne_from c), viewOf_none,
      System.setProc_queue, hfrom]
    show Request (conn c) _ _ (s.queue _) _ _ (decidedFor (record c) (s.state none).log)
    rw [hst, hprog, hto, hdecided]
    exact .replied request msg log

/-- A client ends its turn. -/
theorem finish_client (h : Inv calloc port srv conn record s focus)
    (hconn : Connected port srv conn record) {a : ClientState}
    (hp : s.proc (some c) = some (.ret a)) :
    Inv calloc port srv conn record (s.finish (some c) a) focus := by
  have hreq := h.request c
  rw [hp] at hreq
  obtain ⟨hto, hfrom, hview, hdecided⟩ := hreq.of_ret
  refine h.move_client (c := c) hconn ?_ ?_ ?_ ?_ ?_
  · exact System.finish_state_of_ne (by simp)
  · exact System.finish_proc_of_ne (by simp)
  · intro d hne
    exact ⟨System.finish_state_of_ne (by simpa using hne),
      System.finish_proc_of_ne (by simpa using hne)⟩
  · exact fun _ _ _ => rfl
  · rw [System.finish_state_self, System.finish_proc_self, System.finish_queue, hto, hfrom, hview,
      hdecided]
    exact .idle a.asked a.log

/-- The server ends its turn. -/
theorem finish_server (h : Inv calloc port srv conn record s focus)
    (hconn : Connected port srv conn record) {a : ServerState} (hp : s.proc none = some (.ret a)) :
    ∃ focus', Inv calloc port srv conn record (s.finish none a) focus' := by
  have hserving := h.serving
  rw [hp] at hserving
  have hstate (d : ι) : (s.finish none a).state (some d) = s.state (some d) :=
    System.finish_state_of_ne (by simp)
  have hproc (d : ι) : (s.finish none a).proc (some d) = s.proc (some d) :=
    System.finish_proc_of_ne (by simp)
  rcases hserving.of_ret hconn with ⟨hserving, hlog⟩ | ⟨c, request, response, rfl, rfl⟩
  · refine ⟨focus, h.stay_server hstate hproc rfl ?_ ?_⟩
    · rw [System.finish_state_self]
      exact hlog
    · rw [System.finish_state_self, System.finish_proc_self]
      exact hserving
  · have hreq := h.request c
    rw [viewOf_self] at hreq
    obtain ⟨log, hst, hprog, hto, hfrom, hdecided⟩ := hreq.of_holding
    refine ⟨some (c, .responding response),
      h.move_server (c := c) hconn hstate hproc ?_ ?_ ?_ ?_ ?_⟩
    · intro d hne
      rw [viewOf_of_ne hne, viewOf_of_ne hne]
    · exact fun _ _ _ => rfl
    · rw [System.finish_state_self]
      exact ⟨_, rfl, by simp⟩
    · rw [System.finish_state_self, System.finish_proc_self]
      exact .decided c response _
    · have hnew : decidedFor (record c) [(record c, request, response)] =
          [(request, response)] := by simp [decidedFor]
      rw [System.finish_state_self, System.finish_queue, viewOf_self, decidedFor_append, hnew, hst,
        hprog, hto, hfrom, hdecided]
      exact .decided request response log

/-- A turn begins. -/
theorem start (h : Inv calloc port srv conn record s focus)
    (hconn : Connected port srv conn record) {p : Option ι} (msg : Message) (hp : s.proc p = none) :
    Inv calloc port srv conn record
      (s.setProc p (some (turn conn calloc port p (s.state p) msg))) focus := by
  cases p with
  | none =>
    refine h.stay_server (fun _ => rfl) ?_ rfl rfl ?_
    · exact fun d => System.setProc_of_ne (by simp)
    · have hserving := h.serving
      rw [hp] at hserving
      rw [System.setProc_self]
      exact hserving.start hconn msg
  | some c =>
    have hreq := h.request c
    rw [hp] at hreq
    refine h.move_client (c := c) hconn rfl ?_ ?_ ?_ ?_
    · exact System.setProc_of_ne (by simp)
    · intro d hne
      exact ⟨rfl, System.setProc_of_ne (by simpa using hne)⟩
    · exact fun _ _ _ => rfl
    · rw [System.setProc_self]
      exact hreq.start msg

/-- The server never polls an empty queue. -/
theorem poll_ne_nil (h : Inv calloc port srv conn record s focus)
    (hconn : Connected port srv conn record) {e : ℕ} {block : Bool}
    {next : Option Message → Program ServerState}
    (hp : s.proc none = some (.poll e block next)) : s.queue e ≠ [] := by
  have hserving := h.serving
  rw [hp] at hserving
  obtain ⟨c, slog, -, rfl, rfl, -⟩ := hserving.of_poll hconn
  have hreq := h.request c
  rw [viewOf_self] at hreq
  obtain ⟨request, log, -, -, hto, -, -⟩ := hreq.of_looking
  rw [hto]
  simp

/-- Each step keeps the places. -/
theorem step (h : Inv calloc port srv conn record s focus)
    (hconn : Connected port srv conn record)
    (hstep : System.Step legal (turn conn calloc port) s s') :
    ∃ focus', Inv calloc port srv conn record s' focus' := by
  have hclient {c : ι} {prog : Program ClientState} (hp : s.proc (some c) = some prog) :
      Request (conn c) (s.state (some c)) (some prog) (s.queue (conn c).asyncTo)
        (s.queue (conn c).asyncFrom) (viewOf focus c) (decidedFor (record c) (s.state none).log) :=
    hp ▸ h.request c
  have hserver {prog : Program ServerState} (hp : s.proc none = some prog) :
      Serving calloc port srv conn record (s.state none) (some prog) focus := hp ▸ h.serving
  cases hstep with
  | @rendezvous p q e msg next next' hne hp hq =>
    match p, q with
    | none, _ => exact absurd rfl (((hserver hp).ne hconn).1 _ _ _)
    | some c, none => exact ⟨_, h.notify hconn hp hq⟩
    | some c, some d => exact absurd rfl ((hclient hq).ne.1 _ _)
  | @post p e msg next hp =>
    cases p with
    | none => exact h.post_server hconn hp
    | some c => exact ⟨focus, h.post_client hconn hp⟩
  | @poll p e block msg rest next hp hq =>
    cases p with
    | none => exact h.poll_server hconn hp hq
    | some c => exact ⟨focus, h.poll_client hconn hp hq⟩
  | @pollNone p e next hp hq =>
    cases p with
    | none => exact absurd hq (h.poll_ne_nil hconn hp)
    | some c =>
      obtain ⟨_, _, -, -, hblock, -⟩ := (hclient hp).of_poll
      cases hblock
  | @fresh p kind next v hp hlegal hnew =>
    cases p with
    | none => exact absurd rfl (((hserver hp).ne hconn).2.1 _ _)
    | some c => exact absurd rfl ((hclient hp).ne.2.1 _ _)
  | @test p next b hp =>
    cases p with
    | none => exact absurd rfl (((hserver hp).ne hconn).2.2 _)
    | some c => exact absurd rfl ((hclient hp).ne.2.2 _)
  | @finish p a hp =>
    cases p with
    | none => exact h.finish_server hconn hp
    | some c => exact ⟨focus, h.finish_client hconn hp⟩
  | start msg hp => exact ⟨focus, h.start hconn msg hp⟩

end Inv

/-- Each state of a run has the requests at their places. -/
theorem Inv.reaches (h : Inv calloc port srv conn record s focus)
    (hconn : Connected port srv conn record)
    (hs : System.Reaches legal (turn conn calloc port) s s') :
    ∃ focus', Inv calloc port srv conn record s' focus' := by
  apply System.Reaches.induction (fun s => ∃ focus, Inv calloc port srv conn record s focus) hs
  · exact ⟨focus, h⟩
  · rintro s s' ⟨focus, h⟩ hstep
    exact h.step hconn hstep

/-! ## Progress -/

/-- The server can finish what it is about without the clients, and listens again. -/
def Drains (conn : ι → Conn) (calloc : Allocator AndNode) (port : ℕ) (srv : ConnServer)
    (s : System (Option ι) Message Fresh (State ι)) : Prop :=
  ∃ s' msg log, System.Reaches legal (turn conn calloc port) s s' ∧
    s'.proc none = some (serverTurn calloc port ⟨srv, .free, log⟩ msg) ∧
    ∀ c, s'.state (some c) = s.state (some c) ∧ s'.proc (some c) = s.proc (some c)

/-- One step of the server before the others. -/
theorem Drains.head (h : Drains conn calloc port srv s')
    (hstep : System.Step legal (turn conn calloc port) s s')
    (hstay : ∀ c, s'.state (some c) = s.state (some c) ∧ s'.proc (some c) = s.proc (some c)) :
    Drains conn calloc port srv s := by
  obtain ⟨s'', msg, log, hreach, hlistening, hsame⟩ := h
  refine ⟨s'', msg, log, .head hstep hreach, hlistening, fun c => ?_⟩
  rw [(hsame c).1, (hsame c).2]
  exact hstay c

theorem Drains.finish {a : ServerState} (hp : s.proc none = some (.ret a))
    (h : Drains conn calloc port srv (s.finish none a)) : Drains conn calloc port srv s := by
  apply h.head (.finish hp)
  intro c
  exact ⟨System.finish_state_of_ne (by simp), System.finish_proc_of_ne (by simp)⟩

theorem Drains.start (msg : Message) (hp : s.proc none = none)
    (h : Drains conn calloc port srv
      (s.setProc none (some (serverTurn calloc port (s.state none) msg)))) :
    Drains conn calloc port srv s := by
  apply h.head (.start msg hp)
  intro c
  exact ⟨rfl, System.setProc_of_ne (by simp)⟩

/-- Between the requests the server listens at once. -/
theorem drains_free {log : List (Ptr × Message × Message)} (hp : s.proc none = none)
    (hs : s.state none = ⟨srv, .free, log⟩) (msg : Message) : Drains conn calloc port srv s := by
  apply Drains.start msg hp
  refine ⟨_, msg, log, .refl, ?_, fun c => ⟨rfl, rfl⟩⟩
  rw [System.setProc_self, hs]

theorem drains_answered {log : List (Ptr × Message × Message)}
    (hp : s.proc none = some (.ret ⟨srv, .free, log⟩)) (msg : Message) :
    Drains conn calloc port srv s := by
  apply Drains.finish hp
  exact drains_free System.finish_proc_self System.finish_state_self msg

theorem drains_answering {e : ℕ} {response : Message} {log : List (Ptr × Message × Message)}
    (hp : s.proc none = some (.post e response (.ret ⟨srv, .free, log⟩))) :
    Drains conn calloc port srv s := by
  have hstep : System.Step legal (turn conn calloc port) s _ := .post hp
  refine Drains.head ?_ hstep ?_
  · have hret : ((s.setProc none (some (.ret ⟨srv, .free, log⟩))).setQueue e
        (s.queue e ++ [response])).proc none = some (.ret ⟨srv, .free, log⟩) := by
      rw [System.setQueue_proc, System.setProc_self]
    exact drains_answered hret response
  · intro c
    rw [System.setQueue_proc, System.setProc_of_ne (by simp)]
    exact ⟨rfl, rfl⟩

theorem drains_decided {ptr : Ptr} {response : Message} {log : List (Ptr × Message × Message)}
    (hp : s.proc none = none) (hs : s.state none = ⟨srv, .decided ptr response, log⟩) :
    Drains conn calloc port srv s := by
  apply Drains.start response hp
  apply drains_answering
  rw [System.setProc_self, hs, serverTurn_decided]

theorem drains_deciding {ptr : Ptr} {response : Message} {log : List (Ptr × Message × Message)}
    (hp : s.proc none = some (.ret ⟨srv, .decided ptr response, log⟩)) :
    Drains conn calloc port srv s := by
  apply Drains.finish hp
  exact drains_decided System.finish_proc_self System.finish_state_self

/-- The application decides to answer a request with the request. -/
theorem drains_returned {ptr : Ptr} {request : Message} {log : List (Ptr × Message × Message)}
    (hp : s.proc none = none) (hs : s.state none = ⟨srv, .returned ptr request, log⟩) :
    Drains conn calloc port srv s := by
  apply Drains.start request hp
  apply drains_deciding
  rw [System.setProc_self, hs]
  rfl

theorem drains_found {ptr : Ptr} {request : Message} {log : List (Ptr × Message × Message)}
    (hp : s.proc none = some (.ret ⟨srv, .returned ptr request, log⟩)) :
    Drains conn calloc port srv s := by
  apply Drains.finish hp
  exact drains_returned System.finish_proc_self System.finish_state_self

/-- The message of a notification is there, so that the server never gets stuck. -/
theorem Inv.drains (h : Inv calloc port srv conn record s focus) (msg : Message) :
    Drains conn calloc port srv s := by
  have hserving := h.serving
  have hreq := h.request
  generalize hst : s.state none = st at hserving
  generalize hprog : s.proc none = prog at hserving
  cases hserving with
  | free log => exact drains_free hprog hst msg
  | listening msg log => exact ⟨s, msg, log, .refl, hprog, fun c => ⟨rfl, rfl⟩⟩
  | looking c log =>
    have hreq := hreq c
    rw [viewOf_self] at hreq
    obtain ⟨request, _, -, -, hto, -, -⟩ := hreq.of_looking
    have hstep : System.Step legal (turn conn calloc port) s _ := .poll hprog hto
    refine Drains.head ?_ hstep ?_
    · apply drains_found
      rw [System.setQueue_proc, System.setProc_self]
      rfl
    · intro c
      rw [System.setQueue_proc, System.setProc_of_ne (by simp)]
      exact ⟨rfl, rfl⟩
  | found => exact drains_found hprog
  | returned => exact drains_returned hprog hst
  | deciding => exact drains_deciding hprog
  | decided => exact drains_decided hprog hst
  | answering => exact drains_answering hprog
  | answered => exact drains_answered hprog msg

/-- A run goes on to a state in which a client has the response to its request. -/
def Answered (conn : ι → Conn) (calloc : Allocator AndNode) (port : ℕ) (c : ι) (request : Message)
    (log : List (Message × Message)) (s : System (Option ι) Message Fresh (State ι)) : Prop :=
  ∃ s' response, System.Reaches legal (turn conn calloc port) s s' ∧
    s'.state (some c) = ⟨none, log ++ [(request, response)]⟩

variable {request : Message} {log : List (Message × Message)}

theorem Answered.head (h : Answered conn calloc port c request log s')
    (hreach : System.Reaches legal (turn conn calloc port) s s') :
    Answered conn calloc port c request log s := by
  obtain ⟨s'', response, hreach', hstate⟩ := h
  exact ⟨s'', response, hreach.trans hreach', hstate⟩

theorem answered_done {response : Message}
    (hp : s.proc (some c) = some (answered log request (some response))) :
    Answered conn calloc port c request log s :=
  ⟨_, response, .single (.finish hp), System.finish_state_self⟩

theorem answered_replied {response : Message} {rest : List Message}
    (hp : s.proc (some c) = some (waiting (conn c) log request))
    (hq : s.queue (conn c).asyncFrom = response :: rest) :
    Answered conn calloc port c request log s := by
  have hstep : System.Step legal (turn conn calloc port) s _ := .poll hp hq
  refine Answered.head ?_ (.single hstep)
  apply answered_done
  rw [System.setQueue_proc, System.setProc_self]

namespace Inv

/-- A client that waits gets its response. -/
theorem answered_waiting (h : Inv calloc port srv conn record s focus)
    (hconn : Connected port srv conn record)
    (hp : s.proc (some c) = some (waiting (conn c) log request)) :
    Answered conn calloc port c request log s := by
  obtain ⟨s', msg, slog, hreach, hlistening, hsame⟩ := h.drains request
  obtain ⟨focus', h'⟩ := h.reaches hconn hreach
  refine Answered.head ?_ hreach
  rw [← (hsame c).2] at hp
  -- the server listens, so that it has no client in hand
  have hserving := h'.serving
  rw [hlistening] at hserving
  have hreq := h'.request c
  rw [hp, hserving.focus_of_listening hconn, viewOf_none] at hreq
  obtain ⟨response, hfrom⟩ := hreq.of_waiting
  exact answered_replied hp hfrom

/-- A client that has posted its request gets its response. -/
theorem answered_posted (h : Inv calloc port srv conn record s focus)
    (hconn : Connected port srv conn record)
    (hp : s.proc (some c) = some (notifying (conn c) log request)) :
    Answered conn calloc port c request log s := by
  obtain ⟨s', msg, slog, hreach, hlistening, hsame⟩ := h.drains request
  obtain ⟨focus', h'⟩ := h.reaches hconn hreach
  refine Answered.head ?_ hreach
  rw [← (hsame c).2] at hp
  obtain ⟨next, hnext, -⟩ := hconn.serverTurn_free calloc msg slog
  rw [hnext] at hlistening
  rw [notifying, hconn.port c] at hp
  have hstep : System.Step legal (turn conn calloc port) s' _ :=
    .rendezvous (by simp) hp hlistening
  obtain ⟨focus'', h''⟩ := h'.step hconn hstep
  refine Answered.head ?_ (.single hstep)
  apply h''.answered_waiting hconn
  rw [System.setProc_of_ne (by simp), System.setProc_self]

theorem answered_posting (h : Inv calloc port srv conn record s focus)
    (hconn : Connected port srv conn record)
    (hp : s.proc (some c) =
      some (.post (conn c).asyncTo request (notifying (conn c) log request))) :
    Answered conn calloc port c request log s := by
  have hstep : System.Step legal (turn conn calloc port) s _ := .post hp
  obtain ⟨focus', h'⟩ := h.step hconn hstep
  refine Answered.head ?_ (.single hstep)
  apply h'.answered_posted hconn
  rw [System.setQueue_proc, System.setProc_self]

/-- A client that has made a request gets its response. -/
theorem answered (h : Inv calloc port srv conn record s focus)
    (hconn : Connected port srv conn record) (hs : s.state (some c) = ⟨some request, log⟩) :
    Answered conn calloc port c request log s := by
  have hreq := h.request c
  rw [hs] at hreq
  rcases hreq.of_asked with hprog | hprog | hprog | hprog | ⟨response, hprog⟩
  · have hstep : System.Step legal (turn conn calloc port) s _ := .start request hprog
    obtain ⟨focus', h'⟩ := h.step hconn hstep
    refine Answered.head ?_ (.single hstep)
    apply h'.answered_posting hconn
    rw [System.setProc_self, hs]
    exact congrArg some (clientTurn_asked (conn c) log request request)
  · exact h.answered_posting hconn hprog
  · exact h.answered_posted hconn hprog
  · exact h.answered_waiting hconn hprog
  · exact answered_done hprog

end Inv

end Steps

/-! ## The result -/

/-- The requests that a client has made. -/
def ClientState.made (c : ClientState) : List Message := c.log.map Prod.fst ++ c.asked.toList

/-- The request that the server has returned and that is not decided about. -/
def Stage.request : Stage → List (Ptr × Message)
  | .returned conn request => [(conn, request)]
  | _ => []

/-- The requests that the server has returned, each with its record. -/
def ServerState.returned (s : ServerState) : List (Ptr × Message) :=
  s.log.map (fun a => (a.1, a.2.1)) ++ s.stage.request

/-- The requests that the server has returned with a record. -/
def returnedFor (ptr : Ptr) (s : ServerState) : List Message :=
  (s.returned.filter (·.1 = ptr)).map Prod.snd

theorem returnedFor_eq (ptr : Ptr) (s : ServerState) :
    returnedFor ptr s = (decidedFor ptr s.log).map Prod.fst ++
      (s.stage.request.filter (·.1 = ptr)).map Prod.snd := by
  simp [returnedFor, ServerState.returned, decidedFor, List.filter_map, Function.comp_def]

/-- A client makes its requests in turn, and gets the responses in turn. -/
theorem Request.in_turn {cn : Conn} {st : ClientState} {prog : Option (Program ClientState)}
    {qto qfrom : List Message} {v : View} {decided : List (Message × Message)}
    (h : Request cn st prog qto qfrom v decided) :
    st.log <+: decided ∧ decided.map Prod.fst <+: st.made ∧
      ∀ request, v = .holding request → decided.map Prod.fst ++ [request] <+: st.made := by
  cases h <;> simp [ClientState.made]

/-- The server has returned the request that it has in hand, or is about to return it. -/
theorem Serving.request {ι : Type} [DecidableEq ι] {calloc : Allocator AndNode} {port : ℕ}
    {srv : ConnServer} {conn : ι → Conn} {record : ι → Ptr} {st : ServerState}
    {prog : Option (Program ServerState)} {focus : Option (ι × View)}
    (h : Serving calloc port srv conn record st prog focus) :
    st.stage.request = [] ∨
      ∃ c request, focus = some (c, .holding request) ∧
        st.stage.request = [(record c, request)] := by
  cases h with
  | returned c request => exact .inr ⟨c, request, rfl, rfl⟩
  | deciding c request => exact .inr ⟨c, request, rfl, rfl⟩
  | _ => exact .inl rfl

section Result

variable {ι : Type} [DecidableEq ι] {calloc : Allocator AndNode} {port : ℕ} {srv : ConnServer}
  {conn : ι → Conn} {record : ι → Ptr} {s : System (Option ι) Message Fresh (State ι)}
  {focus : Option (ι × View)}

namespace Inv

/-- The server returns no request of anybody else. -/
theorem from_client (h : Inv calloc port srv conn record s focus) :
    ∀ a ∈ (s.state none).returned, ∃ c, a.1 = record c := by
  intro a ha
  rcases List.mem_append.1 ha with ha | ha
  · obtain ⟨b, hb, rfl⟩ := List.mem_map.1 ha
    exact h.known b hb
  · rcases h.serving.request with hnone | ⟨c, request, -, hreturned⟩
    · rw [hnone] at ha
      cases ha
    · rw [hreturned, List.mem_singleton] at ha
      exact ⟨c, congrArg Prod.fst ha⟩

/-- The server returns the requests of a client in turn. -/
theorem returned_made (h : Inv calloc port srv conn record s focus)
    (hconn : Connected port srv conn record) (c : ι) :
    returnedFor (record c) (s.state none) <+: (s.state (some c)).made := by
  obtain ⟨-, hdecided, hholding⟩ := (h.request c).in_turn
  rw [returnedFor_eq]
  rcases h.serving.request with hnone | ⟨d, request, rfl, hreturned⟩
  · rw [hnone, List.filter_nil, List.map_nil, List.append_nil]
    exact hdecided
  · rw [hreturned]
    rcases eq_or_ne c d with rfl | hne
    · have hlast := hholding request viewOf_self
      simpa using hlast
    · have hother : record d ≠ record c := fun heq => hne (hconn.record_inj heq).symm
      simpa [hother] using hdecided

/-- The requests that a client has the responses to were returned. -/
theorem answered_returned (h : Inv calloc port srv conn record s focus) (c : ι) :
    (s.state (some c)).log.map Prod.fst <+: returnedFor (record c) (s.state none) := by
  obtain ⟨hlog, -, -⟩ := (h.request c).in_turn
  rw [returnedFor_eq]
  exact (hlog.map Prod.fst).trans (List.prefix_append ..)

end Inv

/-- **Requests are served once.** For any number of connected clients and all interleavings with a
server: the server returns only requests of the clients, those of a client with the record of the
client, each at most once and in turn, and no request is skipped. A client has the responses that
were decided about its own requests, in turn. The server never looks into an empty queue, and each
request can still be answered. -/
theorem requests_served (calloc : Allocator AndNode) (hconn : Connected port srv conn record)
    (hs : System.Reaches legal (turn conn calloc port) (atRest srv) s) :
    (∀ a ∈ (s.state none).returned, ∃ c, a.1 = record c) ∧
      (∀ c, (s.state (some c)).log.map Prod.fst <+: returnedFor (record c) (s.state none) ∧
        returnedFor (record c) (s.state none) <+: (s.state (some c)).made) ∧
      (∀ c, (s.state (some c)).log <+: decidedFor (record c) (s.state none).log) ∧
      (∀ e next, s.proc none = some (.poll e false next) → s.queue e ≠ []) ∧
      ∀ c request log, s.state (some c) = ⟨some request, log⟩ →
        ∃ s' response, System.Reaches legal (turn conn calloc port) s s' ∧
          s'.state (some c) = ⟨none, log ++ [(request, response)]⟩ := by
  obtain ⟨focus, h⟩ := Inv.init.reaches hconn hs
  refine ⟨h.from_client, fun c => ⟨h.answered_returned c, h.returned_made hconn c⟩, ?_, ?_, ?_⟩
  · exact fun c => (h.request c).in_turn.1
  · exact fun e next hp => h.poll_ne_nil hconn hp
  · exact fun c request log hst => h.answered hconn hst

end Result

/-! A server with two clients. -/

/-- The tree of a server after two connects. -/
def twoServer : Server :=
  (do
    let (s, _) ← Connman.handleConnect .bump emptyServer true true 10 77
    let (s, _) ← Connman.handleConnect .bump s true true 20 78
    return s).getD emptyServer

/-- The server with the endpoints of its clients. -/
def twoRecords : ConnServer :=
  ⟨twoServer, fun ptr => if ptr = 10 then 4 else 6, fun ptr => if ptr = 10 then 3 else 5,
    fun ptr => if ptr = 10 then some 7 else some 8, [], []⟩

/-- The connections of the clients. -/
def twoConns (c : Bool) : Conn := if c then ⟨1, 3, 4, 77, some 7⟩ else ⟨1, 5, 6, 78, some 8⟩

/-- The records of the clients. -/
def twoPtrs (c : Bool) : Ptr := if c then 10 else 20

theorem two_connected : Connected 1 twoRecords twoConns twoPtrs := by
  constructor
  · intro c
    cases c <;> rfl
  · intro c
    cases c <;> exact ⟨rfl, rfl, rfl⟩
  · intro c
    cases c <;> decide
  · intro c d hne
    cases c <;> cases d
    · exact absurd rfl hne
    · constructor <;> simp [twoConns]
    · constructor <;> simp [twoConns]
    · exact absurd rfl hne
  · have h₀ : Connects emptyServer [] := .init _ _ ⟨_, _, rfl⟩
    have h₁ : Connects _ [(10, 77)] := .connect .bump h₀ (by decide) (by decide) (by decide) rfl
    have h₂ : Connects twoServer [(20, 78), (10, 77)] :=
      .connect .bump h₁ (by decide) (by decide) (by decide) rfl
    refine ⟨_, h₂, ?_, by decide, by decide +kernel⟩
    intro c
    cases c <;> decide

/-- A client has its request answered while the other one is there. -/
theorem requests_served_once : ∃ s : System (Option Bool) Message Fresh (State Bool),
    System.Reaches legal (turn twoConns .bump 1) (atRest twoRecords) s ∧
      s.state (some true) = ⟨none, [({ type := .other 5 }, { type := .other 6 })]⟩ ∧
      returnedFor 10 (s.state none) <+: (s.state (some true)).made ∧
      (s.state (some true)).log <+: decidedFor 10 (s.state none).log := by
  have h₀ : System.Reaches legal (turn twoConns .bump 1) (atRest twoRecords) _ := .refl
  have h₁ := h₀.tail (.start (p := some true) { type := .other 5 } rfl)
  have h₂ := h₁.tail (.finish (p := some true) rfl)
  have h₃ := h₂.tail (.start (p := none) { type := .other 5 } rfl)
  have h₄ := h₃.tail (.start (p := some true) { type := .other 5 } rfl)
  have h₅ := h₄.tail (.post (p := some true) rfl)
  have h₆ := h₅.tail (.rendezvous (p := some true) (q := none) (by decide) rfl rfl)
  -- the server returns the request and answers it
  have h₇ := h₆.tail (.poll (p := none) rfl rfl)
  have h₈ := h₇.tail (.finish (p := none) rfl)
  have h₉ := h₈.tail (.start (p := none) { type := .other 6 } rfl)
  have h₁₀ := h₉.tail (.finish (p := none) rfl)
  have h₁₁ := h₁₀.tail (.start (p := none) { type := .other 6 } rfl)
  have h₁₂ := h₁₁.tail (.post (p := none) rfl)
  have h₁₃ := h₁₂.tail (.poll (p := some true) rfl rfl)
  have h₁₄ := h₁₃.tail (.finish (p := some true) rfl)
  obtain ⟨-, hreturned, hanswers, -, -⟩ := requests_served .bump two_connected h₁₄
  exact ⟨_, h₁₄, rfl, (hreturned true).2, hanswers true⟩

end C4OS.Connman.Requests
