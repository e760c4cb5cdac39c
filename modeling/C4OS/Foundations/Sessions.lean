import C4OS.Foundations.Rendezvous
import Mathlib.Data.List.Nodup
import Mathlib.Data.List.Forall2

/-!
# Calls over private endpoints

A server takes one call after the other from a port that everybody knows. A client makes an endpoint
for its call, sends it to the port, and the two talk over this endpoint alone, until each of them
returns. Many clients call at the same time, and the server and a client return from a call
independently of each other.

In every state of a run, the calls that the server took form a list (`Service.Inv`): each of them
has come as far as two programs get that talk with nobody else (`Talks`), the server went through
them one after the other, and each client as well (`Service.Inv.step`).
-/

namespace C4OS.Foundations

/-! ## Conversations -/

section Conversations

variable {M K A B : Type}

/-- A program only talks over one endpoint, except that it asks for fresh values and answers. -/
inductive Proc.Over (e : ℕ) : Proc M K A → Prop
  | ret (a : A) : Over e (.ret a)
  | abort : Over e .abort
  | send {msg : M} {next : Proc M K A} (h : Over e next) : Over e (.send e msg next)
  | receive {next : M → Proc M K A} (h : ∀ msg, Over e (next msg)) : Over e (.receive e next)
  | fresh {kind : K} {next : ℕ → Proc M K A} (h : ∀ v, Over e (next v)) : Over e (.fresh kind next)
  | test {next : Bool → Proc M K A} (h : ∀ b, Over e (next b)) : Over e (.test next)

/-- How far two programs get that talk with each other. -/
inductive Talks (legal : K → ℕ → Prop) (e : ℕ) (p₀ : Proc M K A) (q₀ : Proc M K B) :
    Proc M K A → Proc M K B → Prop
  | start : Talks legal e p₀ q₀ p₀ q₀
  | request {msg : M} {next : M → Proc M K A} {next' : Proc M K B}
      (h : Talks legal e p₀ q₀ (.receive e next) (.send e msg next')) :
      Talks legal e p₀ q₀ (next msg) next'
  | reply {msg : M} {next : Proc M K A} {next' : M → Proc M K B}
      (h : Talks legal e p₀ q₀ (.send e msg next) (.receive e next')) :
      Talks legal e p₀ q₀ next (next' msg)
  | freshLeft {kind : K} {v : ℕ} {next : ℕ → Proc M K A} {q : Proc M K B}
      (h : Talks legal e p₀ q₀ (.fresh kind next) q) (hlegal : legal kind v) :
      Talks legal e p₀ q₀ (next v) q
  | freshRight {kind : K} {v : ℕ} {p : Proc M K A} {next : ℕ → Proc M K B}
      (h : Talks legal e p₀ q₀ p (.fresh kind next)) (hlegal : legal kind v) :
      Talks legal e p₀ q₀ p (next v)
  | testLeft (b : Bool) {next : Bool → Proc M K A} {q : Proc M K B}
      (h : Talks legal e p₀ q₀ (.test next) q) : Talks legal e p₀ q₀ (next b) q
  | testRight (b : Bool) {p : Proc M K A} {next : Bool → Proc M K B}
      (h : Talks legal e p₀ q₀ p (.test next)) : Talks legal e p₀ q₀ p (next b)

variable {legal : K → ℕ → Prop} {e : ℕ} {p₀ p : Proc M K A} {q₀ q : Proc M K B}

namespace Proc.Over

theorem of_send {e' : ℕ} {msg : M} (h : (Proc.send e' msg p).Over e) : e' = e ∧ p.Over e := by
  cases h with
  | send h => exact ⟨rfl, h⟩

theorem of_receive {e' : ℕ} {next : M → Proc M K A} (h : (Proc.receive e' next).Over e) :
    e' = e ∧ ∀ msg, (next msg).Over e := by
  cases h with
  | receive h => exact ⟨rfl, h⟩

theorem of_fresh {kind : K} {next : ℕ → Proc M K A} (h : (Proc.fresh kind next).Over e) (v : ℕ) :
    (next v).Over e := by
  cases h with
  | fresh h => exact h v

theorem of_test {next : Bool → Proc M K A} (h : (Proc.test next).Over e) (b : Bool) :
    (next b).Over e := by
  cases h with
  | test h => exact h b

end Proc.Over

theorem Talks.over (h : Talks legal e p₀ q₀ p q) (hp : p₀.Over e) (hq : q₀.Over e) :
    p.Over e ∧ q.Over e := by
  induction h with
  | start => exact ⟨hp, hq⟩
  | request h ih => exact ⟨ih.1.of_receive.2 _, ih.2.of_send.2⟩
  | reply h ih => exact ⟨ih.1.of_send.2, ih.2.of_receive.2 _⟩
  | freshLeft h hlegal ih => exact ⟨ih.1.of_fresh _, ih.2⟩
  | freshRight h hlegal ih => exact ⟨ih.1, ih.2.of_fresh _⟩
  | testLeft b h ih => exact ⟨ih.1.of_test b, ih.2⟩
  | testRight b h ih => exact ⟨ih.1, ih.2.of_test b⟩

end Conversations

/-! ## Services -/

/-- A service with states of type `S`, and calls of type `C` that have results of type `R`: what the
server does in a session over an endpoint, and the client in its dialogue. -/
structure Service (M K S C R : Type) where
  port : ℕ
  object : K
  grant : ℕ → M
  granted : M → Option ℕ
  session : S → ℕ → Proc M K S
  dialogue : C → ℕ → Proc M K R
  other : S → M → Proc M K S
  granted_grant : ∀ e, granted (grant e) = some e
  session_over : ∀ s e, (session s e).Over e
  dialogue_over : ∀ c e, (dialogue c e).Over e

namespace Service

variable {M K S C R : Type} (V : Service M K S C R)

/-- A turn of the server. -/
def serve (s : S) : Proc M K S :=
  .receive V.port fun msg =>
    match V.granted msg with
    | none => V.other s msg
    | some e => V.session s e

/-- A client gets its result, behind the earlier ones. -/
def finish (hist : List (C × R)) (call : C) (r : R) : Proc M K (List (C × R)) :=
  .ret (hist ++ [(call, r)])

/-- A call of a client. -/
def ask (hist : List (C × R)) (call : C) : Proc M K (List (C × R)) :=
  .fresh V.object fun e =>
    .send V.port (V.grant e) ((V.dialogue call e).bind (finish hist call))

/-- The server has its state, and a client its calls with their results. -/
abbrev Party (ι S C R : Type) : Option ι → Type
  | none => S
  | some _ => List (C × R)

/-- The programs of the parties. -/
def start (ι : Type) : ∀ p : Option ι, Party ι S C R p → C → Proc M K (Party ι S C R p)
  | none => fun s _ => V.serve s
  | some _ => V.ask

/-- The system of the server and the clients `ι`, before the first call. -/
def initial (ι : Type) [DecidableEq K] (s₀ : S) : System (Option ι) M K (Party ι S C R) where
  state
    | none => s₀
    | some _ => []
  proc _ := none
  queue _ := []
  issued kind := if kind = V.object then [V.port] else []

/-! ## The calls that were taken -/

/-- A call that the server took, in one of its states. -/
structure Session (ι S C : Type) where
  client : ι
  call : C
  temp : ℕ
  before : S

variable {ι : Type} {s₀ : S} {log log' : List (Session ι S C)} {st : S}
  {srv srv' : ℕ → Proc M K S} {cli cli' : ℕ → Proc M K R} {hist : List (C × R)}
  {f : Session ι S C}

/-- The server went through the calls one after the other. -/
inductive Chain (s₀ : S) (srv : ℕ → Proc M K S) : List (Session ι S C) → S → Prop
  | nil : Chain s₀ srv [] s₀
  | concat {log : List (Session ι S C)} {f : Session ι S C} {st : S}
      (h : Chain s₀ srv log f.before) (hret : srv f.temp = .ret st) : Chain s₀ srv (log ++ [f]) st

/-- A client got the results of its calls. -/
def Done (cli : ℕ → Proc M K R) (log : List (Session ι S C)) (hist : List (C × R)) : Prop :=
  List.Forall₂ (fun f a => f.call = a.1 ∧ cli f.temp = .ret a.2) log hist

/-- Where the server is. -/
inductive ServerAt (s₀ : S) (srv : ℕ → Proc M K S) :
    List (Session ι S C) → S → Option (Proc M K S) → Prop
  | rest {log : List (Session ι S C)} {st : S} (h : Chain s₀ srv log st) :
      ServerAt s₀ srv log st none
  | listening {log : List (Session ι S C)} {st : S} (h : Chain s₀ srv log st) :
      ServerAt s₀ srv log st (some (V.serve st))
  | talking {log : List (Session ι S C)} {f : Session ι S C} (h : Chain s₀ srv log f.before) :
      ServerAt s₀ srv (log ++ [f]) f.before (some (srv f.temp))

/-- Where a client is, with the endpoint that it made and has not sent yet. -/
inductive ClientAt (cli : ℕ → Proc M K R) :
    List (Session ι S C) → Option ℕ → List (C × R) → Option (Proc M K (List (C × R))) → Prop
  | rest {log : List (Session ι S C)} {hist : List (C × R)} (h : Done cli log hist) :
      ClientAt cli log none hist none
  | asking {log : List (Session ι S C)} {hist : List (C × R)} (h : Done cli log hist) (call : C) :
      ClientAt cli log none hist (some (V.ask hist call))
  | granting {log : List (Session ι S C)} {hist : List (C × R)} (h : Done cli log hist) (call : C)
      (e : ℕ) : ClientAt cli log (some e) hist
        (some (.send V.port (V.grant e) ((V.dialogue call e).bind (finish hist call))))
  | talking {log : List (Session ι S C)} {f : Session ι S C} {hist : List (C × R)}
      (h : Done cli log hist) :
      ClientAt cli (log ++ [f]) none hist (some ((cli f.temp).bind (finish hist f.call)))

/-- The calls of a client. -/
def ofClient [DecidableEq ι] (c : ι) (log : List (Session ι S C)) : List (Session ι S C) :=
  log.filter fun f => f.client = c

/-- The state of a run, with the calls that were taken so far, how far the server and the client are
in each of them, and the endpoints that wait to be sent. -/
structure Inv [DecidableEq ι] (legal : K → ℕ → Prop) (s₀ : S)
    (s : System (Option ι) M K (Party ι S C R)) (log : List (Session ι S C))
    (srv : ℕ → Proc M K S) (cli : ℕ → Proc M K R) (pending : ι → Option ℕ) : Prop where
  nodup : (log.map Session.temp).Nodup
  temp_issued : ∀ f ∈ log, f.temp ∈ s.issued V.object ∧ f.temp ≠ V.port
  port_issued : V.port ∈ s.issued V.object
  pending_issued : ∀ c e, pending c = some e →
    e ∈ s.issued V.object ∧ e ≠ V.port ∧ ∀ f ∈ log, f.temp ≠ e
  pending_inj : ∀ c d e, pending c = some e → pending d = some e → c = d
  talks : ∀ f ∈ log, Talks legal f.temp (V.session f.before f.temp) (V.dialogue f.call f.temp)
    (srv f.temp) (cli f.temp)
  server : V.ServerAt s₀ srv log (s.state none) (s.proc none)
  client : ∀ c, V.ClientAt cli (ofClient c log) (pending c) (s.state (some c)) (s.proc (some c))

section Lists

theorem Chain.congr (h : Chain s₀ srv log st) (heq : ∀ f ∈ log, srv f.temp = srv' f.temp) :
    Chain s₀ srv' log st := by
  induction h with
  | nil => exact .nil
  | concat h hret ih =>
    refine .concat (ih fun f hf => heq f (List.mem_append_left _ hf)) ?_
    rw [← heq _ (List.mem_append_right _ (.head _)), hret]

theorem Done.congr (h : Done cli log hist) (heq : ∀ f ∈ log, cli f.temp = cli' f.temp) :
    Done cli' log hist := by
  induction h with
  | nil => exact .nil
  | cons ha h ih =>
    refine .cons ⟨ha.1, ?_⟩ (ih fun f hf => heq f (.tail _ hf))
    rw [← heq _ (.head _), ha.2]

theorem Done.concat (h : Done cli log hist) {r : R} (hret : cli f.temp = .ret r) :
    Done cli (log ++ [f]) (hist ++ [(f.call, r)]) :=
  List.rel_append h (.cons ⟨rfl, hret⟩ .nil)

variable [DecidableEq ι] {c : ι}

theorem ofClient_concat_self : ofClient f.client (log ++ [f]) = ofClient f.client log ++ [f] := by
  simp [ofClient]

theorem ofClient_concat_of_ne (h : f.client ≠ c) : ofClient c (log ++ [f]) = ofClient c log := by
  simp [ofClient, h]

theorem mem_of_ofClient (h : f ∈ ofClient c log) : f ∈ log ∧ f.client = c := by
  simpa [ofClient] using h

end Lists

section Places

variable {V} {proc : Option (Proc M K (List (C × R)))} {pend : Option ℕ} {call : C}
  {p : Proc M K S} {q : Proc M K R} {prog : Proc M K (List (C × R))} {e : ℕ} {msg : M}

theorem ServerAt.of_none (h : V.ServerAt s₀ srv log st none) : Chain s₀ srv log st := by
  cases h with
  | rest h => exact h

theorem ServerAt.of_some (h : V.ServerAt s₀ srv log st (some p)) :
    (p = V.serve st ∧ Chain s₀ srv log st) ∨
      ∃ log' f, log = log' ++ [f] ∧ st = f.before ∧ Chain s₀ srv log' f.before ∧
        p = srv f.temp := by
  cases h with
  | listening h => exact .inl ⟨rfl, h⟩
  | talking h => exact .inr ⟨_, _, rfl, rfl, h, rfl⟩

/-- The server goes on in its session. -/
theorem ServerAt.advance (h : Chain s₀ srv log f.before) (hnew : ∀ g ∈ log, g.temp ≠ f.temp)
    (p : Proc M K S) :
    V.ServerAt s₀ (Function.update srv f.temp p) (log ++ [f]) f.before (some p) := by
  have hchain : Chain s₀ (Function.update srv f.temp p) log f.before :=
    h.congr fun g hg => (Function.update_of_ne (hnew g hg) _ _).symm
  have hat := ServerAt.talking (V := V) hchain
  rwa [Function.update_self] at hat

theorem ClientAt.of_none (h : V.ClientAt cli log pend hist none) :
    Done cli log hist ∧ pend = none := by
  cases h with
  | rest h => exact ⟨h, rfl⟩

theorem ClientAt.of_some (h : V.ClientAt cli log pend hist (some prog)) :
    (∃ call, pend = none ∧ prog = V.ask hist call ∧ Done cli log hist) ∨
      (∃ call e, pend = some e ∧
        prog = .send V.port (V.grant e) ((V.dialogue call e).bind (finish hist call)) ∧
        Done cli log hist) ∨
      ∃ log' f, log = log' ++ [f] ∧ pend = none ∧ Done cli log' hist ∧
        prog = (cli f.temp).bind (finish hist f.call) := by
  cases h with
  | asking h call => exact .inl ⟨call, rfl, rfl, h⟩
  | granting h call e => exact .inr (.inl ⟨call, e, rfl, rfl, h⟩)
  | talking h => exact .inr (.inr ⟨_, _, rfl, rfl, h, rfl⟩)

theorem ClientAt.congr (h : V.ClientAt cli log pend hist proc)
    (heq : ∀ f ∈ log, cli f.temp = cli' f.temp) : V.ClientAt cli' log pend hist proc := by
  cases h with
  | rest h => exact .rest (h.congr heq)
  | asking h call => exact .asking (h.congr heq) call
  | granting h call e => exact .granting (h.congr heq) call e
  | talking h =>
    rw [heq _ (List.mem_append_right _ (.head _))]
    exact .talking (h.congr fun g hg => heq g (List.mem_append_left _ hg))

/-- A client goes on in its dialogue. -/
theorem ClientAt.advance (h : Done cli log hist) (hnew : ∀ g ∈ log, g.temp ≠ f.temp)
    (q : Proc M K R) : V.ClientAt (Function.update cli f.temp q) (log ++ [f]) none hist
      (some (q.bind (finish hist f.call))) := by
  have hdone : Done (Function.update cli f.temp q) log hist :=
    h.congr fun g hg => (Function.update_of_ne (hnew g hg) _ _).symm
  have hat := ClientAt.talking (V := V) (f := f) hdone
  rwa [Function.update_self] at hat

theorem of_bind_send {next : Proc M K (List (C × R))}
    (h : .send e msg next = q.bind (finish hist call)) :
    ∃ next', q = .send e msg next' ∧ next = next'.bind (finish hist call) := by
  cases q with
  | send e' msg' next' =>
    obtain ⟨rfl, rfl, rfl⟩ := Proc.send.inj h
    exact ⟨next', rfl, rfl⟩
  | _ => cases h

theorem of_bind_receive {next : M → Proc M K (List (C × R))}
    (h : .receive e next = q.bind (finish hist call)) :
    ∃ next', q = .receive e next' ∧ ∀ msg, next msg = (next' msg).bind (finish hist call) := by
  cases q with
  | receive e' next' =>
    obtain ⟨rfl, rfl⟩ := Proc.receive.inj h
    exact ⟨next', rfl, fun msg => rfl⟩
  | _ => cases h

theorem of_bind_fresh {kind : K} {next : ℕ → Proc M K (List (C × R))}
    (h : .fresh kind next = q.bind (finish hist call)) :
    ∃ next', q = .fresh kind next' ∧ ∀ v, next v = (next' v).bind (finish hist call) := by
  cases q with
  | fresh kind' next' =>
    obtain ⟨rfl, rfl⟩ := Proc.fresh.inj h
    exact ⟨next', rfl, fun v => rfl⟩
  | _ => cases h

theorem of_bind_test {next : Bool → Proc M K (List (C × R))}
    (h : .test next = q.bind (finish hist call)) :
    ∃ next', q = .test next' ∧ ∀ b, next b = (next' b).bind (finish hist call) := by
  cases q with
  | test next' =>
    obtain rfl := Proc.test.inj h
    exact ⟨next', rfl, fun b => rfl⟩
  | _ => cases h

theorem of_bind_ret {hist' : List (C × R)} (h : .ret hist' = q.bind (finish hist call)) :
    ∃ r, q = .ret r ∧ hist' = hist ++ [(call, r)] := by
  cases q with
  | ret r => exact ⟨r, rfl, Proc.ret.inj h⟩
  | _ => cases h

/-- What a client does that talks stays inside its dialogue. -/
theorem not_over_post {next : Proc M K (List (C × R))} {e' : ℕ} (hq : q.Over e')
    (h : .post e msg next = q.bind (finish hist call)) : False := by
  cases hq <;> cases h

theorem not_over_poll {next : Option M → Proc M K (List (C × R))} {e' : ℕ} {block : Bool}
    (hq : q.Over e') (h : .poll e block next = q.bind (finish hist call)) : False := by
  cases hq <;> cases h

end Places

/-! ## Steps -/

theorem issue_proc [DecidableEq K] (s : System (Option ι) M K (Party ι S C R)) (kind : K) (v : ℕ) :
    (s.issue kind v).proc = s.proc := rfl

namespace Inv

variable {V} [DecidableEq ι] {legal : K → ℕ → Prop} {s s' : System (Option ι) M K (Party ι S C R)}
  {pending : ι → Option ℕ} {g : Session ι S C}

theorem eq_of_temp (h : V.Inv legal s₀ s log srv cli pending) (hf : f ∈ log) (hg : g ∈ log)
    (heq : f.temp = g.temp) : f = g :=
  List.inj_on_of_nodup_map h.nodup hf hg heq

theorem both_over (h : V.Inv legal s₀ s log srv cli pending) (hf : f ∈ log) :
    (srv f.temp).Over f.temp ∧ (cli f.temp).Over f.temp :=
  (h.talks f hf).over (V.session_over ..) (V.dialogue_over ..)

/-- The calls stay as they are. -/
theorem change (h : V.Inv legal s₀ s log srv cli pending)
    (hissued : ∀ v ∈ s.issued V.object, v ∈ s'.issued V.object)
    (hserver : V.ServerAt s₀ srv log (s'.state none) (s'.proc none))
    (hclient : ∀ c, V.ClientAt cli (ofClient c log) (pending c) (s'.state (some c))
      (s'.proc (some c))) : V.Inv legal s₀ s' log srv cli pending where
  nodup := h.nodup
  temp_issued f hf := ⟨hissued _ (h.temp_issued f hf).1, (h.temp_issued f hf).2⟩
  port_issued := hissued _ h.port_issued
  pending_issued c e hc :=
    ⟨hissued _ (h.pending_issued c e hc).1, (h.pending_issued c e hc).2⟩
  pending_inj := h.pending_inj
  talks := h.talks
  server := hserver
  client := hclient

/-- A conversation goes on. -/
theorem talk (h : V.Inv legal s₀ s log srv cli pending) (hf : f ∈ log) {p : Proc M K S}
    {q : Proc M K R}
    (htalks : Talks legal f.temp (V.session f.before f.temp) (V.dialogue f.call f.temp) p q)
    (hissued : ∀ v ∈ s.issued V.object, v ∈ s'.issued V.object)
    (hserver : V.ServerAt s₀ (Function.update srv f.temp p) log (s'.state none) (s'.proc none))
    (hother : ∀ c, c ≠ f.client →
      s'.state (some c) = s.state (some c) ∧ s'.proc (some c) = s.proc (some c))
    (hclient : V.ClientAt (Function.update cli f.temp q) (ofClient f.client log)
      (pending f.client) (s'.state (some f.client)) (s'.proc (some f.client))) :
    V.Inv legal s₀ s' log (Function.update srv f.temp p) (Function.update cli f.temp q)
      pending where
  nodup := h.nodup
  temp_issued f hf := ⟨hissued _ (h.temp_issued f hf).1, (h.temp_issued f hf).2⟩
  port_issued := hissued _ h.port_issued
  pending_issued c e hc :=
    ⟨hissued _ (h.pending_issued c e hc).1, (h.pending_issued c e hc).2⟩
  pending_inj := h.pending_inj
  talks := by
    intro g hg
    by_cases heq : g.temp = f.temp
    · obtain rfl := h.eq_of_temp hg hf heq
      rwa [Function.update_self, Function.update_self]
    · rw [Function.update_of_ne heq, Function.update_of_ne heq]
      exact h.talks g hg
  server := hserver
  client := by
    intro c
    by_cases hc : c = f.client
    · subst hc
      exact hclient
    · obtain ⟨hstate, hproc⟩ := hother c hc
      rw [hstate, hproc]
      refine (h.client c).congr fun g hg => ?_
      obtain ⟨hmem, hgc⟩ := mem_of_ofClient hg
      have hne : g.temp ≠ f.temp := by
        intro heq
        obtain rfl := h.eq_of_temp hmem hf heq
        exact hc hgc.symm
      rw [Function.update_of_ne hne]

theorem temp_ne (h : V.Inv legal s₀ s log srv cli pending) (hlog : log = log' ++ [f]) :
    ∀ g ∈ log', g.temp ≠ f.temp := by
  have hnd := h.nodup
  rw [hlog, List.map_append, List.map_singleton, ← List.concat_eq_append,
    List.nodup_concat] at hnd
  exact fun g hg heq => hnd.1 (heq ▸ List.mem_map_of_mem hg)

theorem temp_ne_of_client (h : V.Inv legal s₀ s log srv cli pending) {c : ι}
    (hlog : ofClient c log = log' ++ [f]) : ∀ g ∈ log', g.temp ≠ f.temp := by
  have hnd : ((ofClient c log).map Session.temp).Nodup :=
    h.nodup.sublist (List.filter_sublist.map _)
  rw [hlog, List.map_append, List.map_singleton, ← List.concat_eq_append,
    List.nodup_concat] at hnd
  exact fun g hg heq => hnd.1 (heq ▸ List.mem_map_of_mem hg)

/-- The server goes on alone. -/
theorem left (h : V.Inv legal s₀ s log srv cli pending) (hlog : log = log' ++ [f])
    (hchain : Chain s₀ srv log' f.before) (hst : s.state none = f.before) {p : Proc M K S}
    (htalks : Talks legal f.temp (V.session f.before f.temp) (V.dialogue f.call f.temp) p
      (cli f.temp))
    (hissued : ∀ v ∈ s.issued V.object, v ∈ s'.issued V.object) (hstate : s'.state = s.state)
    (hproc : s'.proc none = some p) (hother : ∀ c, s'.proc (some c) = s.proc (some c)) :
    V.Inv legal s₀ s' log (Function.update srv f.temp p) cli pending := by
  have hmem : f ∈ log := hlog ▸ List.mem_append_right _ (.head _)
  have hserver : V.ServerAt s₀ (Function.update srv f.temp p) log (s'.state none)
      (s'.proc none) := by
    rw [hstate, hst, hproc, hlog]
    exact .advance hchain (h.temp_ne hlog) p
  have htalk := h.talk hmem htalks hissued hserver
  rw [Function.update_eq_self] at htalk
  refine htalk (fun c _ => ⟨congrFun hstate _, hother c⟩) ?_
  rw [hstate, hother]
  exact h.client f.client

/-- A client goes on alone. -/
theorem right (h : V.Inv legal s₀ s log srv cli pending) {c : ι}
    (hlog : ofClient c log = log' ++ [f]) (hpending : pending c = none)
    (hdone : Done cli log' (s.state (some c))) {q : Proc M K R}
    (htalks : Talks legal f.temp (V.session f.before f.temp) (V.dialogue f.call f.temp)
      (srv f.temp) q)
    (hissued : ∀ v ∈ s.issued V.object, v ∈ s'.issued V.object) (hstate : s'.state = s.state)
    (hproc : s'.proc (some c) = some (q.bind (finish (s.state (some c)) f.call)))
    (hserver : s'.proc none = s.proc none)
    (hother : ∀ d, d ≠ c → s'.proc (some d) = s.proc (some d)) :
    V.Inv legal s₀ s' log srv (Function.update cli f.temp q) pending := by
  obtain ⟨hmem, rfl⟩ := mem_of_ofClient (hlog ▸ List.mem_append_right log' (.head _))
  have htalk := h.talk hmem htalks hissued
  rw [Function.update_eq_self] at htalk
  refine htalk ?_ (fun d hd => ⟨congrFun hstate _, hother d hd⟩) ?_
  · rw [hstate, hserver]
    exact h.server
  · rw [hstate, hproc, hlog, hpending]
    exact .advance hdone (h.temp_ne_of_client hlog) q

/-- The server and the client of its session go on together. -/
theorem both (h : V.Inv legal s₀ s log srv cli pending) (hlog : log = log' ++ [f])
    (hchain : Chain s₀ srv log' f.before) (hst : s.state none = f.before)
    {clientLog : List (Session ι S C)} (hclientLog : ofClient f.client log = clientLog ++ [f])
    (hpending : pending f.client = none)
    (hdone : Done cli clientLog (s.state (some f.client))) {p : Proc M K S} {q : Proc M K R}
    (htalks : Talks legal f.temp (V.session f.before f.temp) (V.dialogue f.call f.temp) p q)
    (hissued : ∀ v ∈ s.issued V.object, v ∈ s'.issued V.object) (hstate : s'.state = s.state)
    (hserver : s'.proc none = some p)
    (hproc : s'.proc (some f.client) = some (q.bind (finish (s.state (some f.client)) f.call)))
    (hother : ∀ d, d ≠ f.client → s'.proc (some d) = s.proc (some d)) :
    V.Inv legal s₀ s' log (Function.update srv f.temp p) (Function.update cli f.temp q)
      pending := by
  have hmem : f ∈ log := hlog ▸ List.mem_append_right _ (.head _)
  refine h.talk hmem htalks hissued ?_ (fun d hd => ⟨congrFun hstate _, hother d hd⟩) ?_
  · rw [hstate, hst, hserver, hlog]
    exact .advance hchain (h.temp_ne hlog) p
  · rw [hstate, hproc, hclientLog, hpending]
    exact .advance hdone (h.temp_ne_of_client hclientLog) q

/-- The server takes a call. -/
theorem take (h : V.Inv legal s₀ s log srv cli pending) (hchain : Chain s₀ srv log (s.state none))
    {c : ι} {e : ℕ} {call : C} (hpending : pending c = some e)
    (hdone : Done cli (ofClient c log) (s.state (some c))) (hissued : s'.issued = s.issued)
    (hstate : s'.state = s.state) (hserver : s'.proc none = some (V.session (s.state none) e))
    (hproc : s'.proc (some c) =
      some ((V.dialogue call e).bind (finish (s.state (some c)) call)))
    (hother : ∀ d, d ≠ c → s'.proc (some d) = s.proc (some d)) :
    V.Inv legal s₀ s' (log ++ [⟨c, call, e, s.state none⟩])
      (Function.update srv e (V.session (s.state none) e))
      (Function.update cli e (V.dialogue call e)) (Function.update pending c none) := by
  obtain ⟨heissued, hport, hnew⟩ := h.pending_issued c e hpending
  constructor
  · rw [List.map_append, List.map_singleton, ← List.concat_eq_append, List.nodup_concat]
    refine ⟨fun hmem => ?_, h.nodup⟩
    obtain ⟨g, hg, heq⟩ := List.mem_map.1 hmem
    exact hnew g hg heq
  · intro g hg
    rw [hissued]
    rcases List.mem_append.1 hg with hg | hg
    · exact h.temp_issued g hg
    · obtain rfl := List.mem_singleton.1 hg
      exact ⟨heissued, hport⟩
  · rw [hissued]
    exact h.port_issued
  · intro d e' hd
    have hdc : d ≠ c := by
      rintro rfl
      rw [Function.update_self] at hd
      cases hd
    rw [Function.update_of_ne hdc] at hd
    obtain ⟨h₁, h₂, h₃⟩ := h.pending_issued d e' hd
    rw [hissued]
    refine ⟨h₁, h₂, fun g hg => ?_⟩
    rcases List.mem_append.1 hg with hg | hg
    · exact h₃ g hg
    · obtain rfl := List.mem_singleton.1 hg
      rintro rfl
      exact hdc (h.pending_inj d c e hd hpending)
  · intro d d' e' hd hd'
    have hdc {d : ι} (hd : Function.update pending c none d = some e') :
        d ≠ c ∧ pending d = some e' := by
      by_cases hdc : d = c
      · rw [hdc, Function.update_self] at hd
        cases hd
      · rw [Function.update_of_ne hdc] at hd
        exact ⟨hdc, hd⟩
    exact h.pending_inj d d' e' (hdc hd).2 (hdc hd').2
  · intro g hg
    rcases List.mem_append.1 hg with hg | hg
    · rw [Function.update_of_ne (hnew g hg), Function.update_of_ne (hnew g hg)]
      exact h.talks g hg
    · obtain rfl := List.mem_singleton.1 hg
      simp only [Function.update_self]
      exact .start
  · rw [hstate, hserver]
    exact ServerAt.advance (V := V) (f := ⟨c, call, e, s.state none⟩) hchain hnew _
  · intro d
    by_cases hdc : d = c
    · subst hdc
      have hclient := @ofClient_concat_self _ _ _ log ⟨d, call, e, s.state none⟩ _
      rw [hstate, hproc, Function.update_self, hclient]
      exact ClientAt.advance (V := V) (f := ⟨d, call, e, s.state none⟩) hdone
        (fun g hg => hnew g (mem_of_ofClient hg).1) _
    · rw [hstate, hother d hdc, Function.update_of_ne hdc,
        ofClient_concat_of_ne (f := ⟨c, call, e, s.state none⟩) (Ne.symm hdc)]
      refine (h.client d).congr fun g hg => ?_
      rw [Function.update_of_ne (hnew g (mem_of_ofClient hg).1)]

/-- A server that sends is in its last session. -/
theorem server_send (h : V.Inv legal s₀ s log srv cli pending) {e : ℕ} {msg : M}
    {next : Proc M K S} (hp : s.proc none = some (.send e msg next)) :
    ∃ log' f, log = log' ++ [f] ∧ s.state none = f.before ∧ Chain s₀ srv log' f.before ∧
      srv f.temp = .send e msg next ∧ e = f.temp := by
  have hserver := h.server
  rw [hp] at hserver
  rcases hserver.of_some with ⟨hserve, -⟩ | ⟨log', f, hlog, hst, hchain, hprog⟩
  · cases hserve
  · have hover := (h.both_over (hlog ▸ List.mem_append_right _ (.head _))).1
    rw [← hprog] at hover
    exact ⟨log', f, hlog, hst, hchain, hprog.symm, hover.of_send.1⟩

/-- A server that receives waits at the port, or it is in its last session. -/
theorem server_receive (h : V.Inv legal s₀ s log srv cli pending) {e : ℕ} {next : M → Proc M K S}
    (hp : s.proc none = some (.receive e next)) :
    (e = V.port ∧ Chain s₀ srv log (s.state none) ∧
        .receive e next = V.serve (s.state none)) ∨
      ∃ log' f, log = log' ++ [f] ∧ s.state none = f.before ∧ Chain s₀ srv log' f.before ∧
        srv f.temp = .receive e next ∧ e = f.temp := by
  have hserver := h.server
  rw [hp] at hserver
  rcases hserver.of_some with ⟨hserve, hchain⟩ | ⟨log', f, hlog, hst, hchain, hprog⟩
  · exact .inl ⟨(Proc.receive.inj hserve).1, hchain, hserve⟩
  · have hover := (h.both_over (hlog ▸ List.mem_append_right _ (.head _))).1
    rw [← hprog] at hover
    exact .inr ⟨log', f, hlog, hst, hchain, hprog.symm, hover.of_receive.1⟩

/-- A client that sends has made its endpoint, or it is in its last call. -/
theorem client_send (h : V.Inv legal s₀ s log srv cli pending) {c : ι} {e : ℕ} {msg : M}
    {next : Proc M K (List (C × R))} (hp : s.proc (some c) = some (.send e msg next)) :
    (∃ call t, pending c = some t ∧ e = V.port ∧ msg = V.grant t ∧
        next = (V.dialogue call t).bind (finish (s.state (some c)) call) ∧
        Done cli (ofClient c log) (s.state (some c))) ∨
      ∃ log' f, ofClient c log = log' ++ [f] ∧ pending c = none ∧
        Done cli log' (s.state (some c)) ∧ e = f.temp ∧ ∃ next', cli f.temp = .send e msg next' ∧
          next = next'.bind (finish (s.state (some c)) f.call) := by
  have hclient := h.client c
  rw [hp] at hclient
  rcases hclient.of_some with ⟨call, hpend, hask, hdone⟩ | ⟨call, t, hpend, hgrant, hdone⟩ |
    ⟨log', f, hlog, hpend, hdone, hprog⟩
  · cases hask
  · obtain ⟨he, hmsg, hnext⟩ := Proc.send.inj hgrant
    exact .inl ⟨call, t, hpend, he, hmsg, hnext, hdone⟩
  · obtain ⟨next', hcli, hnext⟩ := of_bind_send hprog
    have hmem := (mem_of_ofClient (hlog ▸ List.mem_append_right log' (.head _))).1
    have hover := (h.both_over hmem).2
    rw [hcli] at hover
    exact .inr ⟨log', f, hlog, hpend, hdone, hover.of_send.1, next', hcli, hnext⟩

/-- A client that receives is in its last call. -/
theorem client_receive (h : V.Inv legal s₀ s log srv cli pending) {c : ι} {e : ℕ}
    {next : M → Proc M K (List (C × R))} (hp : s.proc (some c) = some (.receive e next)) :
    ∃ log' f, ofClient c log = log' ++ [f] ∧ pending c = none ∧ Done cli log' (s.state (some c)) ∧
      e = f.temp ∧ ∃ next', cli f.temp = .receive e next' ∧
        ∀ msg, next msg = (next' msg).bind (finish (s.state (some c)) f.call) := by
  have hclient := h.client c
  rw [hp] at hclient
  rcases hclient.of_some with ⟨call, hpend, hask, hdone⟩ | ⟨call, t, hpend, hgrant, hdone⟩ |
    ⟨log', f, hlog, hpend, hdone, hprog⟩
  · cases hask
  · cases hgrant
  · obtain ⟨next', hcli, hnext⟩ := of_bind_receive hprog
    have hmem := (mem_of_ofClient (hlog ▸ List.mem_append_right log' (.head _))).1
    have hover := (h.both_over hmem).2
    rw [hcli] at hover
    exact ⟨log', f, hlog, hpend, hdone, hover.of_receive.1, next', hcli, hnext⟩

/-- A message passes. -/
theorem rendezvous [DecidableEq K] (h : V.Inv legal s₀ s log srv cli pending) {p q : Option ι}
    {e : ℕ} {msg : M} {next : Proc M K (Party ι S C R p)}
    {next' : M → Proc M K (Party ι S C R q)} (hne : p ≠ q)
    (hp : s.proc p = some (.send e msg next)) (hq : s.proc q = some (.receive e next')) :
    ∃ log' srv' cli' pending', log <+: log' ∧
      V.Inv legal s₀ ((s.setProc p (some next)).setProc q (some (next' msg))) log' srv' cli'
        pending' := by
  cases p with
  | none =>
    cases q with
    | none => exact absurd rfl hne
    | some c =>
      obtain ⟨log', f, hlog, hst, hchain, hsrv, he⟩ := h.server_send hp
      obtain ⟨clientLog, g, hclientLog, hpending, hdone, he', next'', hcli, hnext⟩ :=
        h.client_receive hq
      obtain ⟨hmem, rfl⟩ := mem_of_ofClient (hclientLog ▸ List.mem_append_right clientLog (.head _))
      have hf : f ∈ log := hlog ▸ List.mem_append_right _ (.head _)
      obtain rfl := h.eq_of_temp hf hmem (he.symm.trans he')
      have htalks := h.talks f hf
      rw [hsrv, hcli, he] at htalks
      refine ⟨log, _, _, pending, List.prefix_rfl, h.both hlog hchain hst hclientLog hpending
        hdone htalks.reply (fun v hv => hv) rfl ?_ ?_ ?_⟩
      · rw [System.setProc_of_ne hne, System.setProc_self]
      · rw [System.setProc_self, hnext]
      · intro d hd
        rw [System.setProc_of_ne (by simpa using hd), System.setProc_of_ne (by simp)]
  | some c =>
    cases q with
    | none =>
      rcases h.client_send hp with ⟨call, t, hpending, rfl, rfl, hnext, hdone⟩ |
        ⟨clientLog, g, hclientLog, hpending, hdone, he', next'', hcli, hnext⟩
      · rcases h.server_receive hq with ⟨-, hchain, hserve⟩ | ⟨log', f, hlog, hst, hchain, hsrv, he⟩
        · have hsession : next' (V.grant t) = V.session (s.state none) t := by
            rw [(Proc.receive.inj hserve).2]
            simp only [V.granted_grant]
          refine ⟨_, _, _, _, List.prefix_append log [⟨c, call, t, s.state none⟩],
            h.take hchain hpending hdone rfl rfl ?_ ?_ ?_⟩
          · rw [System.setProc_self, hsession]
          · rw [System.setProc_of_ne (Ne.symm hne.symm), System.setProc_self, hnext]
          · intro d hd
            rw [System.setProc_of_ne (by simp), System.setProc_of_ne (by simpa using hd)]
        · have hf : f ∈ log := hlog ▸ List.mem_append_right _ (.head _)
          exact absurd he.symm (h.temp_issued f hf).2
      · obtain ⟨hmem, rfl⟩ :=
          mem_of_ofClient (hclientLog ▸ List.mem_append_right clientLog (.head _))
        rcases h.server_receive hq with ⟨he, -, -⟩ | ⟨log', f, hlog, hst, hchain, hsrv, he⟩
        · exact absurd (he'.symm.trans he) (h.temp_issued g hmem).2
        · have hf : f ∈ log := hlog ▸ List.mem_append_right _ (.head _)
          obtain rfl := h.eq_of_temp hf hmem (he.symm.trans he')
          have htalks := h.talks f hf
          rw [hsrv, hcli, he] at htalks
          refine ⟨log, _, _, pending, List.prefix_rfl, h.both hlog hchain hst hclientLog hpending
            hdone htalks.request (fun v hv => hv) rfl ?_ ?_ ?_⟩
          · rw [System.setProc_self]
          · rw [System.setProc_of_ne (by simp), System.setProc_self, hnext]
          · intro d hd
            rw [System.setProc_of_ne (by simp), System.setProc_of_ne (by simpa using hd)]
    | some d =>
      -- two clients never wait at one endpoint
      obtain ⟨clientLog, g, hclientLog, -, -, he', -⟩ := h.client_receive hq
      obtain ⟨hmem, hd⟩ := mem_of_ofClient (hclientLog ▸ List.mem_append_right clientLog (.head _))
      rcases h.client_send hp with ⟨call, t, -, he, -⟩ | ⟨clientLog', f, hclientLog', -, -, he, -⟩
      · exact absurd (he'.symm.trans he) (h.temp_issued g hmem).2
      · obtain ⟨hmem', hc⟩ :=
          mem_of_ofClient (hclientLog' ▸ List.mem_append_right clientLog' (.head _))
        obtain rfl := h.eq_of_temp hmem' hmem (he.symm.trans he')
        exact absurd (congrArg some (hc.symm.trans hd)) hne

/-- A value is given out. -/
theorem fresh [DecidableEq K] (h : V.Inv legal s₀ s log srv cli pending) {p : Option ι} {kind : K}
    {next : ℕ → Proc M K (Party ι S C R p)} {v : ℕ} (hp : s.proc p = some (.fresh kind next))
    (hlegal : legal kind v) (hnew : v ∉ s.issued kind) :
    ∃ srv' cli' pending', V.Inv legal s₀ ((s.setProc p (some (next v))).issue kind v) log srv' cli'
      pending' := by
  have hissued : ∀ w ∈ s.issued V.object,
      w ∈ ((s.setProc p (some (next v))).issue kind v).issued V.object := by
    intro w hw
    by_cases hkind : V.object = kind
    · subst hkind
      simp only [System.issue, Function.update_self]
      exact .tail _ hw
    · simp only [System.issue, Function.update_of_ne hkind]
      exact hw
  cases p with
  | none =>
    have hserver := h.server
    rw [hp] at hserver
    rcases hserver.of_some with ⟨hserve, -⟩ | ⟨log', f, hlog, hst, hchain, hprog⟩
    · cases hserve
    · have htalks := h.talks f (hlog ▸ List.mem_append_right _ (.head _))
      rw [← hprog] at htalks
      refine ⟨_, cli, pending, h.left hlog hchain hst (htalks.freshLeft hlegal) hissued rfl ?_ ?_⟩
      · rw [issue_proc, System.setProc_self]
      · intro c
        rw [issue_proc, System.setProc_of_ne (by simp)]
  | some c =>
    have hclient := h.client c
    rw [hp] at hclient
    rcases hclient.of_some with ⟨call, hpend, hask, hdone⟩ | ⟨call, t, hpend, hgrant, hdone⟩ |
      ⟨log', f, hlog, hpend, hdone, hprog⟩
    · -- the endpoint of a new call
      obtain ⟨rfl, rfl⟩ := Proc.fresh.inj hask
      refine ⟨srv, cli, Function.update pending c (some v), ?_⟩
      have hport : v ≠ V.port := fun heq => hnew (heq ▸ h.port_issued)
      have hlog : ∀ f ∈ log, f.temp ≠ v := fun f hf heq => hnew (heq ▸ (h.temp_issued f hf).1)
      have hpending {d : ι} {e : ℕ} (hd : Function.update pending c (some v) d = some e) :
          (d = c ∧ e = v) ∨ (d ≠ c ∧ pending d = some e) := by
        by_cases hdc : d = c
        · rw [hdc, Function.update_self] at hd
          exact .inl ⟨hdc, (Option.some.inj hd).symm⟩
        · rw [Function.update_of_ne hdc] at hd
          exact .inr ⟨hdc, hd⟩
      have hold {d : ι} (hd : pending d = some v) : False :=
        hnew (h.pending_issued d v hd).1
      constructor
      · exact h.nodup
      · exact fun f hf => ⟨hissued _ (h.temp_issued f hf).1, (h.temp_issued f hf).2⟩
      · exact hissued _ h.port_issued
      · intro d e hd
        rcases hpending hd with ⟨rfl, rfl⟩ | ⟨-, hd⟩
        · refine ⟨?_, hport, hlog⟩
          simp only [System.issue, Function.update_self]
          exact .head _
        · obtain ⟨h₁, h₂, h₃⟩ := h.pending_issued d e hd
          exact ⟨hissued _ h₁, h₂, h₃⟩
      · intro d d' e hd hd'
        rcases hpending hd with ⟨hdc, he⟩ | ⟨hdc, hd⟩ <;>
          rcases hpending hd' with ⟨hdc', he'⟩ | ⟨hdc', hd'⟩
        · exact hdc.trans hdc'.symm
        · exact (hold (he ▸ hd')).elim
        · exact (hold (he' ▸ hd)).elim
        · exact h.pending_inj d d' e hd hd'
      · exact h.talks
      · have hproc : (s.setProc (some c) (some (.send V.port (V.grant v)
            ((V.dialogue call v).bind (finish (s.state (some c)) call))))).proc none =
            s.proc none := System.setProc_of_ne (by simp)
        exact hproc ▸ h.server
      · intro d
        by_cases hdc : d = c
        · subst hdc
          rw [Function.update_self]
          show V.ClientAt cli _ _ (s.state (some d)) ((s.setProc _ _).proc (some d))
          rw [System.setProc_self]
          exact .granting hdone call v
        · rw [Function.update_of_ne hdc]
          show V.ClientAt cli _ _ (s.state (some d)) ((s.setProc _ _).proc (some d))
          rw [System.setProc_of_ne (by simpa using hdc)]
          exact h.client d
    · cases hgrant
    · obtain ⟨next', hcli, hnext⟩ := of_bind_fresh hprog
      have htalks := h.talks f (mem_of_ofClient (hlog ▸ List.mem_append_right log' (.head _))).1
      rw [hcli] at htalks
      refine ⟨srv, _, pending, h.right hlog hpend hdone (htalks.freshRight hlegal) hissued rfl
        ?_ ?_ ?_⟩
      · rw [← hnext, issue_proc, System.setProc_self]
      · rw [issue_proc, System.setProc_of_ne (by simp)]
      · intro d hd
        rw [issue_proc, System.setProc_of_ne (by simpa using hd)]

/-- An answer is chosen. -/
theorem test (h : V.Inv legal s₀ s log srv cli pending) {p : Option ι}
    {next : Bool → Proc M K (Party ι S C R p)} (b : Bool) (hp : s.proc p = some (.test next)) :
    ∃ srv' cli', V.Inv legal s₀ (s.setProc p (some (next b))) log srv' cli' pending := by
  cases p with
  | none =>
    have hserver := h.server
    rw [hp] at hserver
    rcases hserver.of_some with ⟨hserve, -⟩ | ⟨log', f, hlog, hst, hchain, hprog⟩
    · cases hserve
    · have htalks := h.talks f (hlog ▸ List.mem_append_right _ (.head _))
      rw [← hprog] at htalks
      exact ⟨_, cli, h.left hlog hchain hst (htalks.testLeft b) (fun v hv => hv) rfl
        System.setProc_self fun c => System.setProc_of_ne (by simp)⟩
  | some c =>
    have hclient := h.client c
    rw [hp] at hclient
    rcases hclient.of_some with ⟨call, hpend, hask, hdone⟩ | ⟨call, t, hpend, hgrant, hdone⟩ |
      ⟨log', f, hlog, hpend, hdone, hprog⟩
    · cases hask
    · cases hgrant
    · obtain ⟨next', hcli, hnext⟩ := of_bind_test hprog
      have htalks := h.talks f (mem_of_ofClient (hlog ▸ List.mem_append_right log' (.head _))).1
      rw [hcli] at htalks
      refine ⟨srv, _, h.right hlog hpend hdone (htalks.testRight b) (fun v hv => hv) rfl ?_
        (System.setProc_of_ne (by simp)) fun d hd => System.setProc_of_ne (by simpa using hd)⟩
      rw [← hnext]
      exact System.setProc_self

/-- Nobody uses the asynchronous endpoints. -/
theorem not_post (h : V.Inv legal s₀ s log srv cli pending) {p : Option ι} {e : ℕ} {msg : M}
    {next : Proc M K (Party ι S C R p)} (hp : s.proc p = some (.post e msg next)) : False := by
  cases p with
  | none =>
    have hserver := h.server
    rw [hp] at hserver
    rcases hserver.of_some with ⟨hserve, -⟩ | ⟨log', f, hlog, hst, hchain, hprog⟩
    · cases hserve
    · have hover := (h.both_over (hlog ▸ List.mem_append_right _ (.head _))).1
      rw [← hprog] at hover
      cases hover
  | some c =>
    have hclient := h.client c
    rw [hp] at hclient
    rcases hclient.of_some with ⟨call, hpend, hask, hdone⟩ | ⟨call, t, hpend, hgrant, hdone⟩ |
      ⟨log', f, hlog, hpend, hdone, hprog⟩
    · cases hask
    · cases hgrant
    · exact not_over_post
        (h.both_over (mem_of_ofClient (hlog ▸ List.mem_append_right log' (.head _))).1).2 hprog

theorem not_poll (h : V.Inv legal s₀ s log srv cli pending) {p : Option ι} {e : ℕ} {block : Bool}
    {next : Option M → Proc M K (Party ι S C R p)} (hp : s.proc p = some (.poll e block next)) :
    False := by
  cases p with
  | none =>
    have hserver := h.server
    rw [hp] at hserver
    rcases hserver.of_some with ⟨hserve, -⟩ | ⟨log', f, hlog, hst, hchain, hprog⟩
    · cases hserve
    · have hover := (h.both_over (hlog ▸ List.mem_append_right _ (.head _))).1
      rw [← hprog] at hover
      cases hover
  | some c =>
    have hclient := h.client c
    rw [hp] at hclient
    rcases hclient.of_some with ⟨call, hpend, hask, hdone⟩ | ⟨call, t, hpend, hgrant, hdone⟩ |
      ⟨log', f, hlog, hpend, hdone, hprog⟩
    · cases hask
    · cases hgrant
    · exact not_over_poll
        (h.both_over (mem_of_ofClient (hlog ▸ List.mem_append_right log' (.head _))).1).2 hprog

/-- A program returns. -/
theorem finish (h : V.Inv legal s₀ s log srv cli pending) {p : Option ι} {a : Party ι S C R p}
    (hp : s.proc p = some (.ret a)) : V.Inv legal s₀ (s.finish p a) log srv cli pending := by
  cases p with
  | none =>
    have hserver := h.server
    rw [hp] at hserver
    refine h.change (fun v hv => hv) ?_ ?_
    · rcases hserver.of_some with ⟨hserve, -⟩ | ⟨log', f, hlog, hst, hchain, hprog⟩
      · cases hserve
      · rw [System.finish_state_self, System.finish_proc_self, hlog]
        exact .rest (hchain.concat hprog.symm)
    · intro c
      rw [System.finish_state_of_ne (by simp), System.finish_proc_of_ne (by simp)]
      exact h.client c
  | some c =>
    have hclient := h.client c
    rw [hp] at hclient
    refine h.change (fun v hv => hv) ?_ ?_
    · rw [System.finish_state_of_ne (by simp), System.finish_proc_of_ne (by simp)]
      exact h.server
    · intro d
      by_cases hdc : d = c
      · subst hdc
        rw [System.finish_state_self, System.finish_proc_self]
        rcases hclient.of_some with ⟨call, hpend, hask, hdone⟩ | ⟨call, t, hpend, hgrant, hdone⟩ |
          ⟨log', f, hlog, hpend, hdone, hprog⟩
        · cases hask
        · cases hgrant
        · obtain ⟨r, hcli, rfl⟩ := of_bind_ret hprog
          rw [hlog, hpend]
          exact .rest (hdone.concat hcli)
      · rw [System.finish_state_of_ne (by simpa using hdc),
          System.finish_proc_of_ne (by simpa using hdc)]
        exact h.client d

/-- A program is started. -/
theorem begin (h : V.Inv legal s₀ s log srv cli pending) {p : Option ι} (call : C)
    (hp : s.proc p = none) :
    V.Inv legal s₀ (s.setProc p (some (V.start ι p (s.state p) call))) log srv cli pending := by
  cases p with
  | none =>
    have hserver := h.server
    rw [hp] at hserver
    refine h.change (fun v hv => hv) ?_ ?_
    · rw [System.setProc_self]
      exact .listening hserver.of_none
    · intro c
      rw [System.setProc_of_ne (by simp)]
      exact h.client c
  | some c =>
    have hclient := h.client c
    rw [hp] at hclient
    obtain ⟨hdone, hpend⟩ := hclient.of_none
    refine h.change (fun v hv => hv) ?_ ?_
    · rw [System.setProc_of_ne (by simp)]
      exact h.server
    · intro d
      by_cases hdc : d = c
      · subst hdc
        rw [System.setProc_self, hpend]
        exact .asking hdone call
      · rw [System.setProc_of_ne (by simpa using hdc)]
        exact h.client d

/-- **A step keeps the calls that were taken, and it may add one.** -/
theorem step [DecidableEq K] (h : V.Inv legal s₀ s log srv cli pending)
    (hs : System.Step legal (V.start ι) s s') :
    ∃ log' srv' cli' pending', log <+: log' ∧ V.Inv legal s₀ s' log' srv' cli' pending' := by
  cases hs with
  | rendezvous hne hp hq => exact h.rendezvous hne hp hq
  | post hp => exact (h.not_post hp).elim
  | poll hp hq => exact (h.not_poll hp).elim
  | pollNone hp hq => exact (h.not_poll hp).elim
  | fresh hp hlegal hnew =>
    obtain ⟨srv', cli', pending', hinv⟩ := h.fresh hp hlegal hnew
    exact ⟨log, srv', cli', pending', List.prefix_rfl, hinv⟩
  | test b hp =>
    obtain ⟨srv', cli', hinv⟩ := h.test b hp
    exact ⟨log, srv', cli', pending, List.prefix_rfl, hinv⟩
  | finish hp => exact ⟨log, srv, cli, pending, List.prefix_rfl, h.finish hp⟩
  | start call hp => exact ⟨log, srv, cli, pending, List.prefix_rfl, h.begin call hp⟩

/-- The run of a system only adds calls. -/
theorem reaches [DecidableEq K] (h : V.Inv legal s₀ s log srv cli pending)
    (hs : System.Reaches legal (V.start ι) s s') :
    ∃ log' srv' cli' pending', log <+: log' ∧ V.Inv legal s₀ s' log' srv' cli' pending' := by
  induction hs with
  | refl => exact ⟨log, srv, cli, pending, List.prefix_rfl, h⟩
  | tail _ hs ih =>
    obtain ⟨log₁, srv₁, cli₁, pending₁, hlog₁, h₁⟩ := ih
    obtain ⟨log₂, srv₂, cli₂, pending₂, hlog₂, h₂⟩ := h₁.step hs
    exact ⟨log₂, srv₂, cli₂, pending₂, hlog₁.trans hlog₂, h₂⟩

theorem init [DecidableEq K] (V : Service M K S C R) (s₀ : S) :
    V.Inv legal s₀ (V.initial ι s₀) [] (fun _ => .abort) (fun _ => .abort) fun _ => none := by
  constructor
  · exact List.nodup_nil
  · exact fun f hf => absurd hf List.not_mem_nil
  · simp [initial]
  · exact fun c e hc => by cases hc
  · exact fun c d e hc => by cases hc
  · exact fun f hf => absurd hf List.not_mem_nil
  · exact .rest .nil
  · exact fun c => .rest .nil

end Inv

end Service

end C4OS.Foundations
