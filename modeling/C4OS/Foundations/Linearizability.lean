import C4OS.Foundations.Sessions
import Mathlib.Logic.Function.Iterate

/-!
# Services that are atomic

A service is atomic when each conversation of its server with a client does what an operation on an
abstract state does (`Service.Atomic`). Then it is linearizable (`Service.linearizable`): for every
state of a run there is one order of calls that explains the state of the server and the results of
all clients (`Service.Explains`), and this order only grows while the run goes on. So a call that
returned before another one was made comes before it.
-/

namespace C4OS.Foundations

/-! ## Conversations without choices -/

section Plain

variable {M K A B : Type} {legal : K → ℕ → Prop} {e : ℕ} {p₀ p : Proc M K A} {q₀ q : Proc M K B}
  {a a' : A} {b b' : B}

/-- A program that only sends and receives, over one endpoint. -/
inductive Proc.Plain (e : ℕ) : Proc M K A → Prop
  | ret (a : A) : Plain e (.ret a)
  | abort : Plain e .abort
  | send {msg : M} {next : Proc M K A} (h : Plain e next) : Plain e (.send e msg next)
  | receive {next : M → Proc M K A} (h : ∀ msg, Plain e (next msg)) : Plain e (.receive e next)

theorem Proc.Plain.over (h : p.Plain e) : p.Over e := by
  induction h with
  | ret a => exact .ret a
  | abort => exact .abort
  | send h ih => exact .send ih
  | receive h ih => exact .receive ih

/-- A message passes between two programs, if one does. -/
def converse : Proc M K A × Proc M K B → Proc M K A × Proc M K B
  | (.receive _ next, .send _ msg next') => (next msg, next')
  | (.send _ msg next, .receive _ next') => (next, next' msg)
  | pq => pq

/-- Plain programs get as far as the messages that pass. -/
theorem Talks.iterate (h : Talks legal e p₀ q₀ p q) (hp : p₀.Plain e) (hq : q₀.Plain e) :
    (∃ n, converse^[n] (p₀, q₀) = (p, q)) ∧ p.Plain e ∧ q.Plain e := by
  induction h with
  | start => exact ⟨⟨0, rfl⟩, hp, hq⟩
  | request h ih =>
    obtain ⟨⟨n, hn⟩, h₁, h₂⟩ := ih
    cases h₁ with
    | receive h₁ =>
      cases h₂ with
      | send h₂ =>
        refine ⟨⟨n + 1, ?_⟩, h₁ _, h₂⟩
        rw [Function.iterate_succ_apply', hn]
        rfl
  | reply h ih =>
    obtain ⟨⟨n, hn⟩, h₁, h₂⟩ := ih
    cases h₁ with
    | send h₁ =>
      cases h₂ with
      | receive h₂ =>
        refine ⟨⟨n + 1, ?_⟩, h₁, h₂ _⟩
        rw [Function.iterate_succ_apply', hn]
        rfl
  | freshLeft h hlegal ih => cases ih.2.1
  | freshRight h hlegal ih => cases ih.2.2
  | testLeft b h ih => cases ih.2.1
  | testRight b h ih => cases ih.2.2

/-- A program that has returned stays. -/
theorem converse_ret_left (n : ℕ) :
    (converse^[n] ((.ret a, q) : Proc M K A × Proc M K B)).1 = .ret a := by
  induction n with
  | zero => rfl
  | succ n ih =>
    rw [Function.iterate_succ_apply]
    exact ih

theorem converse_ret_right (n : ℕ) :
    (converse^[n] ((p, .ret b) : Proc M K A × Proc M K B)).2 = .ret b := by
  induction n with
  | zero => rfl
  | succ n ih =>
    have hstep : converse ((p, .ret b) : Proc M K A × Proc M K B) = (p, .ret b) := by
      cases p <;> rfl
    rw [Function.iterate_succ_apply, hstep]
    exact ih

/-- The results are those of the whole conversation. -/
theorem Talks.ret_left (h : Talks legal e p₀ q₀ (.ret a) q) (hp : p₀.Plain e) (hq : q₀.Plain e)
    {n : ℕ} (hn : (converse^[n] (p₀, q₀)).1 = .ret a') : a = a' := by
  obtain ⟨⟨m, hm⟩, -⟩ := h.iterate hp hq
  have hleft := converse_ret_left (a := a) (q := q) n
  rw [← hm, ← Function.iterate_add_apply, Nat.add_comm, Function.iterate_add_apply] at hleft
  generalize converse^[n] (p₀, q₀) = pq at hn hleft
  obtain ⟨p', q'⟩ := pq
  obtain rfl : p' = .ret a' := hn
  rw [converse_ret_left] at hleft
  exact (Proc.ret.inj hleft).symm

theorem Talks.ret_right (h : Talks legal e p₀ q₀ p (.ret b)) (hp : p₀.Plain e) (hq : q₀.Plain e)
    {n : ℕ} (hn : (converse^[n] (p₀, q₀)).2 = .ret b') : b = b' := by
  obtain ⟨⟨m, hm⟩, -⟩ := h.iterate hp hq
  have hright := converse_ret_right (p := p) (b := b) n
  rw [← hm, ← Function.iterate_add_apply, Nat.add_comm, Function.iterate_add_apply] at hright
  generalize converse^[n] (p₀, q₀) = pq at hn hright
  obtain ⟨p', q'⟩ := pq
  obtain rfl : q' = .ret b' := hn
  rw [converse_ret_right] at hright
  exact (Proc.ret.inj hright).symm

end Plain

/-! ## Linearizability -/

namespace Service

variable {M K S C R A ι : Type}

/-- The abstract state behind some calls. -/
def stateAfter (next : A → C → A) (a : A) (log : List (ι × C)) : A :=
  log.foldl (fun a x => next a x.2) a

/-- The calls of a client with their results. -/
def resultsOf [DecidableEq ι] (next : A → C → A) (result : A → C → R) (c : ι) :
    A → List (ι × C) → List (C × R)
  | _, [] => []
  | a, x :: log =>
    if x.1 = c then (x.2, result a x.2) :: resultsOf next result c (next a x.2) log
    else resultsOf next result c (next a x.2) log

/-- A conversation does what an operation on the abstract state does. The server may be behind the
client, and the other way round. -/
structure Atomic (V : Service M K S C R) (legal : K → ℕ → Prop) (rep : S → A → Prop)
    (next : A → C → A) (result : A → C → R) : Prop where
  session : ∀ {s a c e s' q}, rep s a →
    Talks legal e (V.session s e) (V.dialogue c e) (.ret s') q → rep s' (next a c)
  dialogue : ∀ {s a c e p r}, rep s a →
    Talks legal e (V.session s e) (V.dialogue c e) p (.ret r) → r = result a c

/-- An order of the calls explains a state: the server is behind all calls, or it is in the last
one, and each client got the results of its calls, but for the one that it is in. -/
structure Explains [DecidableEq ι] (rep : S → A → Prop) (next : A → C → A) (result : A → C → R)
    (a₀ : A) (s : System (Option ι) M K (Party ι S C R)) (log : List (ι × C)) : Prop where
  server : rep (s.state none) (stateAfter next a₀ log) ∨
    s.proc none ≠ none ∧ rep (s.state none) (stateAfter next a₀ log.dropLast)
  client : ∀ c, s.state (some c) <+: resultsOf next result c a₀ log
  length_le : ∀ c, (resultsOf next result c a₀ log).length ≤ (s.state (some c)).length + 1
  returned : ∀ c, s.proc (some c) = none → s.state (some c) = resultsOf next result c a₀ log

section

variable {V : Service M K S C R} {legal : K → ℕ → Prop} {rep : S → A → Prop} {next : A → C → A}
  {result : A → C → R} {s₀ st : S} {a₀ a : A} {log pre : List (Session ι S C)}
  {srv : ℕ → Proc M K S} {cli : ℕ → Proc M K R} {pending : ι → Option ℕ} {hist : List (C × R)}
  {s s' : System (Option ι) M K (Party ι S C R)} {c : ι}

/-- Who called, and what. -/
def Session.asked (f : Session ι S C) : ι × C := (f.client, f.call)

/-- Each call was taken in a state that stands for the abstract one. -/
def Fits (rep : S → A → Prop) (next : A → C → A) : A → List (Session ι S C) → Prop
  | _, [] => True
  | a, f :: log => rep f.before a ∧ Fits rep next (next a f.call) log

theorem stateAfter_concat (a : A) (log : List (ι × C)) (x : ι × C) :
    stateAfter next a (log ++ [x]) = next (stateAfter next a log) x.2 := by
  rw [stateAfter, List.foldl_append]
  rfl

theorem Fits.concat {f : Session ι S C} (h : Fits rep next a log)
    (hf : rep f.before (stateAfter next a (log.map Session.asked))) :
    Fits rep next a (log ++ [f]) := by
  induction log generalizing a with
  | nil => exact ⟨hf, trivial⟩
  | cons g log ih => exact ⟨h.1, ih h.2 hf⟩

/-- The server is behind the calls that it went through. -/
theorem Chain.fits (hatomic : V.Atomic legal rep next result) (h₀ : rep s₀ a₀)
    (h : Chain s₀ srv log st)
    (htalks : ∀ f ∈ log, Talks legal f.temp (V.session f.before f.temp) (V.dialogue f.call f.temp)
      (srv f.temp) (cli f.temp)) :
    Fits rep next a₀ log ∧ rep st (stateAfter next a₀ (log.map Session.asked)) := by
  induction h with
  | nil => exact ⟨trivial, h₀⟩
  | @concat log f st h hret ih =>
    obtain ⟨hfits, hrep⟩ := ih fun g hg => htalks g (List.mem_append_left _ hg)
    have htalk := htalks f (List.mem_append_right _ (.head _))
    rw [hret] at htalk
    refine ⟨hfits.concat hrep, ?_⟩
    rw [List.map_append, List.map_singleton, stateAfter_concat]
    exact hatomic.session hrep htalk

variable [DecidableEq ι]

theorem resultsOf_cons (f : Session ι S C) :
    resultsOf next result c a ((f :: log).map Session.asked) =
      if f.client = c then
        (f.call, result a f.call) ::
          resultsOf next result c (next a f.call) (log.map Session.asked)
      else resultsOf next result c (next a f.call) (log.map Session.asked) := rfl

/-- The results of a client are those of the operations. -/
theorem Done.prefix_results (hatomic : V.Atomic legal rep next result) (hfits : Fits rep next a log)
    (htalks : ∀ f ∈ log, Talks legal f.temp (V.session f.before f.temp) (V.dialogue f.call f.temp)
      (srv f.temp) (cli f.temp))
    (h : Done cli pre hist) (hpre : pre <+: ofClient c log) :
    hist <+: resultsOf next result c a (log.map Session.asked) := by
  induction log generalizing a pre hist with
  | nil =>
    obtain rfl := List.prefix_nil.1 hpre
    cases h
    exact List.nil_prefix
  | cons f log ih =>
    have htalks' : ∀ g ∈ log, Talks legal g.temp (V.session g.before g.temp)
        (V.dialogue g.call g.temp) (srv g.temp) (cli g.temp) := fun g hg => htalks g (.tail _ hg)
    rw [resultsOf_cons]
    by_cases hc : f.client = c
    · have hclient : ofClient c (f :: log) = f :: ofClient c log := by simp [ofClient, hc]
      rw [hclient] at hpre
      rw [if_pos hc]
      cases h with
      | nil => exact List.nil_prefix
      | @cons g x pre hist hx h =>
        obtain ⟨rfl, hrest⟩ := List.cons_prefix_cons.1 hpre
        obtain ⟨call, r⟩ := x
        obtain ⟨hcall, hret⟩ := hx
        have htalk := htalks g (.head _)
        rw [hret] at htalk
        obtain rfl : g.call = call := hcall
        obtain rfl : r = result a g.call := hatomic.dialogue hfits.1 htalk
        exact List.cons_prefix_cons.2 ⟨rfl, ih hfits.2 htalks' h hrest⟩
    · have hclient : ofClient c (f :: log) = ofClient c log := by simp [ofClient, hc]
      rw [hclient] at hpre
      rw [if_neg hc]
      exact ih hfits.2 htalks' h hpre

theorem length_resultsOf (a : A) (log : List (Session ι S C)) :
    (resultsOf next result c a (log.map Session.asked)).length = (ofClient c log).length := by
  induction log generalizing a with
  | nil => rfl
  | cons f log ih =>
    rw [resultsOf_cons]
    by_cases hc : f.client = c
    · have hclient : ofClient c (f :: log) = f :: ofClient c log := by simp [ofClient, hc]
      rw [if_pos hc, hclient, List.length_cons, List.length_cons, ih]
    · have hclient : ofClient c (f :: log) = ofClient c log := by simp [ofClient, hc]
      rw [if_neg hc, hclient, ih]

/-- The calls that were taken explain the state. -/
theorem Inv.explains (hatomic : V.Atomic legal rep next result) (h₀ : rep s₀ a₀)
    (h : V.Inv legal s₀ s log srv cli pending) :
    Explains rep next result a₀ s (log.map Session.asked) := by
  -- the last call may be under way, and the chain goes to the one before it
  have hserver : Fits rep next a₀ log ∧
      (rep (s.state none) (stateAfter next a₀ (log.map Session.asked)) ∨
        s.proc none ≠ none ∧
          rep (s.state none) (stateAfter next a₀ (log.map Session.asked).dropLast)) := by
    have hat := h.server
    cases hproc : s.proc none with
    | none =>
      rw [hproc] at hat
      obtain ⟨hfits, hrep⟩ := hat.of_none.fits hatomic h₀ h.talks
      exact ⟨hfits, .inl hrep⟩
    | some p =>
      rw [hproc] at hat
      rcases hat.of_some with ⟨-, hchain⟩ | ⟨log', f, hlog, hst, hchain, -⟩
      · obtain ⟨hfits, hrep⟩ := hchain.fits hatomic h₀ h.talks
        exact ⟨hfits, .inl hrep⟩
      · have htalks := h.talks
        rw [hlog] at htalks
        obtain ⟨hfits, hrep⟩ := hchain.fits hatomic h₀ fun g hg =>
          htalks g (List.mem_append_left _ hg)
        rw [hlog]
        refine ⟨hfits.concat hrep, .inr ⟨Option.some_ne_none p, ?_⟩⟩
        rwa [List.map_append, List.map_singleton, List.dropLast_concat, hst]
  obtain ⟨hfits, hserver⟩ := hserver
  have hclient (c : ι) : ∃ pre, Done cli pre (s.state (some c)) ∧ pre <+: ofClient c log ∧
      (ofClient c log).length ≤ pre.length + 1 ∧
      (s.proc (some c) = none → pre = ofClient c log) := by
    have hat := h.client c
    cases hproc : s.proc (some c) with
    | none =>
      rw [hproc] at hat
      exact ⟨_, hat.of_none.1, List.prefix_rfl, Nat.le_succ _, fun _ => rfl⟩
    | some p =>
      rw [hproc] at hat
      rcases hat.of_some with ⟨call, -, -, hdone⟩ | ⟨call, t, -, -, hdone⟩ |
        ⟨log', f, hlog, -, hdone, -⟩
      · exact ⟨_, hdone, List.prefix_rfl, Nat.le_succ _, fun _ => rfl⟩
      · exact ⟨_, hdone, List.prefix_rfl, Nat.le_succ _, fun _ => rfl⟩
      · refine ⟨log', hdone, ?_, ?_, fun hnone => by cases hnone⟩
        · rw [hlog]
          exact List.prefix_append _ _
        · rw [hlog]
          exact Nat.le_of_eq List.length_append
  refine ⟨hserver, fun c => ?_, fun c => ?_, fun c hnone => ?_⟩ <;>
    obtain ⟨pre, hdone, hpre, hlength, hreturned⟩ := hclient c
  · exact hdone.prefix_results hatomic hfits h.talks hpre
  · rw [length_resultsOf, ← hdone.length_eq]
    exact hlength
  · apply (hdone.prefix_results hatomic hfits h.talks hpre).eq_of_length
    rw [length_resultsOf, ← hdone.length_eq, hreturned hnone]

/-- **An atomic service is linearizable.** -/
theorem linearizable [DecidableEq K] (hatomic : V.Atomic legal rep next result) (h₀ : rep s₀ a₀)
    (h : System.Reaches legal (V.start ι) (V.initial ι s₀) s) :
    ∃ log, Explains rep next result a₀ s log ∧
      ∀ s', System.Reaches legal (V.start ι) s s' →
        ∃ log', log <+: log' ∧ Explains rep next result a₀ s' log' := by
  obtain ⟨log, srv, cli, pending, -, hinv⟩ := (Inv.init V s₀).reaches h
  refine ⟨_, hinv.explains hatomic h₀, fun s' hs => ?_⟩
  obtain ⟨log', srv', cli', pending', hlog, hinv'⟩ := hinv.reaches hs
  exact ⟨_, hlog.map _, hinv'.explains hatomic h₀⟩

end

end Service

end C4OS.Foundations
