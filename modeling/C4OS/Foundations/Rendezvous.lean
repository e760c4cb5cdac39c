import Mathlib.Logic.Function.Basic
import Mathlib.Logic.Relation
import Mathlib.Data.List.Basic

/-!
# Programs that exchange messages

Sequential programs that talk over endpoints. A synchronous message passes when the sender and the
receiver wait at the same endpoint (`Step.rendezvous`), an asynchronous one is put into the queue of
its endpoint and taken out of it later. A program also asks for fresh values of several kinds
(objects, numbers, pieces of memory), and for answers that its surroundings choose.

The programs of a `System` run in any interleaving. A program that has returned waits for its
application to start the next one with what it returned (`Step.start`), so that a server is the
program of one turn. `Reaches.induction` is the induction over the steps of a run.
-/

namespace C4OS.Foundations

/-- A program with messages of type `M`, that asks for fresh values of the kinds `K` and returns a
value of type `A`. -/
inductive Proc (M K A : Type) where
  | ret (a : A)
  | abort
  | send (e : ℕ) (msg : M) (next : Proc M K A)
  | receive (e : ℕ) (next : M → Proc M K A)
  | post (e : ℕ) (msg : M) (next : Proc M K A)
  | poll (e : ℕ) (block : Bool) (next : Option M → Proc M K A)
  | fresh (kind : K) (next : ℕ → Proc M K A)
  | test (next : Bool → Proc M K A)

namespace Proc

variable {M K A B : Type}

/-- One program after another. -/
def bind : Proc M K A → (A → Proc M K B) → Proc M K B
  | ret a, f => f a
  | abort, _ => abort
  | send e msg next, f => send e msg (next.bind f)
  | receive e next, f => receive e fun msg => (next msg).bind f
  | post e msg next, f => post e msg (next.bind f)
  | poll e block next, f => poll e block fun msg => (next msg).bind f
  | fresh kind next, f => fresh kind fun v => (next v).bind f
  | test next, f => test fun b => (next b).bind f

instance : Monad (Proc M K) where
  pure := ret
  bind := bind

@[simp] theorem pure_eq (a : A) : (pure a : Proc M K A) = ret a := rfl

@[simp] theorem bind_eq (x : Proc M K A) (f : A → Proc M K B) : (x >>= f) = x.bind f := rfl

@[simp] theorem map_eq (f : A → B) (x : Proc M K A) : f <$> x = x.bind fun a => ret (f a) := rfl

theorem bind_assoc {C : Type} (x : Proc M K A) (f : A → Proc M K B) (g : B → Proc M K C) :
    (x.bind f).bind g = x.bind fun a => (f a).bind g := by
  induction x with
  | ret a => rfl
  | abort => rfl
  | send e msg next ih => simp only [bind, ih]
  | receive e next ih => simp only [bind, ih]
  | post e msg next ih => simp only [bind, ih]
  | poll e block next ih => simp only [bind, ih]
  | fresh kind next ih => simp only [bind, ih]
  | test next ih => simp only [bind, ih]

end Proc

/-- What the parties know between their programs, the programs that they run, the queues of the
asynchronous endpoints, and the fresh values that were given out. -/
structure System (P M K : Type) (σ : P → Type) where
  state : ∀ p, σ p
  proc : ∀ p, Option (Proc M K (σ p))
  queue : ℕ → List M
  issued : K → List ℕ

namespace System

variable {P M K C : Type} {σ : P → Type}

/-- An endpoint has another queue. -/
def setQueue (s : System P M K σ) (e : ℕ) (msgs : List M) : System P M K σ :=
  { s with queue := Function.update s.queue e msgs }

/-- A fresh value is given out. -/
def issue [DecidableEq K] (s : System P M K σ) (kind : K) (v : ℕ) : System P M K σ :=
  { s with issued := Function.update s.issued kind (v :: s.issued kind) }

section Queues

variable {s : System P M K σ} {e e' : ℕ} {msgs : List M}

@[simp] theorem setQueue_state : (s.setQueue e msgs).state = s.state := rfl

@[simp] theorem setQueue_proc : (s.setQueue e msgs).proc = s.proc := rfl

@[simp] theorem setQueue_self : (s.setQueue e msgs).queue e = msgs := Function.update_self ..

theorem setQueue_of_ne (h : e' ≠ e) : (s.setQueue e msgs).queue e' = s.queue e' :=
  Function.update_of_ne h ..

end Queues

variable [DecidableEq P]

/-- The system with another program of a party. -/
def setProc (s : System P M K σ) (p : P) (prog : Option (Proc M K (σ p))) : System P M K σ :=
  { s with proc := Function.update s.proc p prog }

/-- A party ends its program. -/
def finish (s : System P M K σ) (p : P) (a : σ p) : System P M K σ :=
  { s.setProc p none with state := Function.update s.state p a }

section Lemmas

variable {s : System P M K σ} {p q : P} {prog : Option (Proc M K (σ p))} {a : σ p}

@[simp] theorem setProc_self : (s.setProc p prog).proc p = prog := Function.update_self ..

theorem setProc_of_ne (h : q ≠ p) : (s.setProc p prog).proc q = s.proc q :=
  Function.update_of_ne h ..

@[simp] theorem finish_proc_self : (s.finish p a).proc p = none := Function.update_self ..

theorem finish_proc_of_ne (h : q ≠ p) : (s.finish p a).proc q = s.proc q :=
  Function.update_of_ne h ..

@[simp] theorem finish_state_self : (s.finish p a).state p = a := Function.update_self ..

theorem finish_state_of_ne (h : q ≠ p) : (s.finish p a).state q = s.state q :=
  Function.update_of_ne h ..

@[simp] theorem setProc_state : (s.setProc p prog).state = s.state := rfl

@[simp] theorem setProc_queue : (s.setProc p prog).queue = s.queue := rfl

@[simp] theorem finish_queue : (s.finish p a).queue = s.queue := rfl

end Lemmas

variable [DecidableEq K]

/-- One step of a system. `legal` says which values of a kind there are, and `start` which program
the application of a party starts with a call. -/
inductive Step (legal : K → ℕ → Prop) (start : ∀ p, σ p → C → Proc M K (σ p))
    (s : System P M K σ) : System P M K σ → Prop
  | rendezvous {p q : P} {e : ℕ} {msg : M} {next : Proc M K (σ p)} {next' : M → Proc M K (σ q)}
      (hne : p ≠ q) (hp : s.proc p = some (.send e msg next))
      (hq : s.proc q = some (.receive e next')) :
      Step legal start s ((s.setProc p (some next)).setProc q (some (next' msg)))
  | post {p : P} {e : ℕ} {msg : M} {next : Proc M K (σ p)}
      (hp : s.proc p = some (.post e msg next)) :
      Step legal start s ((s.setProc p (some next)).setQueue e (s.queue e ++ [msg]))
  | poll {p : P} {e : ℕ} {block : Bool} {msg : M} {rest : List M}
      {next : Option M → Proc M K (σ p)} (hp : s.proc p = some (.poll e block next))
      (hq : s.queue e = msg :: rest) :
      Step legal start s ((s.setProc p (some (next (some msg)))).setQueue e rest)
  | pollNone {p : P} {e : ℕ} {next : Option M → Proc M K (σ p)}
      (hp : s.proc p = some (.poll e false next)) (hq : s.queue e = []) :
      Step legal start s (s.setProc p (some (next none)))
  | fresh {p : P} {kind : K} {next : ℕ → Proc M K (σ p)} {v : ℕ}
      (hp : s.proc p = some (.fresh kind next)) (hlegal : legal kind v)
      (hnew : v ∉ s.issued kind) :
      Step legal start s ((s.setProc p (some (next v))).issue kind v)
  | test {p : P} {next : Bool → Proc M K (σ p)} (b : Bool)
      (hp : s.proc p = some (.test next)) : Step legal start s (s.setProc p (some (next b)))
  | finish {p : P} {a : σ p} (hp : s.proc p = some (.ret a)) : Step legal start s (s.finish p a)
  | start {p : P} (call : C) (hp : s.proc p = none) :
      Step legal start s (s.setProc p (some (start p (s.state p) call)))

/-- The second system comes after the first in a run. -/
def Reaches (legal : K → ℕ → Prop) (start : ∀ p, σ p → C → Proc M K (σ p)) :
    System P M K σ → System P M K σ → Prop :=
  Relation.ReflTransGen (Step legal start)

variable {legal : K → ℕ → Prop} {start : ∀ p, σ p → C → Proc M K (σ p)} {s₀ s : System P M K σ}

/-- What holds at the beginning, and after each step from a state where it holds, holds in every
state of a run. -/
theorem Reaches.induction (inv : System P M K σ → Prop) (h : Reaches legal start s₀ s)
    (hinit : inv s₀) (hstep : ∀ s s', inv s → Step legal start s s' → inv s') : inv s := by
  induction h with
  | refl => exact hinit
  | tail _ hs ih => exact hstep _ _ ih hs

end System

end C4OS.Foundations
