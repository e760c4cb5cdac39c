import Mathlib.Data.Nat.Notation
import Mathlib.Tactic.TypeStar

/-!
# Programs that may fault

A program on a state ends with a value and another state, or it stops and says why. Some of the
reasons are faults, `F`. That a program faults in a state is shown along its run (`Faults.bind`,
`Faults.of_ok`), and that it never does from its parts, with what their values satisfy (`Avoids`).

A function without a result where the program stops is the same program with less said about it:
what the function does the program does (`Extends`), and for a function that only reads the state
its value is the program's (`Observes`).
-/

namespace C4OS.Foundations

universe u v

/-- A program on states `σ` that may stop for a reason in `ε`. -/
abbrev Faulting (σ : Type u) (ε : Type v) (α : Type u) := StateT σ (Except ε) α

variable {σ α β : Type u} {ε : Type v} {F : ε → Prop} {m : Faulting σ ε α} {k : α → Faulting σ ε β}
  {s t : σ} {a : α} {e : ε} {P Q : α → Prop} {R : β → Prop}

namespace Faulting

/-- A function as a program that stops for the reason `e` where there is no result. -/
def act (e : ε) (f : σ → Option (σ × α)) : Faulting σ ε α := fun s =>
  match f s with
  | some (t, a) => .ok (a, t)
  | none => .error e

/-- A function that only reads the state. -/
def read (e : ε) (f : σ → Option α) : Faulting σ ε α := act e fun s => (f s).map fun a => (s, a)

theorem run_bind_of_ok (h : m.run s = .ok (a, t)) : (m >>= k).run s = (k a).run t := by
  show (m.run s >>= fun x => (k x.1).run x.2) = _
  rw [h]
  rfl

theorem run_bind_of_error (h : m.run s = .error e) : (m >>= k).run s = .error e := by
  show (m.run s >>= fun x => (k x.1).run x.2) = _
  rw [h]
  rfl

theorem run_act_of_some {f : σ → Option (σ × α)} (h : f s = some (t, a)) :
    (act e f).run s = .ok (a, t) := by
  show (match f s with | some (t, a) => _ | none => _) = _
  rw [h]

theorem run_act_of_none {f : σ → Option (σ × α)} (h : f s = none) :
    (act e f).run s = .error e := by
  show (match f s with | some (t, a) => _ | none => _) = _
  rw [h]

theorem run_read_of_some {f : σ → Option α} (h : f s = some a) :
    (read e f).run s = .ok (a, s) := run_act_of_some (by rw [h]; rfl)

theorem run_read_of_none {f : σ → Option α} (h : f s = none) :
    (read e f).run s = .error e := run_act_of_none (by rw [h]; rfl)

end Faulting

open Faulting

/-! ## Faults -/

/-- The program stops in the state for a reason in `F`. -/
def Faults (F : ε → Prop) (m : Faulting σ ε α) (s : σ) : Prop := ∃ e, m.run s = .error e ∧ F e

theorem faults_throw (h : F e) : Faults F (throw e : Faulting σ ε α) s := ⟨e, rfl, h⟩

theorem faults_act {f : σ → Option (σ × α)} (h : f s = none) (he : F e) :
    Faults F (act e f) s := ⟨e, run_act_of_none h, he⟩

theorem faults_read {f : σ → Option α} (h : f s = none) (he : F e) : Faults F (read e f) s :=
  ⟨e, run_read_of_none h, he⟩

/-- A sequence faults if its first part does. -/
theorem Faults.bind (h : Faults F m s) : Faults F (m >>= k) s := by
  obtain ⟨e, he, hF⟩ := h
  exact ⟨e, run_bind_of_error he, hF⟩

/-- A sequence faults if its second part does where the first one leads to. -/
theorem Faults.of_ok (h : m.run s = .ok (a, t)) (hk : Faults F (k a) t) :
    Faults F (m >>= k) s := by
  obtain ⟨e, he, hF⟩ := hk
  exact ⟨e, (run_bind_of_ok h).trans he, hF⟩

/-- A sequence that faults does so in one of its parts. -/
theorem Faults.of_bind (h : Faults F (m >>= k) s) :
    Faults F m s ∨ ∃ a t, m.run s = .ok (a, t) ∧ Faults F (k a) t := by
  obtain ⟨e, he, hF⟩ := h
  cases hm : m.run s with
  | error e' =>
    rw [run_bind_of_error hm] at he
    cases he
    exact .inl ⟨_, hm, hF⟩
  | ok x => exact .inr ⟨x.1, x.2, rfl, e, by rw [← run_bind_of_ok hm, he], hF⟩

/-! ## Programs without faults -/

/-- The program faults in no state, and its values satisfy `Q`. -/
def Avoids (F : ε → Prop) (m : Faulting σ ε α) (Q : α → Prop) : Prop :=
  ∀ s, ¬ Faults F m s ∧ ∀ a t, m.run s = .ok (a, t) → Q a

namespace Avoids

theorem pure (h : Q a) : Avoids F (pure a : Faulting σ ε α) Q := by
  refine fun s => ⟨fun ⟨_, he, _⟩ => (nomatch he), fun b t hb => ?_⟩
  cases hb
  exact h

theorem throw (h : ¬ F e) : Avoids F (throw e : Faulting σ ε α) Q := by
  refine fun s => ⟨fun ⟨e', he, hF⟩ => ?_, fun b t hb => nomatch hb⟩
  cases he
  exact h hF

/-- A sequence is without faults if its second part is for the values of the first one. -/
theorem bind (hm : Avoids F m P) (hk : ∀ a, P a → Avoids F (k a) R) : Avoids F (m >>= k) R := by
  intro s
  cases h : m.run s with
  | error e =>
    refine ⟨fun ⟨e', he, hF⟩ => (hm s).1 ⟨e, h, ?_⟩, fun b t hb => ?_⟩
    · rw [run_bind_of_error h] at he
      cases he
      exact hF
    · rw [run_bind_of_error h] at hb
      cases hb
  | ok x =>
    rw [Faults, run_bind_of_ok h]
    exact hk x.1 ((hm s).2 x.1 x.2 h) x.2

theorem mono (h : Avoids F m P) (hQ : ∀ a, P a → Q a) : Avoids F m Q :=
  fun s => ⟨(h s).1, fun a t ht => hQ a ((h s).2 a t ht)⟩

/-- A function as a program, when the reason to stop is no fault. -/
theorem act {f : σ → Option (σ × α)} (he : ¬ F e) (h : ∀ s a t, f s = some (t, a) → Q a) :
    Avoids F (act e f) Q := by
  intro s
  cases hf : f s with
  | none =>
    refine ⟨fun ⟨e', he', hF⟩ => ?_, fun b t hb => ?_⟩
    · rw [run_act_of_none hf] at he'
      cases he'
      exact he hF
    · rw [run_act_of_none hf] at hb
      cases hb
  | some x =>
    refine ⟨fun ⟨e', he', _⟩ => ?_, fun b t hb => ?_⟩
    · rw [run_act_of_some hf] at he'
      cases he'
    · rw [run_act_of_some hf] at hb
      cases hb
      exact h s _ _ hf

/-- A function as a program, when there always is a result. -/
theorem act_of_some {f : σ → Option (σ × α)} (h : ∀ s, ∃ t a, f s = some (t, a) ∧ Q a) :
    Avoids F (Faulting.act e f) Q := by
  intro s
  obtain ⟨t, a, hf, hQ⟩ := h s
  refine ⟨fun ⟨e', he', _⟩ => ?_, fun b t hb => ?_⟩
  · rw [run_act_of_some hf] at he'
    cases he'
  · rw [run_act_of_some hf] at hb
    cases hb
    exact hQ

/-- A function that only reads the state, when there always is a result. -/
theorem read_of_some {f : σ → Option α} (h : ∀ s, ∃ a, f s = some a) :
    Avoids F (Faulting.read e f) fun _ => True :=
  .act_of_some fun s => by
    obtain ⟨a, hf⟩ := h s
    exact ⟨s, a, congrArg (Option.map _) hf, trivial⟩

/-- A part of the state is read, under a condition that holds. -/
theorem read_ite {c : Prop} [Decidable c] {f : σ → α} (hc : c) :
    Avoids F (Faulting.read e fun s => if c then some (f s) else none) fun _ => True :=
  .read_of_some fun _ => ⟨_, if_pos hc⟩

/-- The state is changed, under a condition that holds. -/
theorem update_ite {c : Prop} [Decidable c] {f : σ → σ} (hc : c) (a : α) :
    Avoids F (Faulting.act e fun s => (if c then some (f s) else none).map fun s => (s, a))
      fun _ => True :=
  .act_of_some fun s => ⟨f s, a, congrArg (Option.map _) (if_pos hc), trivial⟩

end Avoids

/-! ## Erasure -/

/-- Where the function has a result, the program ends with it. -/
def Extends (m : Faulting σ ε α) (f : σ → Option (σ × α)) : Prop :=
  ∀ s t a, f s = some (t, a) → m.run s = .ok (a, t)

/-- Where the function has a value, the program ends with it and leaves the state as it is. -/
def Observes (m : Faulting σ ε α) (f : σ → Option α) : Prop :=
  ∀ s a, f s = some a → m.run s = .ok (a, s)

namespace Observes

theorem pure (a : α) : Observes (pure a : Faulting σ ε α) fun _ => some a := by
  intro s b h
  cases h
  rfl

theorem none (m : Faulting σ ε α) : Observes m fun _ => none := fun _ _ h => nomatch h

theorem read (e : ε) (f : σ → Option α) : Observes (read e f) f := fun _ _ h => run_read_of_some h

theorem bind {f : σ → Option α} {g : σ → α → Option β} (hm : Observes m f)
    (hk : ∀ a, Observes (k a) fun s => g s a) : Observes (m >>= k) fun s => f s >>= g s := by
  intro s b h
  obtain ⟨a, hf, hg⟩ := Option.bind_eq_some_iff.1 h
  rw [run_bind_of_ok (hm s a hf)]
  exact hk a s b hg

/-- The first part is a statement that the function does not make. -/
theorem skip (hm : ∀ s, m.run s = .ok (a, s)) {g : σ → Option β} (hk : Observes (k a) g) :
    Observes (m >>= k) g := by
  intro s b h
  rw [run_bind_of_ok (hm s)]
  exact hk s b h

theorem ite {c : Prop} [Decidable c] {m m' : Faulting σ ε α} {f f' : σ → Option α}
    (h : c → Observes m f) (h' : ¬ c → Observes m' f') :
    Observes (if c then m else m') fun s => if c then f s else f' s := by
  split
  · next hc => exact h hc
  · next hc => exact h' hc

end Observes

namespace Extends

theorem pure (a : α) : Extends (pure a : Faulting σ ε α) fun s => some (s, a) := by
  intro s t b h
  cases h
  rfl

theorem none (m : Faulting σ ε α) : Extends m fun _ => none := fun _ _ _ h => nomatch h

theorem act (e : ε) (f : σ → Option (σ × α)) : Extends (act e f) f :=
  fun _ _ _ h => run_act_of_some h

theorem bind {f : σ → Option (σ × α)} {g : σ × α → Option (σ × β)} (hm : Extends m f)
    (hk : ∀ a, Extends (k a) fun s => g (s, a)) : Extends (m >>= k) fun s => f s >>= g := by
  intro s t b h
  obtain ⟨⟨u, a⟩, hf, hg⟩ := Option.bind_eq_some_iff.1 h
  rw [run_bind_of_ok (hm s u a hf)]
  exact hk a u t b hg

/-- The first part only reads the state. -/
theorem get_bind {f : σ → Option α} {g : σ → α → Option (σ × β)} (hm : Observes m f)
    (hk : ∀ a, Extends (k a) fun s => g s a) : Extends (m >>= k) fun s => f s >>= g s := by
  intro s t b h
  obtain ⟨a, hf, hg⟩ := Option.bind_eq_some_iff.1 h
  rw [run_bind_of_ok (hm s a hf)]
  exact hk a s t b hg

/-- The first part has no value. -/
theorem set_bind {m : Faulting σ ε PUnit} {k : PUnit → Faulting σ ε β} {f : σ → Option σ}
    {g : σ → Option (σ × β)} (hm : Extends m fun s => (f s).map fun t => (t, ⟨⟩))
    (hk : Extends (k ⟨⟩) g) : Extends (m >>= k) fun s => f s >>= g := by
  intro s t b h
  obtain ⟨u, hf, hg⟩ := Option.bind_eq_some_iff.1 h
  rw [run_bind_of_ok (hm s u ⟨⟩ (congrArg (Option.map _) hf))]
  exact hk u t b hg

/-- The first part is a statement that the function does not make. -/
theorem skip (hm : ∀ s, m.run s = .ok (a, s)) {g : σ → Option (σ × β)}
    (hk : Extends (k a) g) : Extends (m >>= k) g := by
  intro s t b h
  rw [run_bind_of_ok (hm s)]
  exact hk s t b h

theorem ite {c : Prop} [Decidable c] {m m' : Faulting σ ε α} {f f' : σ → Option (σ × α)}
    (h : c → Extends m f) (h' : ¬ c → Extends m' f') :
    Extends (if c then m else m') fun s => if c then f s else f' s := by
  split
  · next hc => exact h hc
  · next hc => exact h' hc

end Extends

end C4OS.Foundations
