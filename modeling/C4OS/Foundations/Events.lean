import Mathlib.Data.List.Induction

/-!
# Runs of events

A machine handles events one after the other, `step s e t`, and there may be events that it does not
handle in a state. `Run step s es t` says that it handles the events `es` and gets from `s` to `t`.
When a step has no choice, all events of a list are handled if and only if each one is in the state
that those before it lead to (`Run.exists_iff`).
-/

namespace C4OS.Foundations

variable {σ ε : Type*} {step : σ → ε → σ → Prop} {s t u : σ} {e : ε} {es fs : List ε}

/-- The events of a list are handled one after the other. -/
inductive Run (step : σ → ε → σ → Prop) : σ → List ε → σ → Prop
  | nil (s : σ) : Run step s [] s
  | cons {s t u : σ} {e : ε} {es : List ε} (h : step s e t) (ht : Run step t es u) :
      Run step s (e :: es) u

/-- A step has no choice. -/
def Determined (step : σ → ε → σ → Prop) : Prop := ∀ s e t u, step s e t → step s e u → t = u

namespace Run

theorem append (h : Run step s es t) (ht : Run step t fs u) : Run step s (es ++ fs) u := by
  induction h with
  | nil => exact ht
  | cons h _ ih => exact .cons h (ih ht)

/-- A run over two lists goes through a state between them. -/
theorem of_append (h : Run step s (es ++ fs) u) : ∃ t, Run step s es t ∧ Run step t fs u := by
  induction es generalizing s with
  | nil => exact ⟨s, .nil s, h⟩
  | cons e es ih =>
    cases h with
    | cons h ht =>
      obtain ⟨t, hrun, hrest⟩ := ih ht
      exact ⟨t, .cons h hrun, hrest⟩

/-- What every step keeps, a run keeps. -/
theorem keeps {P : σ → Prop} (h : Run step s es t) (hs : P s)
    (hstep : ∀ s e t, P s → step s e t → P t) : P t := by
  induction h with
  | nil => exact hs
  | cons h _ ih => exact ih (hstep _ _ _ hs h)

/-- What every step with an event of a kind keeps, a run with such events keeps. -/
theorem keeps_of_forall {P : σ → Prop} {E : ε → Prop} (h : Run step s es t) (hE : ∀ e ∈ es, E e)
    (hs : P s) (hstep : ∀ s e t, E e → P s → step s e t → P t) : P t := by
  induction h with
  | nil => exact hs
  | cons h _ ih =>
    obtain ⟨he, hE⟩ := List.forall_mem_cons.1 hE
    exact ih hE (hstep _ _ _ he hs h)

theorem unique (hdet : Determined step) (h : Run step s es t)
    (h' : Run step s es u) : t = u := by
  induction h with
  | nil =>
    cases h'
    rfl
  | cons h _ ih =>
    cases h' with
    | cons h₁ ht₁ =>
      obtain rfl := hdet _ _ _ _ h h₁
      exact ih ht₁

/-- **All events are handled if and only if each one is in the state before it.** -/
theorem exists_iff (hdet : Determined step) :
    (∃ t, Run step s es t) ↔
      ∀ pre e post t, es = pre ++ e :: post → Run step s pre t → ∃ u, step t e u := by
  constructor
  · rintro ⟨v, hrun⟩ pre e post t rfl hpre
    obtain ⟨t', hpre', hrest⟩ := hrun.of_append
    obtain rfl := hpre.unique hdet hpre'
    cases hrest with
    | cons h _ => exact ⟨_, h⟩
  · intro hall
    induction es using List.reverseRecOn with
    | nil => exact ⟨s, .nil s⟩
    | append_singleton es e ih =>
      obtain ⟨t, hrun⟩ := ih fun pre e' post t heq =>
        hall pre e' (post ++ [e]) t (by rw [heq, List.append_assoc, List.cons_append])
      obtain ⟨u, hstep⟩ := hall es e [] t rfl hrun
      exact ⟨u, hrun.append (.cons hstep (.nil u))⟩

end Run

end C4OS.Foundations
