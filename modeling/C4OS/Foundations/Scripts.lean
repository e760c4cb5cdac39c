import C4OS.Foundations.Interleavings

/-!
# Programs that act and get answers

A client is a program that acts, gets an answer, and goes on with it. What it does shows in the
events of a run, each with an act and an answer: `Follows shows s es x` says that the events `es`
are those of a run of the program `s` that returns `x`. The events of a program in two parts are
those of the first part and then those of the second one (`follows_bind`).

`Achieves` says what a program does when its client is alone: it comes to its end, it does nothing
that it may not do, and something holds of what it returns and of the state that it leaves. It has
the rules of a program logic. Among clients that do not disturb each other, a program does what it
does alone (`Separated.achievesAmid`).
-/

namespace C4OS.Foundations

/-- A program with acts `A` and answers `R`, that returns a value or comes to a stop. -/
inductive Script (A R α : Type)
  | done (x : α)
  | stop
  | act (a : A) (next : R → Script A R α)

namespace Script

variable {A R α β : Type}

/-- One program after the other. -/
def bind : Script A R α → (α → Script A R β) → Script A R β
  | .done x, f => f x
  | .stop, _ => .stop
  | .act a next, f => .act a fun r => (next r).bind f

instance instMonad : Monad (Script A R) where
  pure := .done
  bind := bind

/-- One act, with its answer. -/
def perform (a : A) : Script A R R := .act a .done

/-- A computation that does not act. The program comes to a stop where it has no result. -/
def ofOption : Option α → Script A R α
  | none => .stop
  | some x => .done x

end Script

variable {A R α β ε : Type} {shows : ε → A × R} {s : Script A R α} {f : α → Script A R β} {e : ε}
  {es es' : List ε} {x x' : α} {y : β}

/-- The events are those of a run of the program, which returns a value. -/
inductive Follows (shows : ε → A × R) : Script A R α → List ε → α → Prop
  | done (x : α) : Follows shows (.done x) [] x
  | act {a : A} {next : R → Script A R α} {e : ε} {es : List ε} {x : α} (ha : (shows e).1 = a)
      (h : Follows shows (next (shows e).2) es x) : Follows shows (.act a next) (e :: es) x

namespace Follows

theorem of_done (h : Follows shows (.done x : Script A R α) es x') : es = [] ∧ x = x' := by
  cases h with
  | done => exact ⟨rfl, rfl⟩

theorem bind (h : Follows shows s es x) (h' : Follows shows (f x) es' y) :
    Follows shows (s >>= f) (es ++ es') y := by
  induction h with
  | done => exact h'
  | act ha _ ih => exact .act ha (ih h')

end Follows

/-- **The events of two programs one after the other.** -/
theorem follows_bind : Follows shows (s >>= f) es y ↔
    ∃ es₁ es₂ x, es = es₁ ++ es₂ ∧ Follows shows s es₁ x ∧ Follows shows (f x) es₂ y := by
  constructor
  · intro h
    induction s generalizing es with
    | done x => exact ⟨[], es, x, rfl, .done x, h⟩
    | stop => cases h
    | act a next ih =>
      cases h with
      | @act _ _ e es _ ha h =>
        obtain ⟨es₁, es₂, x, rfl, h₁, h₂⟩ := ih _ h
        exact ⟨e :: es₁, es₂, x, rfl, .act ha h₁, h₂⟩
  · rintro ⟨es₁, es₂, x, rfl, h₁, h₂⟩
    exact h₁.bind h₂

theorem follows_perform {a : A} {r : R} : Follows shows (.perform a) es r ↔
    ∃ e, es = [e] ∧ shows e = (a, r) := by
  constructor
  · intro h
    cases h with
    | @act _ _ e es _ ha h =>
      obtain ⟨rfl, rfl⟩ := h.of_done
      exact ⟨e, rfl, Prod.ext ha rfl⟩
  · rintro ⟨e, rfl, he⟩
    have hr : (shows e).2 = r := congrArg Prod.snd he
    exact .act (congrArg Prod.fst he) (hr ▸ .done _)

theorem follows_pure : Follows shows (pure x : Script A R α) es x' ↔ es = [] ∧ x = x' :=
  ⟨Follows.of_done, fun h => h.1 ▸ h.2 ▸ .done x⟩

/-- The event of an act, of whose answer something is returned. -/
theorem follows_perform_bind {a : A} {f : R → α} :
    Follows shows (.perform a >>= fun r => pure (f r)) es x ↔
      ∃ e, es = [e] ∧ (shows e).1 = a ∧ f (shows e).2 = x := by
  rw [follows_bind]
  constructor
  · rintro ⟨es₁, es₂, r, rfl, h₁, h₂⟩
    obtain ⟨e, rfl, he⟩ := follows_perform.1 h₁
    obtain ⟨rfl, hx⟩ := follows_pure.1 h₂
    exact ⟨e, rfl, congrArg Prod.fst he, by rw [he]; exact hx⟩
  · rintro ⟨e, rfl, ha, hx⟩
    exact ⟨[e], [], (shows e).2, rfl, follows_perform.2 ⟨e, rfl, Prod.ext ha rfl⟩,
      follows_pure.2 ⟨rfl, hx⟩⟩

section Allowed

variable {σ : Type*} {step : σ → ε → σ → Prop} {ok : σ → ε → Prop} {st : σ}

/-- What is allowed in two parts is allowed. -/
theorem Allowed.append (h : Allowed step ok st es)
    (h' : ∀ t, Run step st es t → Allowed step ok t es') : Allowed step ok st (es ++ es') := by
  induction es generalizing st with
  | nil => exact h' st (.nil st)
  | cons e es ih => exact ⟨h.1, fun t ht => ih (h.2 t ht) fun u hu => h' u (.cons ht hu)⟩

end Allowed

/-! ## What a program does -/

section Programs

variable {ι σ : Type*} {step : σ → ε → σ → Prop} {client : ε → ι} {calm : ε → Prop}
  {ok : σ → ε → Prop} {c : ι} {st : σ} {Q Q' : α → σ → Prop} {Q₂ : β → σ → Prop}

/-- What a program does from a state on when its client is alone. -/
structure Achieves (step : σ → ε → σ → Prop) (client : ε → ι) (shows : ε → A × R)
    (ok : σ → ε → Prop) (c : ι) (st : σ) (s : Script A R α) (Q : α → σ → Prop) : Prop where
  ends : ∃ es t x, (∀ e ∈ es, client e = c) ∧ Run step st es t ∧ Follows shows s es x
  allowed : ∀ es x, (∀ e ∈ es, client e = c) → Follows shows s es x → Allowed step ok st es
  returns : ∀ es t x, (∀ e ∈ es, client e = c) → Run step st es t → Follows shows s es x → Q x t

namespace Achieves

theorem mono (h : Achieves step client shows ok c st s Q) (hQ : ∀ x t, Q x t → Q' x t) :
    Achieves step client shows ok c st s Q' :=
  ⟨h.ends, h.allowed, fun es t x hc hrun hs => hQ x t (h.returns es t x hc hrun hs)⟩

theorem pure (h : Q x st) : Achieves step client shows ok c st (pure x) Q where
  ends := ⟨[], st, x, fun _ he => absurd he List.not_mem_nil, .nil st, .done x⟩
  allowed es x' _ hs := by
    obtain ⟨rfl, -⟩ := follows_pure.1 hs
    trivial
  returns es t x' _ hrun hs := by
    obtain ⟨rfl, rfl⟩ := follows_pure.1 hs
    cases hrun
    exact h

theorem ofOption {o : Option α} (ho : o = some x) (h : Q x st) :
    Achieves step client shows ok c st (Script.ofOption o) Q := by
  subst ho
  exact .pure h

/-- One program after the other. -/
theorem bind (h : Achieves step client shows ok c st s fun x t =>
    Achieves step client shows ok c t (f x) Q₂) :
    Achieves step client shows ok c st (s >>= f) Q₂ where
  ends := by
    obtain ⟨es, t, x, hc, hrun, hs⟩ := h.ends
    obtain ⟨es', u, y, hc', hrun', hs'⟩ := (h.returns es t x hc hrun hs).ends
    exact ⟨es ++ es', u, y, List.forall_mem_append.2 ⟨hc, hc'⟩, hrun.append hrun', hs.bind hs'⟩
  allowed es y hc hs := by
    obtain ⟨es₁, es₂, x, rfl, hs₁, hs₂⟩ := follows_bind.1 hs
    obtain ⟨hc₁, hc₂⟩ := List.forall_mem_append.1 hc
    exact (h.allowed es₁ x hc₁ hs₁).append fun t hrun =>
      (h.returns es₁ t x hc₁ hrun hs₁).allowed es₂ y hc₂ hs₂
  returns es u y hc hrun hs := by
    obtain ⟨es₁, es₂, x, rfl, hs₁, hs₂⟩ := follows_bind.1 hs
    obtain ⟨hc₁, hc₂⟩ := List.forall_mem_append.1 hc
    obtain ⟨t, hrun₁, hrun₂⟩ := hrun.of_append
    exact (h.returns es₁ t x hc₁ hrun₁ hs₁).returns es₂ u y hc₂ hrun₂ hs₂

/-- One act, of whose answer something is returned. -/
theorem perform {a : A} {g : R → α} (hends : ∃ e t, client e = c ∧ (shows e).1 = a ∧ step st e t)
    (hok : ∀ e, client e = c → (shows e).1 = a → ok st e)
    (hQ : ∀ e t, client e = c → (shows e).1 = a → step st e t → Q (g (shows e).2) t) :
    Achieves step client shows ok c st (.perform a >>= fun r => Pure.pure (g r)) Q where
  ends := by
    obtain ⟨e, t, hc, ha, hstep⟩ := hends
    refine ⟨[e], t, g (shows e).2, fun e' he => ?_, .cons hstep (.nil t),
      follows_perform_bind.2 ⟨e, rfl, ha, rfl⟩⟩
    rw [List.mem_singleton.1 he]
    exact hc
  allowed es x hc hs := by
    obtain ⟨e, rfl, ha, -⟩ := follows_perform_bind.1 hs
    exact ⟨hok e (hc e List.mem_cons_self) ha, fun _ _ => trivial⟩
  returns es t x hc hrun hs := by
    obtain ⟨e, rfl, ha, rfl⟩ := follows_perform_bind.1 hs
    cases hrun with
    | cons hstep hnil =>
      cases hnil
      exact hQ e t (hc e List.mem_cons_self) ha hstep

end Achieves

/-- What a program does among other clients, in any order of all their events. In every run, its
client gets what is said of it. And the client has events with which it comes to the end of the
program, in whatever order they come with events of the others, when each of these would come to the
end of its own events alone. -/
structure AchievesAmid [DecidableEq ι] (step : σ → ε → σ → Prop) (client : ε → ι)
    (shows : ε → A × R) (calm : ε → Prop) (ok : σ → ε → Prop) (c : ι) (st : σ) (s : Script A R α)
    (Q : α → Prop) : Prop where
  returns : ∀ es t x, (∀ e ∈ es, calm e) → Run step st es t →
    Follows shows s (eventsOf client c es) x → Q x
  ends : ∃ mine x, Follows shows s mine x ∧ ∀ es, eventsOf client c es = mine →
    (∀ e ∈ es, calm e) → (∀ c' ≠ c, Allowed step ok st (eventsOf client c' es) ∧
      ∃ t, Run step st (eventsOf client c' es) t) → ∃ t, Run step st es t

/-- **A program among other clients** does what it does alone. -/
theorem Separated.achievesAmid [DecidableEq ι] {inv : σ → Prop} {same : ι → σ → σ → Prop}
    {Q : α → Prop} (h : Separated step client inv calm ok same) (hst : inv st)
    (ha : Achieves step client shows ok c st s fun x _ => Q x) :
    AchievesAmid step client shows calm ok c st s Q where
  returns es t x hcalm hrun hs := by
    have hc : ∀ e ∈ eventsOf client c es, client e = c := fun e he => client_of_mem he
    obtain ⟨t', hrun', -⟩ := h.restrict hst hst ((h.equivalence c).refl st) hcalm
      (ha.allowed _ x hc hs) hrun
    exact ha.returns _ t' x hc hrun' hs
  ends := by
    obtain ⟨mine, u, x, hc, hmine, hs⟩ := ha.ends
    refine ⟨mine, x, hs, fun es heq hcalm hothers => ?_⟩
    refine (h.exists_iff hst hcalm fun c' => ?_).2 fun c' => ?_
    · by_cases hc' : c' = c
      · subst hc'
        rw [heq]
        exact ha.allowed mine x hc hs
      · exact (hothers c' hc').1
    · by_cases hc' : c' = c
      · subst hc'
        rw [heq]
        exact ⟨u, hmine⟩
      · exact (hothers c' hc').2

end Programs

end C4OS.Foundations
