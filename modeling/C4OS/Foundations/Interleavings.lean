import C4OS.Foundations.Events

/-!
# Clients that do not disturb each other

Events that belong to clients `ι`, in any order. Each client sees a part of the state only: two
states may look the same to it (`same c`). When an event does not change what the other clients see,
and what happens to its own client depends only on what that client sees (`Separated`), a run of
many clients is made of the runs of each client alone: the events of a list are handled if and only
if those of each client are (`Separated.exists_iff`), and every client is left with what it has at
the end of its own run (`Separated.restrict`).
-/

namespace C4OS.Foundations

variable {ι σ ε : Type*} [DecidableEq ι] {step : σ → ε → σ → Prop} {client : ε → ι} {inv : σ → Prop}
  {calm : ε → Prop} {ok : σ → ε → Prop} {same : ι → σ → σ → Prop} {s s' t : σ} {e : ε} {es : List ε}
  {c c' : ι}

/-- The events of a client. -/
def eventsOf (client : ε → ι) (c : ι) (es : List ε) : List ε := es.filter fun e => client e = c

/-- Each event is as it is to be in the state that those before it lead to. -/
def Allowed (step : σ → ε → σ → Prop) (ok : σ → ε → Prop) : σ → List ε → Prop
  | _, [] => True
  | s, e :: es => ok s e ∧ ∀ t, step s e t → Allowed step ok t es

/-- Events concern their own clients only: a `calm` event keeps the invariant and what other clients
see, and one that is `ok` is handled in all states that look the same to its client. -/
structure Separated (step : σ → ε → σ → Prop) (client : ε → ι) (inv : σ → Prop) (calm : ε → Prop)
    (ok : σ → ε → Prop) (same : ι → σ → σ → Prop) : Prop where
  equivalence : ∀ c, Equivalence (same c)
  keeps : ∀ {s e t}, inv s → calm e → step s e t → inv t
  other : ∀ {s e t c}, inv s → calm e → step s e t → client e ≠ c → same c s t
  ok_of_same : ∀ {s s' e}, inv s → inv s' → same (client e) s s' → ok s e → ok s' e
  own : ∀ {s s' e t}, inv s → inv s' → same (client e) s s' → calm e → ok s e → step s e t →
    ∃ t', step s' e t' ∧ same (client e) t t'

section Lists

theorem eventsOf_cons_self (e : ε) (es : List ε) :
    eventsOf client (client e) (e :: es) = e :: eventsOf client (client e) es :=
  List.filter_cons_of_pos (decide_eq_true rfl)

theorem eventsOf_cons_of_ne (h : client e ≠ c) (es : List ε) :
    eventsOf client c (e :: es) = eventsOf client c es :=
  List.filter_cons_of_neg (by simpa using h)

theorem client_of_mem (h : e ∈ eventsOf client c es) : client e = c := by
  simpa using (List.mem_filter.1 h).2

theorem mem_of_eventsOf (h : e ∈ eventsOf client c es) : e ∈ es := (List.mem_filter.1 h).1

theorem eventsOf_eventsOf (c : ι) (es : List ε) :
    eventsOf client c (eventsOf client c es) = eventsOf client c es :=
  List.filter_eq_self.2 fun _ he => decide_eq_true (client_of_mem he)

end Lists

namespace Separated

variable (h : Separated step client inv calm ok same)

include h

omit [DecidableEq ι] in
/-- What a client may do it may do in all states that look the same to it. -/
theorem allowed_of_same (hs : inv s) (hs' : inv s') (hsame : same c s s') (hcalm : ∀ e ∈ es, calm e)
    (hclient : ∀ e ∈ es, client e = c) (hok : Allowed step ok s es) : Allowed step ok s' es := by
  induction es generalizing s s' with
  | nil => trivial
  | cons e es ih =>
    obtain ⟨hcalm, hcalms⟩ := List.forall_mem_cons.1 hcalm
    obtain ⟨rfl, hclients⟩ := List.forall_mem_cons.1 hclient
    have hok' := h.ok_of_same hs hs' hsame hok.1
    refine ⟨hok', fun t' hstep' => ?_⟩
    obtain ⟨t, hstep, hsame'⟩ := h.own hs' hs ((h.equivalence _).symm hsame) hcalm hok' hstep'
    exact ih (h.keeps hs hcalm hstep) (h.keeps hs' hcalm hstep') ((h.equivalence _).symm hsame')
      hcalms hclients (hok.2 t hstep)

/-- **A run without the other clients.** -/
theorem restrict (hs : inv s) (hs' : inv s') (hsame : same c s s') (hcalm : ∀ e ∈ es, calm e)
    (hok : Allowed step ok s' (eventsOf client c es)) (hrun : Run step s es t) :
    ∃ t', Run step s' (eventsOf client c es) t' ∧ same c t t' := by
  induction hrun generalizing s' with
  | nil s => exact ⟨s', .nil s', hsame⟩
  | @cons s u t e es hstep _ ih =>
    obtain ⟨hcalm, hcalms⟩ := List.forall_mem_cons.1 hcalm
    have hu := h.keeps hs hcalm hstep
    by_cases hc : client e = c
    · subst hc
      rw [eventsOf_cons_self] at hok ⊢
      have hok' := h.ok_of_same hs' hs ((h.equivalence _).symm hsame) hok.1
      obtain ⟨u', hstep', hsame'⟩ := h.own hs hs' hsame hcalm hok' hstep
      obtain ⟨t', hrun, hend⟩ :=
        ih hu (h.keeps hs' hcalm hstep') hsame' hcalms (hok.2 u' hstep')
      exact ⟨t', .cons hstep' hrun, hend⟩
    · rw [eventsOf_cons_of_ne hc] at hok ⊢
      have hback := (h.equivalence c).symm (h.other hs hcalm hstep hc)
      exact ih hu hs' ((h.equivalence c).trans hback hsame) hcalms hok

/-- The run of a client in another state that looks the same to it. -/
theorem transport (hs : inv s) (hs' : inv s') (hsame : same c s s') (hcalm : ∀ e ∈ es, calm e)
    (hok : Allowed step ok s (eventsOf client c es)) (hrun : Run step s (eventsOf client c es) t) :
    ∃ t', Run step s' (eventsOf client c es) t' ∧ same c t t' := by
  have hcalm' : ∀ e ∈ eventsOf client c es, calm e := fun e he => hcalm e (mem_of_eventsOf he)
  have hok' := h.allowed_of_same hs hs' hsame hcalm' (fun e => client_of_mem) hok
  rw [← eventsOf_eventsOf] at hok'
  have hres := h.restrict hs hs' hsame hcalm' hok' hrun
  rwa [eventsOf_eventsOf] at hres

/-- **The events of all clients are handled** if and only if those of each client alone are. -/
theorem exists_iff (hs : inv s) (hcalm : ∀ e ∈ es, calm e)
    (hok : ∀ c, Allowed step ok s (eventsOf client c es)) :
    (∃ t, Run step s es t) ↔ ∀ c, ∃ t, Run step s (eventsOf client c es) t := by
  constructor
  · rintro ⟨t, hrun⟩ c
    obtain ⟨t', hrun', -⟩ := h.restrict hs hs ((h.equivalence c).refl s) hcalm (hok c) hrun
    exact ⟨t', hrun'⟩
  · intro halone
    induction es generalizing s with
    | nil => exact ⟨s, .nil s⟩
    | cons e es ih =>
      obtain ⟨hcalm, hcalms⟩ := List.forall_mem_cons.1 hcalm
      obtain ⟨t, hfirst⟩ := halone (client e)
      have hokfirst := hok (client e)
      rw [eventsOf_cons_self] at hfirst hokfirst
      obtain ⟨u, hstep, hrest⟩ : ∃ u, step s e u ∧ Run step u (eventsOf client (client e) es) t := by
        cases hfirst with
        | cons hstep hrest => exact ⟨_, hstep, hrest⟩
      have hu := h.keeps hs hcalm hstep
      -- the clients of the other events do not notice this one
      have hnotice (c : ι) (hc : client e ≠ c) : same c s u := h.other hs hcalm hstep hc
      have hcalms' (c : ι) : ∀ e ∈ eventsOf client c es, calm e := fun e he =>
        hcalms e (mem_of_eventsOf he)
      obtain ⟨v, hrun⟩ := ih hu hcalms
        (fun c => by
          by_cases hc : client e = c
          · exact hc ▸ hokfirst.2 u hstep
          · have hok := hok c
            rw [eventsOf_cons_of_ne hc] at hok
            exact h.allowed_of_same hs hu (hnotice c hc) (hcalms' c) (fun e => client_of_mem) hok)
        fun c => by
          by_cases hc : client e = c
          · exact ⟨t, hc ▸ hrest⟩
          · obtain ⟨w, hrun⟩ := halone c
            have hok := hok c
            rw [eventsOf_cons_of_ne hc] at hrun hok
            obtain ⟨w', hrun', -⟩ := h.transport hs hu (hnotice c hc) hcalms hok hrun
            exact ⟨w', hrun'⟩
      exact ⟨v, .cons hstep hrun⟩

end Separated

end C4OS.Foundations
