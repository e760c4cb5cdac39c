import Mathlib.Data.Nat.Notation
import Mathlib.Tactic.TypeStar

/-!
# Triples over a history

A program with a state keeps a history that only grows, and what is around the program answers it.
What is known of these answers is known of whole histories: it is given for the last one, and holds
of all that came before (`History.anti`). `Meets` is a triple of a precondition, a program and a
postcondition under that knowledge. A program that does not end meets everything.
-/

namespace C4OS.Foundations

/-- Code over a state, which may have no result. -/
abbrev Code (σ α : Type) := OptionT (StateM σ) α

/-- States that come one after another, and what is known of those around the program. -/
structure History (σ : Type) where
  le : σ → σ → Prop
  refl : ∀ s, le s s
  trans : ∀ {s t u}, le s t → le t u → le s u
  Fits : σ → Prop
  anti : ∀ {s t}, le s t → Fits t → Fits s

variable {σ α β : Type} {H : History σ} {m : Code σ α} {k : α → Code σ β} {a : α} {s s' : σ}
  {P P' R : σ → Prop} {Q Q' : α → σ → Prop} {T : β → σ → Prop}

namespace Code

theorem bind_some (h : m s = (some a, s')) : (m >>= k) s = k a s' := by
  show (match (m s).1 with | some a => k a | none => pure none : StateM σ (Option β)) (m s).2 = _
  rw [h]

theorem bind_none (h : m s = (none, s')) : (m >>= k) s = (none, s') := by
  show (match (m s).1 with | some a => k a | none => pure none : StateM σ (Option β)) (m s).2 = _
  rw [h]
  rfl

theorem exists_of_bind {b : β} (h : (m >>= k) s = (some b, s')) :
    ∃ a t, m s = (some a, t) ∧ k a t = (some b, s') := by
  rcases hm : m s with ⟨_ | a, t⟩
  · rw [bind_none hm] at h
    cases h
  · rw [bind_some hm] at h
    exact ⟨a, t, rfl, h⟩

end Code

/-- A run of the program from a state with `P` makes the history longer, and ends with a value and a
state in `Q`, where the history fits. -/
def Meets (H : History σ) (P : σ → Prop) (m : Code σ α) (Q : α → σ → Prop) : Prop :=
  ∀ s a s', m s = (some a, s') → H.le s s' ∧ (H.Fits s' → P s → Q a s')

namespace Meets

theorem pure (a : α) : Meets H (Q a) (pure a : Code σ α) Q := by
  rintro s _ _ ⟨⟩
  exact ⟨H.refl s, fun _ h => h⟩

theorem failure : Meets H P (failure : Code σ α) Q := by
  rintro s _ _ ⟨⟩

theorem bind (hm : Meets H P m Q) (hk : ∀ a, Meets H (Q a) (k a) T) :
    Meets H P (m >>= k) T := by
  intro s b s' hrun
  obtain ⟨a, t, hfirst, hrest⟩ := Code.exists_of_bind hrun
  obtain ⟨hle, hpost⟩ := hm s a t hfirst
  obtain ⟨hle', hpost'⟩ := hk a t b s' hrest
  exact ⟨H.trans hle hle', fun hfits hP => hpost' hfits (hpost (H.anti hle' hfits) hP)⟩

theorem consequence (h : Meets H P' m Q') (hP : ∀ s, P s → P' s) (hQ : ∀ a s, Q' a s → Q a s) :
    Meets H P m Q := by
  intro s a s' hrun
  obtain ⟨hle, hpost⟩ := h s a s' hrun
  exact ⟨hle, fun hfits hs => hQ a s' (hpost hfits (hP s hs))⟩

theorem pre (h : Meets H P' m Q) (hP : ∀ s, P s → P' s) : Meets H P m Q :=
  h.consequence hP fun _ _ hQ => hQ

/-- A program that ends with a value of its own. -/
theorem returning {b : β} (hm : Meets H P m fun _ => R) :
    Meets H P (m >>= fun _ => Pure.pure b : Code σ β) fun a s => a = b ∧ R s :=
  hm.bind fun _ => (pure (Q := fun a s => a = b ∧ R s) b).pre fun _ hs => ⟨rfl, hs⟩

theorem modify {f : σ → σ} (hle : ∀ s, H.le s (f s)) (h : ∀ s, H.Fits (f s) → P s → R (f s)) :
    Meets H P (modify f : Code σ Unit) fun _ => R := by
  rintro s _ _ ⟨⟩
  exact ⟨hle s, h s⟩

theorem ite {c : Prop} [Decidable c] {m' : Code σ α} (h : c → Meets H P m Q)
    (h' : ¬ c → Meets H P m' Q) : Meets H P (if c then m else m') Q := by
  split
  · exact h ‹_›
  · exact h' ‹_›

end Meets

end C4OS.Foundations
