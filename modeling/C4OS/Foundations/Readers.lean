import Mathlib.Data.List.Induction

/-!
# Machines that read a stream

A reader takes items one after the other: each item changes its state, and hands out values. What it
does with a stream does not depend on the parts in which the stream comes (`run_parts`), and a
stream of frames is read frame by frame (`run_frames`).
-/

namespace C4OS.Foundations

/-- A machine that takes items and hands out values. -/
structure Reader (σ α β : Type*) where
  next : σ → α → σ
  out : σ → α → List β

namespace Reader

variable {σ α β γ : Type*} (R : Reader σ α β) {s : σ}

/-- The state after some items. -/
def after (s : σ) (xs : List α) : σ := xs.foldl R.next s

/-- The values that are handed out for some items. -/
def run : σ → List α → List β
  | _, [] => []
  | s, x :: xs => R.out s x ++ run (R.next s x) xs

theorem after_append (s : σ) (xs ys : List α) :
    R.after s (xs ++ ys) = R.after (R.after s xs) ys :=
  List.foldl_append

theorem run_append (s : σ) (xs ys : List α) :
    R.run s (xs ++ ys) = R.run s xs ++ R.run (R.after s xs) ys := by
  induction xs generalizing s with
  | nil => rfl
  | cons x xs ih =>
    rw [List.cons_append, run, ih, run, List.append_assoc]
    rfl

/-- What holds of the first state, and is kept with each item that is read, holds of each state
together with the items read before. -/
theorem after_induction (P : List α → σ → Prop) (h₀ : P [] s)
    (hnext : ∀ xs x t, P xs t → P (xs ++ [x]) (R.next t x)) (xs : List α) :
    P xs (R.after s xs) := by
  induction xs using List.reverseRecOn with
  | nil => exact h₀
  | append_singleton xs x ih =>
    rw [after_append]
    exact hnext xs x _ ih

/-- What is handed out in states of a kind. -/
theorem run_forall {P : σ → Prop} {Q : β → Prop} (hnext : ∀ s x, P s → P (R.next s x))
    (hout : ∀ s x, P s → ∀ y ∈ R.out s x, Q y) (h : P s) (xs : List α) :
    ∀ y ∈ R.run s xs, Q y := by
  induction xs generalizing s with
  | nil => exact fun y hy => absurd hy List.not_mem_nil
  | cons x xs ih =>
    intro y hy
    rcases List.mem_append.1 hy with hy | hy
    · exact hout s x h y hy
    · exact ih (hnext s x h) y hy

/-- Another machine takes the items in parts. -/
theorem run_parts {R' : Reader σ γ β} {part : γ → List α}
    (hnext : ∀ s c, R'.next s c = R.after s (part c))
    (hout : ∀ s c, R'.out s c = R.run s (part c)) (s : σ) (cs : List γ) :
    R'.run s cs = R.run s (cs.flatMap part) := by
  induction cs generalizing s with
  | nil => rfl
  | cons c cs ih => rw [run, hout, hnext, ih, List.flatMap_cons, run_append]

/-- Each frame leads from a state between frames to one. -/
theorem run_frames (P : σ → Prop) {frame : γ → List α} {value : γ → List β}
    (hafter : ∀ s c, P s → P (R.after s (frame c)))
    (hrun : ∀ s c, P s → R.run s (frame c) = value c) (hs : P s) (cs : List γ) :
    R.run s (cs.flatMap frame) = cs.flatMap value := by
  induction cs generalizing s with
  | nil => rfl
  | cons c cs ih =>
    rw [List.flatMap_cons, run_append, hrun s c hs, ih (hafter s c hs), List.flatMap_cons]

end Reader

end C4OS.Foundations
