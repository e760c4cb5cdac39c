import Mathlib.Logic.Relation
import Mathlib.Order.Basic

/-!
# Loops over offsets

A loop that starts at an offset and goes from each offset below a limit to a later one, until it
stops or is behind the limit. Where the next offset is read from data, it may be the same one, and
the loop does not come to an end. `R fuel i` says of a loop with `fuel` turns left that it returns
from the offset `i`: it does so if all the offsets that it comes to are sound and lead on
(`returns_of_sound`), and only then (`sound_of_returns`).
-/

namespace C4OS.Foundations

open Relation

variable {n : ℕ} {Stop Sound : ℕ → Prop} {next : ℕ → ℕ} {R : ℕ → ℕ → Prop} {fuel i j : ℕ}

/-- A turn of a loop that goes on. -/
def Turn (n : ℕ) (Stop : ℕ → Prop) (next : ℕ → ℕ) (i j : ℕ) : Prop := i < n ∧ ¬ Stop i ∧ j = next i

/-- The offset can be looked at, and it leads on where the loop does not stop. -/
def LeadsOn (Stop Sound : ℕ → Prop) (next : ℕ → ℕ) (i : ℕ) : Prop :=
  Sound i ∧ (¬ Stop i → i < next i)

/-- A loop returns if all the offsets that it comes to lead on. -/
theorem returns_of_sound (hend : ∀ fuel i, n ≤ i → R (fuel + 1) i)
    (hturn : ∀ fuel i, i < n → Sound i → (¬ Stop i → R fuel (next i)) → R (fuel + 1) i)
    (hsound : ∀ j < n, ReflTransGen (Turn n Stop next) i j → LeadsOn Stop Sound next j)
    (hfuel : n < fuel + i) (hpos : 0 < fuel) : R fuel i := by
  induction fuel generalizing i with
  | zero => exact absurd hpos (Nat.lt_irrefl 0)
  | succ fuel ih =>
    by_cases hlt : i < n
    · obtain ⟨hi, hnext⟩ := hsound i hlt .refl
      refine hturn fuel i hlt hi fun hstop => ?_
      have hmono := hnext hstop
      refine ih (fun j hj hreach => ?_) (by omega) (by omega)
      exact hsound j hj (.head ⟨hlt, hstop, rfl⟩ hreach)
    · exact hend fuel i (Nat.le_of_not_lt hlt)

/-- A loop that returns comes to offsets that lead on only. -/
theorem sound_of_returns (hle : ∀ i, i ≤ next i) (hzero : ∀ i, ¬ R 0 i)
    (hturn : ∀ fuel i, i < n → R (fuel + 1) i → Sound i ∧ (¬ Stop i → R fuel (next i)))
    (hreach : ReflTransGen (Turn n Stop next) i j) (hR : R fuel i) (hj : j < n) :
    LeadsOn Stop Sound next j := by
  induction hreach using ReflTransGen.head_induction_on generalizing fuel with
  | refl =>
    -- an offset that leads to itself uses up all turns
    have hturns : ¬ Stop j → next j = j → ∀ fuel, ¬ R fuel j := by
      intro hstop hsame fuel
      induction fuel with
      | zero => exact hzero j
      | succ fuel ih =>
        intro hR
        have hagain := (hturn fuel j hj hR).2 hstop
        rw [hsame] at hagain
        exact ih hagain
    cases fuel with
    | zero => exact absurd hR (hzero j)
    | succ fuel =>
      refine ⟨(hturn fuel j hj hR).1, fun hstop => ?_⟩
      rcases Nat.eq_or_lt_of_le (hle j) with hsame | hlt
      · exact absurd hR (hturns hstop hsame.symm _)
      · exact hlt
  | head hstep _ ih =>
    obtain ⟨hlt, hstop, rfl⟩ := hstep
    cases fuel with
    | zero => exact absurd hR (hzero _)
    | succ fuel => exact ih ((hturn fuel _ hlt hR).2 hstop)

end C4OS.Foundations
