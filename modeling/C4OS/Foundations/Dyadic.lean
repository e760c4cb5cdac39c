import Mathlib.Data.List.Chain
import Mathlib.Algebra.BigOperators.Group.List.Basic
import Mathlib.Algebra.Order.Monoid.Unbundled.Pow
import Mathlib.Algebra.Order.Ring.Int

/-!
# Rows of intervals whose lengths are powers of two

A row is a list of exponents, and stands for intervals of the lengths `2 ^ e` that are placed one
behind the other. In an *aligned* row every interval starts at a multiple of its length
(`Aligned`). Where no two neighbours have the same length, the lengths in an aligned row can not go
down and up again: this is why an interval whose end is an odd multiple of its length can not be
followed by a row that ends at an even one (`Aligned.dvd_end`), and why the start of the last
interval of a row from `0` on is an even multiple of its length (`Aligned.dvd_last`). A row without
such neighbours that fills an interval of a power of two is that interval
(`Aligned.eq_singleton`).
-/

namespace C4OS.Foundations

/-- The length of a row. -/
def extent (l : List ℕ) : ℕ := (l.map (2 ^ ·)).sum

@[simp] theorem extent_nil : extent [] = 0 := rfl

@[simp] theorem extent_cons (e : ℕ) (l : List ℕ) : extent (e :: l) = 2 ^ e + extent l := rfl

@[simp] theorem extent_append (l l' : List ℕ) : extent (l ++ l') = extent l + extent l' := by
  simp [extent]

/-- A row from `o` on in which every interval starts at a multiple of its length. -/
def Aligned : ℕ → List ℕ → Prop
  | _, [] => True
  | o, e :: l => 2 ^ e ∣ o ∧ Aligned (o + 2 ^ e) l

variable {o e d n : ℕ} {l l' : List ℕ}

@[simp] theorem aligned_nil : Aligned o [] := trivial

@[simp] theorem aligned_cons : Aligned o (e :: l) ↔ 2 ^ e ∣ o ∧ Aligned (o + 2 ^ e) l := Iff.rfl

theorem aligned_append : Aligned o (l ++ l') ↔ Aligned o l ∧ Aligned (o + extent l) l' := by
  induction l generalizing o with
  | nil => simp
  | cons e l ih => rw [List.cons_append, aligned_cons, aligned_cons, ih, extent_cons, and_assoc,
      Nat.add_assoc]

/-- Half of an interval is no multiple of the whole. -/
theorem not_dvd_half : ¬ 2 ^ (e + 1) ∣ 2 ^ e := fun h =>
  Nat.not_succ_le_self e ((Nat.pow_dvd_pow_iff_le_right (Nat.lt_succ_self 1)).1 h)

/-- A multiple of `2 ^ d` and not of `2 ^ (e + 1)`. -/
theorem le_of_dvd_of_not_dvd (hd : 2 ^ d ∣ o) (he : ¬ 2 ^ (e + 1) ∣ o) : d ≤ e := by
  by_contra hlt
  exact he ((Nat.pow_dvd_pow 2 (by omega)).trans hd)

/-- Behind an odd multiple of `2 ^ e` an aligned row with no equal neighbours can not come to a
multiple of `2 ^ (e + 1)`: its lengths go down from `2 ^ e` on. -/
theorem Aligned.dvd_end (h : Aligned o l) (hc : (e :: l).IsChain (· ≠ ·)) (he : 2 ^ e ∣ o)
    (hend : 2 ^ (e + 1) ∣ o + extent l) : 2 ^ (e + 1) ∣ o := by
  by_contra hodd
  induction l generalizing o e with
  | nil => exact hodd (by simpa using hend)
  | cons d l ih =>
    obtain ⟨hd, hl⟩ := h
    obtain ⟨hne, hc⟩ := List.isChain_cons_cons.1 hc
    have hlt : d + 1 ≤ e := Nat.lt_of_le_of_ne (le_of_dvd_of_not_dvd hd hodd) (Ne.symm hne)
    have hd' : 2 ^ (d + 1) ∣ o := (Nat.pow_dvd_pow 2 hlt).trans he
    refine ih hl hc ?_ ?_ fun hdvd => ?_
    · exact Nat.dvd_add hd (Nat.dvd_refl _)
    · rw [extent_cons, ← Nat.add_assoc] at hend
      exact (Nat.pow_dvd_pow 2 (by omega)).trans hend
    · exact not_dvd_half ((Nat.dvd_add_right hd').1 hdvd)

/-- In front of the last interval of an aligned row from `0` on, with no equal neighbours, is an
even multiple of its length. -/
theorem Aligned.dvd_last (h : Aligned 0 (l ++ [e])) (hc : (l ++ [e]).IsChain (· ≠ ·)) :
    2 ^ (e + 1) ∣ extent l := by
  by_contra hodd
  induction l using List.reverseRecOn generalizing e with
  | nil => exact hodd (by simp)
  | append_singleton l d ih =>
    rw [aligned_append, Nat.zero_add] at h
    obtain ⟨hl, he, -⟩ := h
    have hne : d ≠ e := by
      have := (List.isChain_append.1 hc).2.2
      exact this d (by simp) e (by simp)
    have hd : 2 ^ d ∣ extent l := by
      rw [aligned_append, Nat.zero_add] at hl
      exact hl.2.1
    have hend : extent (l ++ [d]) = extent l + 2 ^ d := by simp
    rw [hend] at he hodd
    have hlt : d + 1 ≤ e := by
      refine Nat.lt_of_le_of_ne (le_of_dvd_of_not_dvd ?_ hodd) hne
      exact Nat.dvd_add hd (Nat.dvd_refl _)
    refine ih hl (List.isChain_append.1 hc).1 fun hdvd => ?_
    have hd' : 2 ^ (d + 1) ∣ extent l + 2 ^ d := (Nat.pow_dvd_pow 2 hlt).trans he
    exact not_dvd_half ((Nat.dvd_add_right hdvd).1 hd')

/-- **An aligned row with no equal neighbours that has the length of one interval is this
interval.** -/
theorem Aligned.eq_singleton (h : Aligned 0 l) (hc : l.IsChain (· ≠ ·)) (hn : extent l = 2 ^ n) :
    l = [n] := by
  cases l with
  | nil => exact absurd hn.symm (Nat.two_pow_pos n).ne'
  | cons e l =>
    rw [extent_cons] at hn
    have hpow : 2 ^ e ≤ 2 ^ n := by omega
    have hle : e ≤ n := (Nat.pow_le_pow_iff_right (Nat.lt_succ_self 1)).1 hpow
    rcases Nat.eq_or_lt_of_le hle with rfl | hlt
    · cases l with
      | nil => rfl
      | cons d l =>
        have := Nat.two_pow_pos d
        rw [extent_cons] at hn
        omega
    · have hl : Aligned (2 ^ e) l := by simpa using h
      refine absurd (hl.dvd_end hc (Nat.dvd_refl _) ?_) not_dvd_half
      rw [hn]
      exact Nat.pow_dvd_pow 2 hlt

end C4OS.Foundations
