import Mathlib.Algebra.CharP.Basic
import Mathlib.Algebra.CharP.Two
import Mathlib.Algebra.Group.Hom.End
import Mathlib.Data.BitVec
import Mathlib.Data.List.Prime
import Mathlib.Data.Nat.Bitwise
import Mathlib.Dynamics.PeriodicPts.Defs
import Mathlib.SetTheory.Cardinal.Finite
import Mathlib.Tactic.NoncommRing
import Mathlib.Tactic.Ring

/-!
# Binary polynomials and the periods of linear maps

A number stands for the polynomial over two elements whose coefficients are its bits. At a point
`x` of a ring of characteristic two, exclusive or is the sum of the values (`eval_xor`), and the
products modulo a polynomial that vanishes at `x` are the products of the values (`eval_mulMod`,
`eval_xPow`). These functions compute on numbers of a fixed width.

`minimalPeriod_of_primitive` is what they are for: a linear map that is a root of a primitive
polynomial has the same, maximal period at every point but zero. That a polynomial is `Primitive`
is checked with the prime factors of the period, each with an inverse of the power it stands for.
The words of a machine under exclusive or (`XorWord`) are such points.
-/

namespace C4OS.Foundations.BinaryPoly

open Function

/-! ## Values -/

section Values

variable {R : Type*} [Ring R] {x : R} {a b : ℕ}

/-- The value of the polynomial whose coefficients are the bits of `a`. -/
def eval (x : R) (a : ℕ) : R :=
  if a = 0 then 0 else ((a % 2 : ℕ) : R) + x * eval x (a / 2)
termination_by a
decreasing_by omega

@[simp] theorem eval_zero : eval x 0 = 0 := by
  rw [eval, if_pos rfl]

theorem eval_eq (x : R) (a : ℕ) : eval x a = ((a % 2 : ℕ) : R) + x * eval x (a / 2) := by
  by_cases ha : a = 0
  · subst ha
    simp
  · rw [eval, if_neg ha]

@[simp] theorem eval_one : eval x 1 = 1 := by
  rw [eval_eq]
  simp

theorem eval_two_mul : eval x (2 * a) = x * eval x a := by
  rw [eval_eq, Nat.mul_mod_right, Nat.mul_div_cancel_left a two_pos, Nat.cast_zero, zero_add]

theorem eval_two_pow (n : ℕ) : eval x (2 ^ n) = x ^ n := by
  induction n with
  | zero => rw [pow_zero, pow_zero, eval_one]
  | succ n ih => rw [pow_succ', eval_two_mul, ih, pow_succ']

/-- **Exclusive or is the sum of the values.** -/
theorem eval_xor [CharP R 2] (a b : ℕ) : eval x (a ^^^ b) = eval x a + eval x b := by
  induction a using Nat.strong_induction_on generalizing b with
  | h a ih =>
    by_cases ha : a = 0
    · subst ha
      rw [Nat.zero_xor, eval_zero, zero_add]
    have hlow : (((a ^^^ b) % 2 : ℕ) : R) = ((a % 2 : ℕ) : R) + ((b % 2 : ℕ) : R) := by
      rw [← Nat.cast_add]
      apply CharP.natCast_eq_natCast' R 2
      rw [Nat.ModEq, Nat.mod_mod]
      have h := Nat.testBit_xor a b 0
      rw [Nat.testBit_zero, Nat.testBit_zero, Nat.testBit_zero] at h
      rcases Nat.mod_two_eq_zero_or_one a with ha | ha <;>
        rcases Nat.mod_two_eq_zero_or_one b with hb | hb <;> simp_all
    have hhigh : (a ^^^ b) / 2 = a / 2 ^^^ b / 2 := Nat.xor_div_two
    rw [eval_eq x (a ^^^ b), hlow, hhigh, ih _ (by omega), eval_eq x a, eval_eq x b]
    noncomm_ring

end Values

/-! ## Products modulo a polynomial -/

/-- The product with `x` modulo the polynomial `p` of degree `w`. -/
def timesX (w p a : ℕ) : ℕ := (2 * a) ^^^ (2 * a / 2 ^ w * p)

/-- The product modulo `p` of the `n` low bits of `a` with `b`. -/
def mulMod (w p : ℕ) : ℕ → ℕ → ℕ → ℕ
  | 0, _, _ => 0
  | n + 1, a, b => timesX w p (mulMod w p n (a / 2) b) ^^^ (a % 2 * b)

/-- The power of `x` modulo `p` for an exponent of `n` bits. -/
def xPow (w p : ℕ) : ℕ → ℕ → ℕ
  | 0, _ => 1
  | n + 1, e =>
    let c := xPow w p n (e / 2)
    let c := mulMod w p w c c
    if e % 2 = 1 then timesX w p c else c

section Products

variable {R : Type*} [Ring R] [CharP R 2] {x : R} {w p n a b e : ℕ}

/-- The leading bit of the double of a number of `w` bits. -/
theorem two_mul_div_eq (ha : a < 2 ^ w) :
    2 * a / 2 ^ w = 0 ∧ 2 * a < 2 ^ w ∨ 2 * a / 2 ^ w = 1 ∧ 2 ^ w ≤ 2 * a := by
  rcases Nat.lt_or_ge (2 * a) (2 ^ w) with h | h
  · exact .inl ⟨Nat.div_eq_of_lt h, h⟩
  · exact .inr ⟨Nat.div_eq_of_lt_le (by rwa [one_mul]) (by omega), h⟩

theorem timesX_lt (hp : 2 ^ w ≤ p) (hp' : p < 2 ^ (w + 1)) (ha : a < 2 ^ w) :
    timesX w p a < 2 ^ w := by
  unfold timesX
  rcases two_mul_div_eq ha with ⟨h, hlt⟩ | ⟨h, hle⟩
  · rw [h, zero_mul, Nat.xor_zero]
    exact hlt
  · rw [h, one_mul]
    -- both numbers have the leading bit
    have hbit : ∀ c, 2 ^ w ≤ c → c < 2 ^ (w + 1) → c.testBit w = true := fun c hc hc' => by
      rw [Nat.testBit_eq_decide_div_mod_eq,
        Nat.div_eq_of_lt_le (by rwa [one_mul]) (by rw [pow_succ] at hc'; omega)]
      rfl
    have hlt : 2 * a < 2 ^ (w + 1) := by
      rw [pow_succ]
      omega
    apply Nat.lt_pow_two_of_testBit
    intro i hi
    rw [Nat.testBit_xor]
    rcases hi.eq_or_lt with rfl | hi
    · rw [hbit _ hle hlt, hbit _ hp hp']
      rfl
    · have hpow : 2 ^ (w + 1) ≤ 2 ^ i := Nat.pow_le_pow_right two_pos hi
      rw [Nat.testBit_lt_two_pow (hlt.trans_le hpow), Nat.testBit_lt_two_pow (hp'.trans_le hpow)]
      rfl

theorem eval_timesX (hx : eval x p = 0) (ha : a < 2 ^ w) :
    eval x (timesX w p a) = x * eval x a := by
  unfold timesX
  rw [eval_xor, eval_two_mul]
  rcases two_mul_div_eq ha with ⟨h, -⟩ | ⟨h, -⟩ <;> simp [h, hx]

theorem mod_two_mul_lt (hb : b < 2 ^ w) : a % 2 * b < 2 ^ w := by
  rcases Nat.mod_two_eq_zero_or_one a with h | h <;> rw [h] <;> omega

theorem mulMod_lt (hp : 2 ^ w ≤ p) (hp' : p < 2 ^ (w + 1)) (hb : b < 2 ^ w) :
    mulMod w p n a b < 2 ^ w := by
  induction n generalizing a with
  | zero => exact Nat.two_pow_pos w
  | succ n ih => exact Nat.xor_lt_two_pow (timesX_lt hp hp' ih) (mod_two_mul_lt hb)

/-- **The product of two values.** -/
theorem eval_mulMod (hp : 2 ^ w ≤ p) (hp' : p < 2 ^ (w + 1)) (hx : eval x p = 0)
    (ha : a < 2 ^ n) (hb : b < 2 ^ w) : eval x (mulMod w p n a b) = eval x a * eval x b := by
  induction n generalizing a with
  | zero =>
    obtain rfl : a = 0 := by omega
    simp [mulMod]
  | succ n ih =>
    have hhalf : a / 2 < 2 ^ n := by
      rw [pow_succ] at ha
      omega
    rw [mulMod, eval_xor, eval_timesX hx (mulMod_lt hp hp' hb), ih hhalf, eval_eq x a]
    have hlow : eval x (a % 2 * b) = ((a % 2 : ℕ) : R) * eval x b := by
      rcases Nat.mod_two_eq_zero_or_one a with h | h <;> simp [h]
    rw [hlow]
    noncomm_ring

theorem xPow_lt (hw : 0 < w) (hp : 2 ^ w ≤ p) (hp' : p < 2 ^ (w + 1)) : xPow w p n e < 2 ^ w := by
  induction n generalizing e with
  | zero => exact Nat.one_lt_two_pow hw.ne'
  | succ n ih =>
    have hsq := mulMod_lt (n := w) (a := xPow w p n (e / 2)) hp hp' (ih (e := e / 2))
    dsimp only [xPow]
    split
    · exact timesX_lt hp hp' hsq
    · exact hsq

/-- **A power of the point.** -/
theorem eval_xPow (hw : 0 < w) (hp : 2 ^ w ≤ p) (hp' : p < 2 ^ (w + 1)) (hx : eval x p = 0)
    (he : e < 2 ^ n) : eval x (xPow w p n e) = x ^ e := by
  induction n generalizing e with
  | zero =>
    obtain rfl : e = 0 := by omega
    simp [xPow]
  | succ n ih =>
    have hhalf : e / 2 < 2 ^ n := by
      rw [pow_succ] at he
      omega
    have hc := xPow_lt (n := n) (e := e / 2) hw hp hp'
    have hsq := eval_mulMod (x := x) hp hp' hx hc hc
    rw [ih hhalf, ← pow_add] at hsq
    dsimp only [xPow]
    split
    · rw [eval_timesX hx (mulMod_lt hp hp' hc), hsq, ← pow_succ']
      congr 1
      omega
    · rw [hsq]
      congr 1
      omega

end Products

/-! ## Periods -/

/-- The period is `n` when it divides `n` and no quotient of `n` by a prime. -/
theorem minimalPeriod_eq_of_prime {α : Type*} {f : α → α} {y : α} {n : ℕ}
    (h : IsPeriodicPt f n y)
    (hq : ∀ q, q.Prime → q ∣ n → ¬ IsPeriodicPt f (n / q) y) : minimalPeriod f y = n := by
  obtain ⟨a, ha⟩ := h.minimalPeriod_dvd
  by_contra hne
  have ha1 : a ≠ 1 := by
    rintro rfl
    exact hne (by rw [ha, mul_one])
  have hmin : a.minFac ∣ a := a.minFac_dvd
  refine hq _ (Nat.minFac_prime ha1) (hmin.trans ⟨_, by rw [ha, mul_comm]⟩) ?_
  rw [isPeriodicPt_iff_minimalPeriod_dvd]
  obtain ⟨c, hc⟩ := hmin
  refine ⟨c, ?_⟩
  have hdiv : minimalPeriod f y * a = minimalPeriod f y * c * a.minFac := by
    conv_lhs => rw [hc]
    ring
  rw [ha, hdiv, Nat.mul_div_cancel _ (Nat.minFac_pos a)]

/-- The polynomial `p` of degree `w` is primitive. The factors are the primes of `2 ^ w - 1`, each
with an inverse of `x ^ ((2 ^ w - 1) / q) + 1` modulo `p`. -/
structure Primitive (w p : ℕ) (factors : List (ℕ × ℕ)) : Prop where
  width : 0 < w
  le : 2 ^ w ≤ p
  lt : p < 2 ^ (w + 1)
  period : xPow w p w (2 ^ w - 1) = 1
  prime : ∀ f ∈ factors, f.1.Prime
  prod : (factors.map Prod.fst).prod = 2 ^ w - 1
  inverse : ∀ f ∈ factors, f.2 < 2 ^ w ∧
    mulMod w p w f.2 (xPow w p w ((2 ^ w - 1) / f.1) ^^^ 1) = 1

section Primitive

variable {V : Type*} [AddCommGroup V] [CharP (AddMonoid.End V) 2] {L : AddMonoid.End V}
  {w p : ℕ} {factors : List (ℕ × ℕ)}

/-- **The period of a linear map** that is a root of a primitive polynomial. -/
theorem minimalPeriod_of_primitive (h : Primitive w p factors) (hL : eval L p = 0) {s : V}
    (hs : s ≠ 0) : minimalPeriod L s = 2 ^ w - 1 := by
  have hone : 1 < 2 ^ w := Nat.one_lt_two_pow h.width.ne'
  have hpow : ∀ e < 2 ^ w, L ^ e = eval L (xPow w p w e) := fun e he =>
    (eval_xPow h.width h.le h.lt hL he).symm
  apply minimalPeriod_eq_of_prime
  · show L^[2 ^ w - 1] s = s
    rw [← AddMonoid.End.coe_pow, hpow _ (by omega), h.period, eval_one]
    rfl
  · intro q hq hdvd hper
    -- the prime is one of the factors
    rw [← h.prod] at hdvd
    obtain ⟨r, hr, hqr⟩ := (Nat.Prime.prime hq).dvd_prod_iff.1 hdvd
    obtain ⟨f, hf, rfl⟩ := List.mem_map.1 hr
    obtain rfl : q = f.1 := (Nat.prime_dvd_prime_iff_eq hq (h.prime f hf)).1 hqr
    obtain ⟨hlt, hinv⟩ := h.inverse f hf
    have he : (2 ^ w - 1) / f.1 < 2 ^ w := (Nat.div_le_self ..).trans_lt (by omega)
    -- the map sends the point to itself, and the sum with the identity sends it to zero
    have hzero : (L ^ ((2 ^ w - 1) / f.1) + 1) s = 0 := by
      have hs' : (L ^ ((2 ^ w - 1) / f.1)) s = s := by
        rw [AddMonoid.End.coe_pow]
        exact hper
      have htwo : ((1 : AddMonoid.End V) + 1) s = 0 := by
        rw [CharTwo.add_self_eq_zero]
        rfl
      show (L ^ ((2 ^ w - 1) / f.1)) s + s = 0
      rw [hs']
      exact htwo
    have hval := eval_mulMod (x := L) h.le h.lt hL hlt
      (Nat.xor_lt_two_pow (xPow_lt (n := w) (e := (2 ^ w - 1) / f.1) h.width h.le h.lt) hone)
    rw [hinv, eval_one, eval_xor, eval_one, ← hpow _ he] at hval
    apply hs
    calc s = (1 : AddMonoid.End V) s := rfl
      _ = (eval L f.2 * (L ^ ((2 ^ w - 1) / f.1) + 1)) s := by rw [← hval]
      _ = eval L f.2 ((L ^ ((2 ^ w - 1) / f.1) + 1) s) := rfl
      _ = 0 := by rw [hzero, map_zero]

/-- A point other than zero never gets to zero: the rest of its cycle leads back to it. -/
theorem iterate_ne_zero_of_primitive (h : Primitive w p factors) (hL : eval L p = 0) {s : V}
    (hs : s ≠ 0) (k : ℕ) : L^[k] s ≠ 0 := by
  intro hk
  have hone : 1 < 2 ^ w := Nat.one_lt_two_pow h.width.ne'
  have hle : k ≤ (2 ^ w - 1) * (k + 1) := k.le_succ.trans (Nat.le_mul_of_pos_left _ (by omega))
  have hback : L^[(2 ^ w - 1) * (k + 1) - k + k] s = s := by
    rw [Nat.sub_add_cancel hle]
    apply isPeriodicPt_iff_minimalPeriod_dvd.2
    rw [minimalPeriod_of_primitive h hL hs]
    exact Nat.dvd_mul_right ..
  rw [iterate_add_apply, hk, ← AddMonoid.End.coe_pow, map_zero] at hback
  exact hs hback.symm

/-- All points but zero lie on one cycle. -/
theorem exists_iterate_of_primitive [Finite V] (h : Primitive w p factors) (hL : eval L p = 0)
    (hcard : Nat.card V = 2 ^ w) {s s' : V} (hs : s ≠ 0) (hs' : s' ≠ 0) :
    ∃ k < 2 ^ w - 1, L^[k] s = s' := by
  have hper := minimalPeriod_of_primitive h hL hs
  let cycle : Fin (2 ^ w - 1) → {v : V // v ≠ 0} := fun k => 
    ⟨L^[k] s, iterate_ne_zero_of_primitive h hL hs k⟩
  have hinj : Injective cycle := by
    intro i j hij
    have hiter : L^[(i : ℕ)] s = L^[(j : ℕ)] s := congrArg Subtype.val hij
    rw [iterate_eq_iterate_iff_of_lt_minimalPeriod (by rw [hper]; exact i.2)
      (by rw [hper]; exact j.2)] at hiter
    exact Fin.ext hiter
  have hcount : Nat.card (Fin (2 ^ w - 1)) = Nat.card {v : V // v ≠ 0} := by
    classical
    have := Fintype.ofFinite V
    rw [Nat.card_eq_fintype_card, Nat.card_eq_fintype_card, Fintype.card_fin,
      Fintype.card_subtype_compl, Fintype.card_subtype_eq, ← Nat.card_eq_fintype_card, hcard]
  obtain ⟨k, hk⟩ := (hinj.bijective_of_nat_card_le hcount.ge).2 ⟨s', hs'⟩
  exact ⟨k, k.2, congrArg Subtype.val hk⟩

end Primitive

/-! ## Words under exclusive or -/

/-- The words of `w` bits, with exclusive or as the sum. -/
def XorWord (w : ℕ) : Type := BitVec w

namespace XorWord

variable {w : ℕ}

/-- A word as an element of the group. -/
def of (s : BitVec w) : XorWord w := s

instance : Zero (XorWord w) := ⟨of 0#w⟩

instance : Add (XorWord w) := ⟨BitVec.xor⟩

instance : Neg (XorWord w) := ⟨id⟩

instance : AddCommGroup (XorWord w) where
  add_assoc := BitVec.xor_assoc
  zero_add _ := BitVec.zero_xor
  add_zero _ := BitVec.xor_zero
  neg_add_cancel _ := BitVec.xor_self
  add_comm := BitVec.xor_comm
  nsmul := nsmulRec
  zsmul := zsmulRec

theorem of_xor (s t : BitVec w) : of (s ^^^ t) = of s + of t := rfl

theorem of_zero : of 0#w = 0 := rfl

theorem add_self (a : XorWord w) : a + a = 0 := BitVec.xor_self

instance : Finite (XorWord w) := Finite.of_equiv _ BitVec.equivFin.symm.toEquiv

theorem card : Nat.card (XorWord w) = 2 ^ w := by
  rw [show Nat.card (XorWord w) = Nat.card (BitVec w) from rfl,
    Nat.card_congr (BitVec.equivFin (m := w)).toEquiv, Nat.card_eq_fintype_card, Fintype.card_fin]

/-- One more bit of a word. -/
theorem setWidth_succ (s : BitVec w) (n : ℕ) :
    (s.setWidth (n + 1)).setWidth w =
      (s.setWidth n).setWidth w ^^^ (if s.getLsbD n then BitVec.twoPow w n else 0#w) := by
  apply BitVec.eq_of_getLsbD_eq
  intro i hi
  rw [BitVec.getLsbD_xor, BitVec.getLsbD_setWidth, BitVec.getLsbD_setWidth,
    BitVec.getLsbD_setWidth, BitVec.getLsbD_setWidth]
  rcases Nat.lt_trichotomy i n with hlt | rfl | hgt
  · split <;> simp [hi, hlt, hlt.ne, Nat.lt_succ_of_lt hlt]
  · split <;> rename_i hn <;> simp_all
  · have hle : ¬ i < n + 1 := by omega
    split <;> simp [hi, hgt.ne', hle, hgt.not_gt]

/-- A linear map that sends the words of one bit to zero sends every word to zero. -/
theorem end_eq_zero {f : AddMonoid.End (XorWord w)} (h : ∀ i < w, f (of (BitVec.twoPow w i)) = 0) :
    f = 0 := by
  have hlow : ∀ (s : BitVec w), ∀ n ≤ w, f (of ((s.setWidth n).setWidth w)) = 0 := by
    intro s n hn
    induction n with
    | zero =>
      have hzero : (s.setWidth 0).setWidth w = 0#w := by
        apply BitVec.eq_of_getLsbD_eq
        intro i _
        simp
      rw [hzero, of_zero, map_zero]
    | succ n ih =>
      rw [setWidth_succ, of_xor, map_add, ih (by omega), zero_add]
      split
      · exact h n hn
      · rw [of_zero, map_zero]
  have hall : ∀ s : BitVec w, f (of s) = 0 := by
    intro s
    have hs := hlow s w le_rfl
    rwa [BitVec.setWidth_eq, BitVec.setWidth_eq] at hs
  ext s
  exact hall s

end XorWord

end C4OS.Foundations.BinaryPoly
