import C4OS.Foundations.BinaryPolynomials
import Mathlib.Tactic.NormNum.Prime

/-!
# The random numbers of the C4 runtime

The linear feedback shift register of `galois_lfsr.c`. The state of the generator is a word of 64
bits, and the numbers are made of the bits that leave it, one for each step.

The step is linear over exclusive or, and it is a root of the polynomial `x⁶⁴ + x⁴ + x³ + x + 1`,
which is primitive (`feedback_primitive`). So the states other than zero, where the register is
stuck, lie on one cycle (`lfsr_full_period`).
-/

namespace C4OS.Prng

open Foundations Foundations.BinaryPoly Function

/-! ## The generator -/

/-- `tapbit`. -/
def tapbit (bit : ℕ) : BitVec 64 := 1#64 <<< (bit - 1)

/-- `lfsr_next`. -/
def lfsrNext (state : BitVec 64) : BitVec 64 :=
  let bit := state &&& 1#64
  let state := state >>> 1
  if bit ≠ 0#64 then state ^^^ (tapbit 64 ||| tapbit 63 ||| tapbit 61 ||| tapbit 60) else state

/-- `lfsr_output`. -/
def lfsrOutput (state : BitVec 64) : Bool := state &&& 1#64 != 0#64

/-- `C4RT_PRNG_DEFAULT_SEED`, the state before any call. -/
def defaultSeed : BitVec 64 := 0xabadc0debabe#64

/-- `c4rt_prng_bool`, with the state after the call. -/
def prngBool (state : BitVec 64) : Bool × BitVec 64 := (lfsrOutput state, lfsrNext state)

/-- The loop of `c4rt_prng_u8`: `n` more bits for the number `ret`. -/
def prngBits : ℕ → BitVec 8 → BitVec 64 → BitVec 8 × BitVec 64
  | 0, ret, state => (ret, state)
  | n + 1, ret, state =>
    let (b, state) := prngBool state
    prngBits n (ret <<< 1 ||| (BitVec.ofBool b).setWidth 8) state

/-- `c4rt_prng_u8`. -/
def prngU8 (state : BitVec 64) : BitVec 8 × BitVec 64 := prngBits 8 0#8 state

/-- The body of the wider functions: two halves of `w` bits. Which one is made first is up to the
compiler. -/
def prngHalves {w : ℕ} (highFirst : Bool) (half : BitVec 64 → BitVec w × BitVec 64)
    (state : BitVec 64) : BitVec (w + w) × BitVec 64 :=
  let (a, state) := half state
  let (b, state) := half state
  (if highFirst then a ++ b else b ++ a, state)

/-- `c4rt_prng_u16`. -/
def prngU16 (highFirst : Bool) : BitVec 64 → BitVec 16 × BitVec 64 := prngHalves highFirst prngU8

/-- `c4rt_prng_u32`. -/
def prngU32 (highFirst : Bool) : BitVec 64 → BitVec 32 × BitVec 64 :=
  prngHalves highFirst (prngU16 highFirst)

/-- `c4rt_prng_u64`. -/
def prngU64 (highFirst : Bool) : BitVec 64 → BitVec 64 × BitVec 64 :=
  prngHalves highFirst (prngU32 highFirst)

/-! ## The steps of a call -/

theorem prngBits_state (n : ℕ) (ret : BitVec 8) (state : BitVec 64) :
    (prngBits n ret state).2 = lfsrNext^[n] state := by
  induction n generalizing ret state with
  | zero => rfl
  | succ n ih =>
    rw [iterate_succ_apply]
    exact ih ..

theorem prngHalves_state {w n : ℕ} {half : BitVec 64 → BitVec w × BitVec 64} {highFirst : Bool}
    (h : ∀ state, (half state).2 = lfsrNext^[n] state) (state : BitVec 64) :
    (prngHalves highFirst half state).2 = lfsrNext^[n + n] state := by
  unfold prngHalves
  rw [iterate_add_apply, ← h state]
  exact h _

/-- A number of `n` bits takes `n` steps, whichever half is made first. -/
theorem prngU32_state (highFirst : Bool) (state : BitVec 64) :
    (prngU32 highFirst state).2 = lfsrNext^[32] state :=
  prngHalves_state (prngHalves_state fun s => prngBits_state 8 0#8 s) state

theorem prngU64_state (highFirst : Bool) (state : BitVec 64) :
    (prngU64 highFirst state).2 = lfsrNext^[64] state :=
  prngHalves_state (prngU32_state highFirst) state

/-! ## The step is linear -/

theorem and_one_ne_zero_iff (s : BitVec 64) : s &&& 1#64 ≠ 0#64 ↔ s.getLsbD 0 = true := by
  constructor
  · intro h
    by_contra hs
    apply h
    apply BitVec.eq_of_getLsbD_eq
    intro i _
    rw [BitVec.getLsbD_and, BitVec.getLsbD_one]
    rcases Nat.eq_zero_or_pos i with rfl | hi
    · simpa using hs
    · simp [hi.ne']
  · intro h hs
    have hbit := congrArg (fun t => t.getLsbD 0) hs
    simp only [BitVec.getLsbD_and, h] at hbit
    exact absurd hbit (by decide)

theorem lfsrNext_xor (s t : BitVec 64) : lfsrNext (s ^^^ t) = lfsrNext s ^^^ lfsrNext t := by
  simp only [lfsrNext, and_one_ne_zero_iff, BitVec.getLsbD_xor]
  have hshift : (s ^^^ t) >>> 1 = s >>> 1 ^^^ t >>> 1 := BitVec.ushiftRight_xor_distrib ..
  rw [hshift]
  generalize tapbit 64 ||| tapbit 63 ||| tapbit 61 ||| tapbit 60 = taps
  cases s.getLsbD 0 <;> cases t.getLsbD 0
  · simp
  · simp [BitVec.xor_assoc]
  · simp [BitVec.xor_assoc, BitVec.xor_comm taps]
  · have htaps : s >>> 1 ^^^ taps ^^^ (t >>> 1 ^^^ taps) = s >>> 1 ^^^ t >>> 1 := by
      rw [BitVec.xor_assoc, BitVec.xor_comm taps, BitVec.xor_assoc, BitVec.xor_self,
        BitVec.xor_zero]
    simp [htaps]

/-- The step as a linear map. -/
def step : AddMonoid.End (XorWord 64) where
  toFun s := lfsrNext s
  map_zero' := show lfsrNext 0#64 = 0#64 by decide
  map_add' := lfsrNext_xor

theorem step_pow (n : ℕ) (s : BitVec 64) : (step ^ n) (XorWord.of s) = lfsrNext^[n] s := by
  rw [AddMonoid.End.coe_pow]
  rfl

/-! ## The polynomial of the taps -/

/-- The polynomial `x⁶⁴ + x⁴ + x³ + x + 1`. -/
def feedback : ℕ := 0x1000000000000001b

instance : CharP (AddMonoid.End (XorWord 64)) 2 := by
  apply CharTwo.of_one_ne_zero_of_two_eq_zero
  · intro h
    have hone : (1 : AddMonoid.End (XorWord 64)) (XorWord.of 1#64) = XorWord.of 0#64 := by
      rw [h]
      rfl
    exact absurd (show (1#64 : BitVec 64) = 0#64 from hone) (by decide)
  · rw [← one_add_one_eq_two]
    ext s
    exact XorWord.add_self s

/-- The step is a root of the polynomial: the words of one bit are sent to zero. -/
theorem eval_feedback : eval step feedback = 0 := by
  have hsum : feedback = 2 ^ 64 ^^^ (2 ^ 4 ^^^ (2 ^ 3 ^^^ (2 ^ 1 ^^^ 2 ^ 0))) := by decide
  rw [hsum]
  simp only [eval_xor, eval_two_pow]
  apply XorWord.end_eq_zero
  intro i hi
  have hbits : ∀ i < 64, lfsrNext^[64] (BitVec.twoPow 64 i) ^^^
      (lfsrNext^[4] (BitVec.twoPow 64 i) ^^^ (lfsrNext^[3] (BitVec.twoPow 64 i) ^^^
        (lfsrNext^[1] (BitVec.twoPow 64 i) ^^^ lfsrNext^[0] (BitVec.twoPow 64 i)))) = 0#64 := by
    decide +kernel
  have h := hbits i hi
  rw [← step_pow, ← step_pow, ← step_pow, ← step_pow, ← step_pow] at h
  exact h

/-- **The polynomial of the taps is primitive.** -/
theorem feedback_primitive : Primitive 64 feedback
    [(3, 0x19c9369f278adc02), (5, 0xb848d14948d52b97), (17, 0x13b052fbd1cfb5c),
      (257, 0xeccae21a9349fefe), (641, 0x5f744c0aa01d5bdb), (65537, 0x25bb4340671c0c5),
      (6700417, 0xbe4b5b6f21a0288b)] where
  width := by decide
  le := by decide
  lt := by decide
  period := by decide +kernel
  prime := by
    simp only [List.forall_mem_cons]
    norm_num
  prod := by decide
  inverse := by decide +kernel

/-! ## The period -/

/-- **The generator has full period.** From any state but zero the register comes back after the
multiples of `2 ^ 64 - 1` steps and no others, never reaches zero, and passes through every other
state. -/
theorem lfsr_full_period {s : BitVec 64} (hs : s ≠ 0#64) :
    (∀ k, lfsrNext^[k] s = s ↔ 2 ^ 64 - 1 ∣ k) ∧ (∀ k, lfsrNext^[k] s ≠ 0#64) ∧
      ∀ s', s' ≠ 0#64 → ∃ k < 2 ^ 64 - 1, lfsrNext^[k] s = s' := by
  have hne : XorWord.of s ≠ 0 := hs
  have hperiod := minimalPeriod_of_primitive feedback_primitive eval_feedback hne
  refine ⟨fun k => ?_, fun k => ?_, fun s' hs' => ?_⟩
  · rw [← hperiod, ← isPeriodicPt_iff_minimalPeriod_dvd]
    rfl
  · exact iterate_ne_zero_of_primitive feedback_primitive eval_feedback hne k
  · have hne' : XorWord.of s' ≠ 0 := hs'
    exact exists_iterate_of_primitive feedback_primitive eval_feedback XorWord.card hne hne'

theorem lfsr_full_period_seed :
    (∀ k, lfsrNext^[k] defaultSeed = defaultSeed ↔ 2 ^ 64 - 1 ∣ k) ∧
      (∀ k, lfsrNext^[k] defaultSeed ≠ 0#64) ∧
      ∀ s', s' ≠ 0#64 → ∃ k < 2 ^ 64 - 1, lfsrNext^[k] defaultSeed = s' :=
  lfsr_full_period (by decide)

end C4OS.Prng
