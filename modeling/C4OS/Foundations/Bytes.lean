import Mathlib.Algebra.Order.Ring.Int

/-!
# Numbers in bytes

The little-endian numbers in a memory of bytes, a function from addresses to bytes. `readLE k f a`
is the number in the `k` bytes from address `a` on, and `writeLE k f a x` the memory with the number
`x` there. What is written is read back modulo `256 ^ k` (`readLE_writeLE_self`), and a number is
not changed by a write next to it (`readLE_writeLE_of_disjoint`). One other byte changes a number as
`readLE_update` says. The bits of a memory are counted from the lowest one of its first byte on
(`bitAt`). A string ends with a zero byte, as `StrAt` says, and is where it was copied to
(`strAt_writeBytes`). A program on such a memory has no result when an access fails; `run_bind`
takes it apart statement by statement.
-/

namespace C4OS.Foundations

/-- A statement of a program that may have no result, and what follows it. -/
theorem run_bind {α β : Type} {x : Option α} {f : α → Option β} {a : α} {r : β} (h : x = some a)
    (hf : f a = some r) : (x >>= f) = some r := by
  rw [h]
  exact hf

/-- The number in `k` bytes. -/
def readLE : ℕ → (ℕ → UInt8) → ℕ → ℕ
  | 0, _, _ => 0
  | k + 1, f, a => (f a).toNat + 256 * readLE k f (a + 1)

/-- The memory with a number in `k` bytes. -/
def writeLE (k : ℕ) (f : ℕ → UInt8) (a x : ℕ) : ℕ → UInt8 := fun c =>
  if a ≤ c ∧ c < a + k then UInt8.ofNat (x / 256 ^ (c - a)) else f c

variable {f g : ℕ → UInt8} {a c k j x : ℕ}

/-- The same bytes at two places. -/
theorem readLE_congr_at {b : ℕ} (h : ∀ i < k, f (a + i) = g (b + i)) :
    readLE k f a = readLE k g b := by
  induction k generalizing a b with
  | zero => rfl
  | succ k ih =>
    have h₀ := h 0 (by omega)
    rw [Nat.add_zero, Nat.add_zero] at h₀
    rw [readLE, readLE, h₀, ih fun i hi => ?_]
    have := h (i + 1) (by omega)
    rwa [← Nat.add_assoc, Nat.add_right_comm, ← Nat.add_assoc, Nat.add_right_comm b] at this

theorem readLE_congr (h : ∀ i < k, f (a + i) = g (a + i)) : readLE k f a = readLE k g a :=
  readLE_congr_at h

theorem readLE_lt (k : ℕ) (f : ℕ → UInt8) (a : ℕ) : readLE k f a < 256 ^ k := by
  induction k generalizing a with
  | zero => simp [readLE]
  | succ k ih =>
    have h₁ := (f a).toNat_lt
    have h₂ := ih (a + 1)
    rw [readLE, Nat.pow_succ]
    omega

/-- Bytes written one by one. -/
theorem readLE_of_bytes (h : ∀ i < k, f (a + i) = UInt8.ofNat (x / 256 ^ i)) :
    readLE k f a = x % 256 ^ k := by
  induction k generalizing a x with
  | zero => simp [readLE, Nat.mod_one]
  | succ k ih =>
    have h₀ := h 0 (by omega)
    have hrest : readLE k f (a + 1) = x / 256 % 256 ^ k := by
      refine ih fun i hi => ?_
      have := h (i + 1) (by omega)
      rw [← Nat.add_assoc, Nat.add_right_comm] at this
      rw [this, Nat.div_div_eq_div_mul, Nat.pow_succ, Nat.mul_comm]
    rw [Nat.add_zero, Nat.pow_zero, Nat.div_one] at h₀
    rw [readLE, h₀, hrest, UInt8.toNat_ofNat', Nat.pow_succ 256 k, Nat.mul_comm (256 ^ k),
      Nat.mod_mul]

theorem readLE_writeLE_self : readLE k (writeLE k f a x) a = x % 256 ^ k := by
  refine readLE_of_bytes fun i hi => ?_
  rw [writeLE, if_pos ⟨by omega, by omega⟩, Nat.add_sub_cancel_left]

theorem readLE_writeLE_of_lt (hx : x < 256 ^ k) : readLE k (writeLE k f a x) a = x := by
  rw [readLE_writeLE_self, Nat.mod_eq_of_lt hx]

theorem writeLE_of_notMem (h : c < a ∨ a + k ≤ c) : writeLE k f a x c = f c := by
  rw [writeLE, if_neg (by omega)]

theorem readLE_writeLE_of_disjoint (h : c + j ≤ a ∨ a + k ≤ c) :
    readLE j (writeLE k f a x) c = readLE j f c :=
  readLE_congr fun i hi => writeLE_of_notMem (by omega)

theorem readLE_update_of_notMem {b : UInt8} (h : c < a ∨ a + k ≤ c) :
    readLE k (Function.update f c b) a = readLE k f a :=
  readLE_congr fun i hi => Function.update_of_ne (by omega) ..

/-- One byte of a number is replaced. -/
theorem readLE_update {i : ℕ} (hi : i < k) (b : UInt8) :
    readLE k (Function.update f (a + i) b) a + (f (a + i)).toNat * 256 ^ i =
      readLE k f a + b.toNat * 256 ^ i := by
  induction k generalizing a i with
  | zero => omega
  | succ k ih =>
    rw [readLE, readLE]
    cases i with
    | zero =>
      rw [Nat.add_zero, Function.update_self, readLE_update_of_notMem (.inl (Nat.lt_add_one a))]
      omega
    | succ i =>
      have hrest := ih (a := a + 1) (Nat.lt_of_succ_lt_succ hi)
      rw [Nat.add_right_comm, Nat.add_assoc] at hrest
      rw [Function.update_of_ne (by omega), Nat.pow_succ, ← Nat.mul_assoc, ← Nat.mul_assoc]
      omega

/-- The number with ones in all its bytes. -/
theorem writeLE_ones {i : ℕ} (h : i < k) : writeLE k f a (256 ^ k - 1) (a + i) = 255 := by
  have hsplit : 256 ^ k = 256 ^ i * (256 ^ (k - i - 1) * 256) := by
    rw [← Nat.pow_succ, ← Nat.pow_add]
    congr 1
    omega
  have hpos : 0 < 256 ^ i := Nat.pow_pos (by decide)
  have hdiv : (256 ^ k - 1) / 256 ^ i = 256 ^ (k - i - 1) * 256 - 1 := by
    have hlt : 0 < 256 ^ i * (256 ^ (k - i - 1) * 256) := hsplit ▸ Nat.pow_pos (by decide)
    rw [hsplit, Nat.mul_sub_div _ _ _ hlt, Nat.zero_div]
  have hpos' : 0 < 256 ^ (k - i - 1) := Nat.pow_pos (by decide)
  rw [writeLE, if_pos (by omega), Nat.add_sub_cancel_left, hdiv]
  apply UInt8.toNat_inj.1
  rw [UInt8.toNat_ofNat']
  show (256 ^ (k - i - 1) * 256 - 1) % 256 = 255
  omega

/-! ## Bits -/

/-- A bit of the bytes from an address on. -/
def bitAt (f : ℕ → UInt8) (a n : ℕ) : Bool := (f (a + n / 8)).toNat.testBit (n % 8)

/-- The bits of a number are those of its bytes. -/
theorem testBit_readLE {n : ℕ} (h : n < 8 * k) : (readLE k f a).testBit n = bitAt f a n := by
  induction k generalizing a n with
  | zero => omega
  | succ k ih =>
    have hlt : (f a).toNat < 2 ^ 8 := (f a).toNat_lt
    rw [readLE, Nat.add_comm, Nat.testBit_two_pow_mul_add _ hlt]
    split
    · next hn => rw [bitAt, Nat.div_eq_of_lt hn, Nat.mod_eq_of_lt hn, Nat.add_zero]
    · next hn =>
      rw [ih (by omega), bitAt, bitAt]
      have h₁ : a + 1 + (n - 8) / 8 = a + n / 8 := by omega
      have h₂ : (n - 8) % 8 = n % 8 := by omega
      rw [h₁, h₂]

theorem bitAt_writeLE {n o : ℕ} (h : 8 * o ≤ n) (h' : n < 8 * (o + k)) :
    bitAt (writeLE k f (a + o) x) a n = x.testBit (n - 8 * o) := by
  have hpow : 256 ^ (a + n / 8 - (a + o)) = 2 ^ (8 * (n / 8 - o)) := by
    rw [Nat.add_sub_add_left, Nat.pow_mul]
  rw [bitAt, writeLE, if_pos ⟨by omega, by omega⟩, UInt8.toNat_ofNat', hpow,
    Nat.testBit_mod_two_pow, Nat.testBit_div_two_pow, decide_eq_true (Nat.mod_lt n (by decide)),
    Bool.true_and]
  congr 1
  omega

theorem bitAt_writeLE_of_disjoint {n c : ℕ} (h : c < a ∧ c + n / 8 < a ∨ a + k ≤ c + n / 8) :
    bitAt (writeLE k f a x) c n = bitAt f c n := by
  rw [bitAt, writeLE_of_notMem (by omega), bitAt]

/-- One bit of a number is set. -/
theorem bitAt_setBit {n o i : ℕ} (hi : i < 8 * k) :
    bitAt (writeLE k f (a + o) (readLE k f (a + o) ||| 2 ^ i)) a n =
      (bitAt f a n || decide (n = 8 * o + i)) := by
  by_cases h : 8 * o ≤ n ∧ n < 8 * (o + k)
  · rw [bitAt_writeLE h.1 h.2, Nat.testBit_or, testBit_readLE (by omega), Nat.testBit_two_pow]
    have hbit : bitAt f (a + o) (n - 8 * o) = bitAt f a n := by
      have h₁ : a + o + (n - 8 * o) / 8 = a + n / 8 := by omega
      have h₂ : (n - 8 * o) % 8 = n % 8 := by omega
      rw [bitAt, bitAt, h₁, h₂]
    rw [hbit]
    congr 1
    rw [decide_eq_decide]
    omega
  · rw [bitAt_writeLE_of_disjoint (by omega), decide_eq_false (by omega), Bool.or_false]

/-! ## Strings -/

/-- The memory with bytes stored from an address on. -/
def writeBytes (f : ℕ → UInt8) (a : ℕ) (l : List UInt8) : ℕ → UInt8 := fun c =>
  if a ≤ c ∧ c < a + l.length then l.getD (c - a) 0 else f c

/-- There is a string at the address, with a zero byte behind it. -/
def StrAt (f : ℕ → UInt8) : ℕ → List UInt8 → Prop
  | a, [] => f a = 0
  | a, b :: s => f a = b ∧ StrAt f (a + 1) s

variable {s l : List UInt8}

theorem writeBytes_of_notMem (h : c < a ∨ a + l.length ≤ c) : writeBytes f a l c = f c := by
  rw [writeBytes, if_neg (by omega)]

theorem StrAt.congr (h : StrAt f a s) (hfg : ∀ c, a ≤ c → g c = f c) : StrAt g a s := by
  induction s generalizing a with
  | nil => exact (hfg a (Nat.le_refl a)).trans h
  | cons b s ih =>
    exact ⟨(hfg a (Nat.le_refl a)).trans h.1, ih h.2 fun c hc => hfg c (by omega)⟩

theorem strAt_of_bytes (h : ∀ i ≤ s.length, f (a + i) = (s ++ [0]).getD i 0) : StrAt f a s := by
  induction s generalizing a with
  | nil => exact h 0 (Nat.le_refl 0)
  | cons b s ih =>
    refine ⟨h 0 (Nat.zero_le _), ih fun i hi => ?_⟩
    have := h (i + 1) (Nat.succ_le_succ hi)
    rw [← Nat.add_assoc, Nat.add_right_comm] at this
    exact this

/-- A string is where it was copied to. -/
theorem strAt_writeBytes (f : ℕ → UInt8) (a : ℕ) (s : List UInt8) :
    StrAt (writeBytes f a (s ++ [0])) a s := by
  apply strAt_of_bytes
  intro i hi
  have hlen : (s ++ [0]).length = s.length + 1 := by simp
  rw [writeBytes, if_pos ⟨by omega, by omega⟩, Nat.add_sub_cancel_left]

end C4OS.Foundations
