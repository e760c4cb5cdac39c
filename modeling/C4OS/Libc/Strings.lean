import Mathlib.Data.List.Infix
import Mathlib.Data.Nat.Notation
import Mathlib.Data.List.Basic

/-!
# Strings

The functions of `string.c` that search and compare strings. A `char *` is the list of the bytes
that can be read from it on: a string is `l ++ 0 :: s`, with the bytes `l` in front of the
terminator and some `s` behind it. A function has no result where it reads behind what can be read.

`strncmp` ends at the limit by the same `return` as at the end of a string, so that it reads the
characters behind the limit and returns their difference (`strncmp_agree`). Where the strings differ
before the limit, or one of them ends there, it returns what `strcmp` does for the strings cut off
(`strncmp_eq_strcmp`); `strncmp_iff` says that it is right in these cases only.
-/

namespace C4OS.Libc

/-- What can be read from a `char *` on. -/
abbrev Chars := List UInt8

/-- The value of a `char`, which has a sign. -/
def char (c : UInt8) : ℤ := c.toInt8.toInt

variable {l l₁ l₂ p : List UInt8} {s s₁ s₂ m₁ m₂ : Chars} {c c₁ c₂ : UInt8} {n : ℕ}

theorem char_inj : char c₁ = char c₂ ↔ c₁ = c₂ := by
  refine ⟨fun h => ?_, fun h => h ▸ rfl⟩
  have hword : c₁.toInt8 = c₂.toInt8 := Int8.toInt_inj.1 h
  exact congrArg Int8.toUInt8 hword

@[simp] theorem char_zero : char 0 = 0 := rfl

/-- `strlen`. -/
def strlen : Chars → Option ℕ
  | [] => none
  | c :: s => if c = 0 then some 0 else do return (← strlen s) + 1

/-- `strchr`: the pointer to the character, or nothing for the null pointer. -/
def strchr : Chars → ℤ → Option (Option Chars)
  | [], _ => none
  | b :: s, c =>
    if b = 0 then some none
    else if char b = c then some (some (b :: s))
    else strchr s c

/-- `strcspn`. -/
def strcspn : Chars → Chars → Option ℕ
  | [], _ => none
  | b :: s, reject =>
    if b = 0 then some 0
    else do
      if (← strchr reject (char b)).isSome then return 0
      else return (← strcspn s reject) + 1

/-- `strcmp`. -/
def strcmp : Chars → Chars → Option ℤ
  | c₁ :: s₁, c₂ :: s₂ =>
    if c₁ ≠ 0 ∧ c₂ ≠ 0 then
      if char c₁ = char c₂ then strcmp s₁ s₂
      else if char c₁ < char c₂ then some (-1)
      else some 1
    else some (char c₁ - char c₂)
  | _, _ => none

/-- `strncmp`; `n` is what is left of the limit. -/
def strncmp : Chars → Chars → ℕ → Option ℤ
  | c₁ :: s₁, c₂ :: s₂, n =>
    if 0 < n ∧ c₁ ≠ 0 ∧ c₂ ≠ 0 then
      if char c₁ = char c₂ then strncmp s₁ s₂ (n - 1)
      else if char c₁ < char c₂ then some (-1)
      else some 1
    else some (char c₁ - char c₂)
  | _, _, _ => none

/-! ## Lengths -/

/-- A list of bytes that are not the terminator. -/
def NoNul (l : List UInt8) : Prop := ∀ c ∈ l, c ≠ 0

instance (l : List UInt8) : Decidable (NoNul l) := List.decidableBAll (· ≠ 0) l

@[simp] theorem noNul_nil : NoNul [] := fun _ h => absurd h List.not_mem_nil

@[simp] theorem noNul_cons : NoNul (c :: l) ↔ c ≠ 0 ∧ NoNul l := List.forall_mem_cons

theorem strlen_eq (h : NoNul l) (s : Chars) : strlen (l ++ 0 :: s) = some l.length := by
  induction l with
  | nil => rfl
  | cons c l ih =>
    obtain ⟨hc, hl⟩ := noNul_cons.1 h
    rw [List.cons_append, strlen, if_neg hc, ih hl]
    rfl

/-- The span up to a character. -/
theorem strcspn_single (hc : c ≠ 0) (h : ∀ b ∈ l, b ≠ 0 ∧ b ≠ c) {b : UInt8} (hb : b = 0 ∨ b = c)
    (s : Chars) : strcspn (l ++ b :: s) [c, 0] = some l.length := by
  induction l with
  | nil =>
    rw [List.nil_append, strcspn]
    split
    · rfl
    · next hzero =>
      obtain rfl := hb.resolve_left hzero
      rw [strchr, if_neg hc, if_pos rfl]
      rfl
  | cons a l ih =>
    obtain ⟨⟨ha, hac⟩, hl⟩ := List.forall_mem_cons.1 h
    have hne : ¬ char c = char a := fun he => hac (char_inj.1 he).symm
    rw [List.cons_append, strcspn, if_neg ha, strchr, if_neg hc, if_neg hne, strchr, if_pos rfl,
      ih hl]
    rfl

/-! ## Comparisons -/

theorem strcmp_cons (h₁ : c₁ ≠ 0) (h₂ : c₂ ≠ 0) : strcmp (c₁ :: s₁) (c₂ :: s₂) =
    if c₁ = c₂ then strcmp s₁ s₂ else if char c₁ < char c₂ then some (-1) else some 1 := by
  rw [strcmp, if_pos ⟨h₁, h₂⟩]
  simp only [char_inj]

theorem strncmp_cons (h₁ : c₁ ≠ 0) (h₂ : c₂ ≠ 0) : strncmp (c₁ :: s₁) (c₂ :: s₂) (n + 1) =
    if c₁ = c₂ then strncmp s₁ s₂ n else if char c₁ < char c₂ then some (-1) else some 1 := by
  rw [strncmp, if_pos ⟨Nat.succ_pos n, h₁, h₂⟩]
  simp only [char_inj, Nat.add_sub_cancel]

/-- Strings are compared as equal when they are. -/
theorem strcmp_eq_zero_iff (h₁ : NoNul l₁) (h₂ : NoNul l₂) (m₁ m₂ : Chars) :
    ∃ r, strcmp (l₁ ++ 0 :: m₁) (l₂ ++ 0 :: m₂) = some r ∧ (r = 0 ↔ l₁ = l₂) := by
  induction l₁ generalizing l₂ with
  | nil =>
    cases l₂ with
    | nil => exact ⟨0, rfl, by simp⟩
    | cons c₂ l₂ =>
      have hc : char c₂ ≠ 0 := fun h => (noNul_cons.1 h₂).1 (char_inj.1 h)
      refine ⟨char 0 - char c₂, if_neg fun h => h.1 rfl, ?_⟩
      simp [hc]
  | cons c₁ l₁ ih =>
    obtain ⟨hc₁, hl₁⟩ := noNul_cons.1 h₁
    cases l₂ with
    | nil =>
      have hc : char c₁ ≠ 0 := fun h => hc₁ (char_inj.1 h)
      refine ⟨char c₁ - char 0, if_neg fun h => h.2 rfl, ?_⟩
      simp [hc]
    | cons c₂ l₂ =>
      obtain ⟨hc₂, hl₂⟩ := noNul_cons.1 h₂
      simp only [List.cons_append, strcmp_cons hc₁ hc₂, List.cons.injEq]
      split_ifs with he hlt
      · obtain ⟨r, hr, hiff⟩ := ih hl₁ hl₂
        exact ⟨r, hr, by rw [hiff, and_iff_right he]⟩
      · exact ⟨-1, rfl, by simp [he]⟩
      · exact ⟨1, rfl, by simp [he]⟩

/-- The strings have their first `n` characters in common. -/
def AgreeUpTo (n : ℕ) (l₁ l₂ : List UInt8) : Prop := ∃ p, p.length = n ∧ p <+: l₁ ∧ p <+: l₂

theorem agreeUpTo_zero : AgreeUpTo 0 l₁ l₂ := ⟨[], rfl, List.nil_prefix, List.nil_prefix⟩

theorem agreeUpTo_cons : AgreeUpTo (n + 1) (c₁ :: l₁) (c₂ :: l₂) ↔ c₁ = c₂ ∧ AgreeUpTo n l₁ l₂ := by
  constructor
  · rintro ⟨_ | ⟨c, p⟩, hlen, h₁, h₂⟩
    · cases hlen
    · rw [List.cons_prefix_cons] at h₁ h₂
      exact ⟨h₁.1.symm.trans h₂.1, p, Nat.succ.inj hlen, h₁.2, h₂.2⟩
  · rintro ⟨rfl, p, rfl, h₁, h₂⟩
    exact ⟨c₁ :: p, rfl, List.cons_prefix_cons.2 ⟨rfl, h₁⟩, List.cons_prefix_cons.2 ⟨rfl, h₂⟩⟩

/-- There is no common prefix behind the end of a string. -/
theorem AgreeUpTo.le (h : AgreeUpTo n l₁ l₂) : n ≤ l₁.length ∧ n ≤ l₂.length := by
  obtain ⟨p, rfl, h₁, h₂⟩ := h
  exact ⟨h₁.length_le, h₂.length_le⟩

/-- **At the limit the characters behind it are compared.** -/
theorem strncmp_agree (h : NoNul p) :
    strncmp (p ++ c₁ :: s₁) (p ++ c₂ :: s₂) p.length = some (char c₁ - char c₂) := by
  induction p with
  | nil => exact if_neg fun h => absurd h.1 (Nat.lt_irrefl 0)
  | cons c p ih =>
    obtain ⟨hc, hp⟩ := noNul_cons.1 h
    rw [List.cons_append, List.cons_append, List.length_cons, strncmp_cons hc hc, if_pos rfl, ih hp]

/-- Before the limit the strings are compared like the strings cut off. -/
theorem strncmp_eq_strcmp (h₁ : NoNul l₁) (h₂ : NoNul l₂) (h : ¬ AgreeUpTo n l₁ l₂) :
    strncmp (l₁ ++ 0 :: m₁) (l₂ ++ 0 :: m₂) n = strcmp (l₁.take n ++ [0]) (l₂.take n ++ [0]) := by
  induction n generalizing l₁ l₂ with
  | zero => exact absurd agreeUpTo_zero h
  | succ n ih =>
    cases l₁ with
    | nil =>
      have hleft : ∀ {c : UInt8} {s s' t t' : Chars},
          strncmp (0 :: s) (c :: t) (n + 1) = strcmp (0 :: s') (c :: t') := fun {_ _ _ _ _} =>
        (if_neg fun h => h.2.1 rfl).trans (if_neg fun h => h.1 rfl).symm
      cases l₂ <;> exact hleft
    | cons c₁ l₁ =>
      obtain ⟨hc₁, hl₁⟩ := noNul_cons.1 h₁
      cases l₂ with
      | nil => exact (if_neg fun h => h.2.2 rfl).trans (if_neg fun h => h.2 rfl).symm
      | cons c₂ l₂ =>
        obtain ⟨hc₂, hl₂⟩ := noNul_cons.1 h₂
        rw [agreeUpTo_cons, not_and] at h
        simp only [List.cons_append, List.take_succ_cons, strncmp_cons hc₁ hc₂,
          strcmp_cons hc₁ hc₂]
        split_ifs with he
        · exact ih hl₁ hl₂ (h he)
        · rfl
        · rfl

/-- What is read before the limit: nothing behind it, unless the strings agree up to it. -/
theorem strncmp_reads_iff (h₁ : NoNul l₁) (h₂ : NoNul l₂) :
    (strncmp ((l₁ ++ [0]).take n) ((l₂ ++ [0]).take n) n).isSome ↔ ¬ AgreeUpTo n l₁ l₂ := by
  induction n generalizing l₁ l₂ with
  | zero => simp [strncmp, agreeUpTo_zero]
  | succ n ih =>
    cases l₁ with
    | nil =>
      refine iff_of_true ?_ fun h => absurd h.le.1 (Nat.not_succ_le_zero n)
      cases l₂ <;> simp [strncmp]
    | cons c₁ l₁ =>
      obtain ⟨hc₁, hl₁⟩ := noNul_cons.1 h₁
      cases l₂ with
      | nil =>
        refine iff_of_true ?_ fun h => absurd h.le.2 (Nat.not_succ_le_zero n)
        simp [strncmp]
      | cons c₂ l₂ =>
        obtain ⟨hc₂, hl₂⟩ := noNul_cons.1 h₂
        rw [agreeUpTo_cons, not_and]
        simp only [List.cons_append, List.take_succ_cons, strncmp_cons hc₁ hc₂]
        split_ifs with he hlt
        · rw [ih hl₁ hl₂, forall_prop_of_true he]
        · simp [he]
        · simp [he]

/-- `strncmp` returns a number with the sign of `strcmp` for the strings cut off, and it does not
read behind their first `n` characters. -/
def PrefixCompared (l₁ l₂ : List UInt8) (m₁ m₂ : Chars) (n : ℕ) : Prop :=
  (∃ r r', strncmp (l₁ ++ 0 :: m₁) (l₂ ++ 0 :: m₂) n = some r ∧
    strcmp (l₁.take n ++ [0]) (l₂.take n ++ [0]) = some r' ∧ r.sign = r'.sign) ∧
  (strncmp ((l₁ ++ [0]).take n) ((l₂ ++ [0]).take n) n).isSome

/-- **When a bounded comparison is right.** For all strings, whatever is behind them, and every
limit: just when the strings do not have all of their first `n` characters in common. -/
theorem strncmp_iff (h₁ : NoNul l₁) (h₂ : NoNul l₂) (m₁ m₂ : Chars) (n : ℕ) :
    PrefixCompared l₁ l₂ m₁ m₂ n ↔ ¬ AgreeUpTo n l₁ l₂ := by
  rw [PrefixCompared, strncmp_reads_iff h₁ h₂, and_iff_right_iff_imp]
  intro h
  have htake : ∀ {l}, NoNul l → NoNul (l.take n) := fun hl c hc => hl c (List.mem_of_mem_take hc)
  obtain ⟨r, hr, -⟩ := strcmp_eq_zero_iff (htake h₁) (htake h₂) [] []
  exact ⟨r, r, (strncmp_eq_strcmp h₁ h₂ h).trans hr, hr, rfl⟩

/-- `ab` and `ac`, compared up to two characters. -/
theorem strncmp_iff_ab : PrefixCompared [0x61, 0x62] [0x61, 0x63] [] [] 2 := by
  refine (strncmp_iff (by decide) (by decide) [] [] 2).2 ?_
  simp [agreeUpTo_cons]

/-- `a` and `a=`, compared up to one character, are not equal. -/
theorem strncmp_a : ¬ ∀ (l₁ l₂ : List UInt8) (m₁ m₂ : Chars) (n : ℕ), NoNul l₁ → NoNul l₂ →
    PrefixCompared l₁ l₂ m₁ m₂ n := by
  intro h
  obtain ⟨⟨r, r', hr, hr', hsign⟩, -⟩ := h [0x61] [0x61, 0x3d] [] [] 1 (by decide)
    (by decide)
  have hcompared : strncmp [0x61, 0] [0x61, 0x3d, 0] 1 = some (-61) := by decide
  have hcut : strcmp [0x61, 0] [0x61, 0] = some 0 := by decide
  cases hcompared.symm.trans hr
  cases hcut.symm.trans hr'
  exact absurd hsign (by decide)

end C4OS.Libc
