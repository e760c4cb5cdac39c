import C4OS.Libc.Strings
import Mathlib.Data.List.GetD
import Mathlib.Data.Nat.Digits.Lemmas

/-!
# Formatted output

The functions of `debug.c`, as the characters that they print. `c4_debug_print_num` stores the
digits of a number, the lowest one first, in an array of 33 characters, and prints them from the
last one on. It prints the numeral of the number (`printNum_eq`).

`c4_debug_printf` goes through its format character by character. A format is a list of pieces
(`Piece`), with a lone `%` at the end or not, and the output is what the pieces mean
(`printf_render`). Behind a lone `%` the function goes past the terminator of the format
(`printf_lone`).
-/

namespace C4OS.Libc

/-! ## Numbers -/

/-- The digits up to nine. -/
def decimalDigits : List UInt8 := [0x30, 0x31, 0x32, 0x33, 0x34, 0x35, 0x36, 0x37, 0x38, 0x39]

/-- The digits up to fifteen. -/
def hexDigits : List UInt8 := decimalDigits ++ [0x61, 0x62, 0x63, 0x64, 0x65, 0x66]

/-- The digits up to one. -/
def binaryDigits : List UInt8 := [0x30, 0x31]

/-- `decimal`. -/
def decimal : Chars := decimalDigits ++ [0]

/-- `hexadecimal`. -/
def hexadecimal : Chars := hexDigits ++ [0]

/-- `binary`. -/
def binary : Chars := binaryDigits ++ [0]

/-- `c4_debug_puts`. -/
def puts : Chars → Option (List UInt8)
  | [] => none
  | c :: s => if c = 0 then some [] else do return c :: (← puts s)

/-- The loop that stores digits on the stack, with the room that is left there. -/
def storeDigits (digit : ℕ → UInt8) (base : ℕ) : ℕ → ℕ → List UInt8 → Option (List UInt8)
  | _, 0, stack => some stack
  | 0, _ + 1, _ => none
  | room + 1, n + 1, stack =>
    storeDigits digit base room ((n + 1) / base) (digit ((n + 1) % base) :: stack)

/-- `c4_debug_print_num`: the stack is printed from its top on. -/
def printNum (n : ℕ) (baseStr : Chars) : Option (List UInt8) := do
  let base ← strlen baseStr
  if n = 0 ∨ base = 0 then return [0x30]
  storeDigits (fun d => baseStr.getD d 0) base 33 n []

/-- The numeral of a number, with the symbols for the digits. -/
def numeral (symbols : List UInt8) (n : ℕ) : List UInt8 :=
  if n = 0 then [0x30]
  else ((Nat.digits symbols.length n).reverse).map fun d => symbols.getD d 0

section

variable {symbols rest : List UInt8} {n room : ℕ} {stack : List UInt8}

/-- The digits are those of the number. -/
theorem storeDigits_eq {digit : ℕ → UInt8} (hbase : 1 < symbols.length)
    (hdigit : ∀ d < symbols.length, digit d = symbols.getD d 0)
    (hroom : n < symbols.length ^ room) : storeDigits digit symbols.length room n stack =
      some (((Nat.digits symbols.length n).reverse).map (fun d => symbols.getD d 0) ++ stack) := by
  induction room generalizing n stack with
  | zero =>
    obtain rfl : n = 0 := by simpa using hroom
    rw [Nat.digits_zero]
    rfl
  | succ room ih =>
    cases n with
    | zero =>
      rw [Nat.digits_zero]
      rfl
    | succ n =>
      have hlt : (n + 1) % symbols.length < symbols.length := Nat.mod_lt _ (by omega)
      have hrest : (n + 1) / symbols.length < symbols.length ^ room := by
        rw [Nat.div_lt_iff_lt_mul (by omega)]
        exact hroom
      rw [storeDigits, ih hrest, Nat.digits_def' hbase n.succ_pos, List.reverse_cons,
        List.map_append, List.append_assoc, hdigit _ hlt]
      rfl

/-- **A number is printed as its numeral.** -/
theorem printNum_eq (hsymbols : NoNul symbols) (hbase : 1 < symbols.length) (hn : n < 2 ^ 32) :
    printNum n (symbols ++ 0 :: rest) = some (numeral symbols n) := by
  have hzero : symbols.length ≠ 0 := by omega
  have hroom : n < symbols.length ^ 33 := by
    calc n < 2 ^ 33 := by omega
      _ ≤ symbols.length ^ 33 := Nat.pow_le_pow_left hbase 33
  rw [printNum, strlen_eq hsymbols, numeral]
  by_cases h : n = 0
  · rw [if_pos h]
    exact if_pos (.inl h)
  · rw [if_neg h, Option.bind_eq_bind, Option.bind_some, if_neg (by simp [h, hzero]),
      storeDigits_eq hbase (fun d hd => List.getD_append _ _ _ _ hd) hroom, List.append_nil]

end

/-! ## Formats -/

/-- An argument: a `char *` or an `unsigned`. -/
inductive Arg
  | string (s : Chars)
  | number (n : UInt32)

/-- An argument that is printed as a number. -/
def printArg (front : List UInt8) (baseStr : Chars) : List Arg → Option (List UInt8 × List Arg)
  | .number n :: args => do return (front ++ (← printNum n.toNat baseStr), args)
  | _ => none

/-- An argument that is printed as a string. -/
def putsArg : List Arg → Option (List UInt8 × List Arg)
  | .string s :: args => do return (← puts s, args)
  | _ => none

/-- The `switch` of `c4_debug_printf`: the output for a character behind a `%`, and the arguments
that are left. -/
def directive (d : UInt8) (args : List Arg) : Option (List UInt8 × List Arg) :=
  if d = 0x73 then putsArg args
  else if d = 0x75 then printArg [] decimal args
  else if d = 0x78 then printArg [] hexadecimal args
  else if d = 0x62 then printArg [] binary args
  else if d = 0x70 then printArg [0x30, 0x78] hexadecimal args
  else some ([], args)

/-- `c4_debug_printf`. There is no output when an argument is missing or of another type. -/
def printf : Chars → List Arg → Option (List UInt8)
  | [], _ => none
  | c :: s, args =>
    if c = 0 then some []
    else if c = 0x25 then
      match s with
      | [] => none
      | d :: s => do
        let (out, args) ← directive d args
        return out ++ (← printf s args)
    else do return c :: (← printf s args)

/-- The notations of numbers. -/
inductive Notation
  | unsigned | hex | binary | pointer

/-- The letter of a notation. -/
def Notation.letter : Notation → UInt8
  | .unsigned => 0x75
  | .hex => 0x78
  | .binary => 0x62
  | .pointer => 0x70

/-- A number in a notation. -/
def Notation.text : Notation → ℕ → List UInt8
  | .unsigned, n => numeral decimalDigits n
  | .hex, n => numeral hexDigits n
  | .binary, n => numeral binaryDigits n
  | .pointer, n => [0x30, 0x78] ++ numeral hexDigits n

/-- A piece of a format. -/
inductive Piece
  | char (c : UInt8) (hzero : c ≠ 0) (hpercent : c ≠ 0x25)
  | string
  | number (kind : Notation)
  | ignored (d : UInt8) (hzero : d ≠ 0) (hstring : d ≠ 0x73)
      (hnumber : ∀ kind : Notation, d ≠ kind.letter)

namespace Piece

/-- How a piece is written. -/
def render : Piece → List UInt8
  | char c _ _ => [c]
  | string => [0x25, 0x73]
  | number kind => [0x25, kind.letter]
  | ignored d _ _ _ => [0x25, d]

/-- What a piece means: its output for the arguments, and the ones that are left. -/
def text : Piece → List Arg → Option (List UInt8 × List Arg)
  | char c _ _, args => some ([c], args)
  | string, .string s :: args => if 0 ∈ s then some (s.takeWhile (· ≠ 0), args) else none
  | number kind, .number n :: args => some (kind.text n.toNat, args)
  | ignored _ _ _ _, args => some ([], args)
  | _, _ => none

end Piece

/-- What pieces mean. -/
def texts : List Piece → List Arg → Option (List UInt8 × List Arg)
  | [], args => some ([], args)
  | p :: ps, args => do
    let (out, args) ← p.text args
    let (outs, args) ← texts ps args
    return (out ++ outs, args)

theorem puts_eq (s : Chars) : puts s = if 0 ∈ s then some (s.takeWhile (· ≠ 0)) else none := by
  induction s with
  | nil => rfl
  | cons c s ih =>
    rw [puts]
    by_cases hc : c = 0
    · simp [hc]
    · have hmem : 0 ∈ c :: s ↔ 0 ∈ s := by simp [Ne.symm hc]
      rw [if_neg hc, ih, if_congr hmem rfl rfl]
      split
      · simp [hc]
      · rfl

theorem printArg_eq (front symbols : List UInt8) (hsymbols : NoNul symbols)
    (hbase : 1 < symbols.length) (n : UInt32) (args : List Arg) :
    printArg front (symbols ++ [0]) (.number n :: args) =
      some (front ++ numeral symbols n.toNat, args) := by
  rw [printArg, printNum_eq hsymbols hbase n.toNat_lt]
  rfl

theorem directive_number (kind : Notation) (n : UInt32) (args : List Arg) :
    directive kind.letter (.number n :: args) = some (kind.text n.toNat, args) := by
  cases kind with
  | unsigned => exact printArg_eq [] decimalDigits (by decide) (by decide) n args
  | hex => exact printArg_eq [] hexDigits (by decide) (by decide) n args
  | binary => exact printArg_eq [] binaryDigits (by decide) (by decide) n args
  | pointer => exact printArg_eq [0x30, 0x78] hexDigits (by decide) (by decide) n args

theorem directive_ignored {d : UInt8} (hstring : d ≠ 0x73)
    (hnumber : ∀ kind : Notation, d ≠ kind.letter) (args : List Arg) :
    directive d args = some ([], args) := by
  have hunsigned : d ≠ 0x75 := hnumber .unsigned
  have hhex : d ≠ 0x78 := hnumber .hex
  have hbinary : d ≠ 0x62 := hnumber .binary
  have hpointer : d ≠ 0x70 := hnumber .pointer
  rw [directive, if_neg hstring, if_neg hunsigned, if_neg hhex, if_neg hbinary, if_neg hpointer]

@[simp] theorem printf_zero (s : Chars) (args : List Arg) : printf (0 :: s) args = some [] := by
  cases s <;> rfl

theorem printf_char {c : UInt8} (hzero : c ≠ 0) (hpercent : c ≠ 0x25) (s : Chars)
    (args : List Arg) : printf (c :: s) args = do return c :: (← printf s args) := by
  cases s <;> exact (if_neg hzero).trans (if_neg hpercent)

theorem printf_percent (d : UInt8) (s : Chars) (args : List Arg) :
    printf (0x25 :: d :: s) args = do
      let (out, args) ← directive d args
      return out ++ (← printf s args) := rfl

/-- A piece is printed, and then what is behind it. -/
theorem printf_piece (p : Piece) (s : Chars) (args : List Arg) :
    printf (p.render ++ s) args = do
      let (out, args) ← p.text args
      return out ++ (← printf s args) := by
  cases p with
  | char c hzero hpercent =>
    rw [Piece.render, List.singleton_append, printf_char hzero hpercent, Piece.text]
    rfl
  | string =>
    rw [Piece.render, List.cons_append, List.singleton_append, printf_percent]
    rcases args with _ | ⟨_ | n, args⟩
    · rfl
    · rw [directive, if_pos rfl, putsArg, puts_eq, Piece.text]
      split <;> rfl
    · rfl
  | number kind =>
    rw [Piece.render, List.cons_append, List.singleton_append, printf_percent]
    rcases args with _ | ⟨_ | n, args⟩
    · cases kind <;> rfl
    · cases kind <;> rfl
    · rw [directive_number, Piece.text]
  | ignored d hzero hstring hnumber =>
    rw [Piece.render, List.cons_append, List.singleton_append, printf_percent,
      directive_ignored hstring hnumber, Piece.text]

/-- **Pieces are printed as what they mean**, and then what is behind them. -/
theorem printf_render (ps : List Piece) (s : Chars) (args : List Arg) :
    printf (ps.flatMap Piece.render ++ s) args = do
      let (out, args) ← texts ps args
      return out ++ (← printf s args) := by
  induction ps generalizing args with
  | nil =>
    rw [List.flatMap_nil, List.nil_append, texts]
    exact (Option.bind_fun_some _).symm
  | cons p ps ih =>
    rw [List.flatMap_cons, List.append_assoc, printf_piece, texts]
    cases p.text args with
    | none => rfl
    | some first =>
      obtain ⟨out, args⟩ := first
      simp only [Option.bind_eq_bind, Option.bind_some, ih]
      cases texts ps args with
      | none => rfl
      | some others =>
        obtain ⟨outs, left⟩ := others
        cases hrest : printf s left <;> simp [hrest]

/-- Every format is made of pieces, but for a lone `%` at its end. -/
theorem exists_pieces {l : List UInt8} (h : NoNul l) : ∃ ps : List Piece,
    l = ps.flatMap Piece.render ∨ l = ps.flatMap Piece.render ++ [0x25] := by
  induction hlen : l.length using Nat.strong_induction_on generalizing l with
  | _ n ih =>
    cases l with
    | nil => exact ⟨[], .inl rfl⟩
    | cons c l =>
      obtain ⟨hc, hl⟩ := noNul_cons.1 h
      rw [List.length_cons] at hlen
      by_cases hpercent : c = 0x25
      · subst hpercent
        cases l with
        | nil => exact ⟨[], .inr rfl⟩
        | cons d l =>
          obtain ⟨hd, hl⟩ := noNul_cons.1 hl
          rw [List.length_cons] at hlen
          obtain ⟨ps, hps⟩ := ih l.length (by omega) hl rfl
          obtain ⟨p, hp⟩ : ∃ p : Piece, p.render = [0x25, d] := by
            by_cases hstring : d = 0x73
            · exact ⟨.string, by rw [hstring]; rfl⟩
            · by_cases hnumber : ∃ kind : Notation, d = kind.letter
              · obtain ⟨kind, rfl⟩ := hnumber
                exact ⟨.number kind, rfl⟩
              · exact ⟨.ignored d hd hstring fun kind heq => hnumber ⟨kind, heq⟩, rfl⟩
          refine ⟨p :: ps, hps.imp (fun heq => ?_) fun heq => ?_⟩ <;>
            rw [heq, List.flatMap_cons, hp] <;> rfl
      · obtain ⟨ps, hps⟩ := ih l.length (by omega) hl rfl
        refine ⟨.char c hc hpercent :: ps, hps.imp (fun heq => ?_) fun heq => ?_⟩ <;>
          rw [heq, List.flatMap_cons] <;> rfl

/-- Behind a lone `%` the function goes on past the terminator. -/
theorem printf_lone (s : Chars) (args : List Arg) :
    printf (0x25 :: 0 :: s) args = printf s args := by
  rw [printf_percent, directive_ignored (by decide) fun kind => by cases kind <;> decide]
  exact Option.bind_fun_some _

/-- **What `c4_debug_printf` prints.** For every format, whatever is in the memory behind it: what
its pieces mean, and after a lone `%` what the memory behind the terminator means as a format. -/
theorem printf_eq {l : List UInt8} (h : NoNul l) : ∃ ps : List Piece,
    (l = ps.flatMap Piece.render ∧ ∀ args rest,
      printf (l ++ 0 :: rest) args = (texts ps args).map Prod.fst) ∨
    (l = ps.flatMap Piece.render ++ [0x25] ∧ ∀ args rest,
      printf (l ++ 0 :: rest) args = do
        let (out, args) ← texts ps args
        return out ++ (← printf rest args)) := by
  obtain ⟨ps, heq | heq⟩ := exists_pieces h
  · refine ⟨ps, .inl ⟨heq, fun args rest => ?_⟩⟩
    rw [heq, printf_render]
    cases texts ps args with
    | none => rfl
    | some outs => simp
  · refine ⟨ps, .inr ⟨heq, fun args rest => ?_⟩⟩
    rw [heq, List.append_assoc, List.singleton_append, printf_render]
    simp only [printf_lone]

/-- The format `%x.` -/
theorem printf_eq_hex : ∃ ps : List Piece,
    ([0x25, 0x78, 0x2e] = ps.flatMap Piece.render ∧ ∀ args rest,
      printf ([0x25, 0x78, 0x2e] ++ 0 :: rest) args = (texts ps args).map Prod.fst) ∨
    ([0x25, 0x78, 0x2e] = ps.flatMap Piece.render ++ [0x25] ∧ ∀ args rest,
      printf ([0x25, 0x78, 0x2e] ++ 0 :: rest) args = do
        let (out, args) ← texts ps args
        return out ++ (← printf rest args)) :=
  printf_eq (by decide)

example : printf [0x25, 0x78, 0x2e, 0] [.number 0x2af] = some [0x32, 0x61, 0x66, 0x2e] := by decide

end C4OS.Libc
