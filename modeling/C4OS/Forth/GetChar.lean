import C4OS.Forth.ReadKeyboard
import C4OS.Libc.Stdio

/-!
# The characters of the interpreter

The functions `read_include_file`, `read_line` and `minift_get_char` of `forth.c`. The interpreter
asks for one character after the other, and between two of them it may set a file that is included.
The characters come from a `Source`: the rest of the line that is being read, then the lines of the
file, then the lines that are typed. The pointer of `minift_get_char` stays in a string, and what is
read by it is what the source gives, in every order of calls (`run_eq_source`). A file that is set
while another one is read takes its place, and the lines of the other one that were not begun are
not read any more. Without another file the characters are those of the three parts, one after the
other (`Source.run_chars`).
-/

namespace C4OS.Forth

open Foundations Peripherals
open Libc (File NoNul Streams fgets fgets_eq fileLines noNul_cons noNul_nil noNul_readLine)
open Libc (readLine_line streams_file)

/-! ## The functions -/

/-- The messages that `read_keyboard` leaves when its loop is left. -/
def readRest (n : ℕ) : Locals → List Message → List Message
  | _, [] => []
  | s, msg :: msgs =>
    match keyCharacter msg with
    | none => readRest n s msgs
    | some c =>
      let s := { s with shown := s.shown ++ [c] }
      if s.i ≠ 0 ∧ c = backspace then readRest n { s with i := s.i - 1 } msgs
      else
        let s := s.write s.i c
        if c = Forth.newline then msgs
        else
          let s := { s with i := s.i + 1 }
          if s.i < n - 1 then readRest n s msgs else msgs

/-- The text that `minift_get_char` begins with. -/
def startText : List UInt8 :=
  (" : pstring while dup c@ 0 != begin dup c@ emit 1 + repeat ; ".toList ++
    " \">> C4-OS version 0.0.1\" pstring cr ".toList ++
    " \">> Type 'loadlibs' to load the default libraries.\" pstring cr ".toList ++
    " : loadlibs ".toList ++
    "   \"/data/forth/c4.fs\" \"r\" open-file if 0 = then ".toList ++
    "     include-file ".toList ++
    "   end ".toList ++
    " ; ".toList).map fun c => UInt8.ofNat c.toNat

/-- The static variables, with the messages that will come from the keyboard. The pointer is into
the text of the beginning, or into `input`. -/
structure Vars (σ : Type) where
  input : ℕ → UInt8
  inInput : Bool
  ptr : ℕ
  curInclude : Option (File σ)
  msgs : List Message

variable {σ : Type}

/-- The characters at the places that the pointer goes through. -/
def Vars.text (s : Vars σ) : ℕ → UInt8 :=
  if s.inInput then s.input else fun i => startText.getD i 0

section

variable (fread : σ → ℕ → ℕ → Option (σ × List UInt8))

/-- `read_include_file`. -/
def readIncludeFile (buf : ℕ → UInt8) (n : ℤ) (curInclude : Option (File σ)) :
    Option ((ℕ → UInt8) × Option (File σ)) :=
  let buf := Function.update buf 0 0
  match curInclude with
  | none => some (buf, none)
  | some fp => do
    let (fp, s) ← fgets fread n fp
    let buf := writeBytes buf 0 s
    -- the length of the string is zero
    if buf 0 = 0 then return (buf, none) else return (buf, some fp)

/-- `read_line`. -/
def readLine (n : ℕ) (s : Vars σ) : Option (Vars σ) :=
  if s.curInclude.isSome then do
    let (input, curInclude) ← readIncludeFile fread s.input n s.curInclude
    return { s with input := input, curInclude := curInclude }
  else
    let (locals, returns) := readKeyboard n s.input s.msgs
    if returns then
      some { s with
        input := locals.buf
        msgs := readRest n { buf := s.input, i := 0, shown := [], written := [] } s.msgs }
    else none

/-- `minift_get_char`, with a bound on the turns of its loop. -/
def miniftGetChar : ℕ → Vars σ → Option (Vars σ × UInt8)
  | 0, _ => none
  | fuel + 1, s =>
    if s.text s.ptr ≠ 0 then some ({ s with ptr := s.ptr + 1 }, s.text s.ptr)
    else do
      let s ← readLine fread 128 s
      miniftGetChar fuel { s with inInput := true, ptr := 0 }

end

/-! ## The source of the characters -/

/-- The lines that are typed, each with its newline. -/
def typedLines (n : ℕ) : List UInt8 → List UInt8 → List (List UInt8)
  | _, [] => []
  | l, c :: cs =>
    if c = Forth.newline then edit l c :: typedLines n [] cs
    else if (edit l c).length = n - 1 then edit l c :: typedLines n [] cs
    else typedLines n (edit l c) cs

/-- No line that is typed becomes full. -/
def neverFull (n : ℕ) : List UInt8 → List UInt8 → Bool
  | _, [] => true
  | l, c :: cs =>
    if c = Forth.newline then neverFull n [] cs
    else (edit l c).length ≠ n - 1 && neverFull n (edit l c) cs

/-- The rest of the line that is being read, what is left of the file, and the lines that are
typed. -/
structure Source where
  line : List UInt8
  file : List UInt8
  typed : List (List UInt8)

namespace Source

/-- All characters. -/
def text (src : Source) : List UInt8 := src.line ++ src.file ++ src.typed.flatten

/-- The next character. -/
def next (src : Source) : Option (UInt8 × Source) :=
  match src.line with
  | c :: line => some (c, { src with line := line })
  | [] =>
    match fileLines src.file with
    | (c :: line) :: _ => some (c, ⟨line, src.file.drop (line.length + 1), src.typed⟩)
    | _ =>
      match src.typed with
      | (c :: line) :: typed => some (c, ⟨line, [], typed⟩)
      | _ => none

end Source

/-- What the interpreter does: it asks for a character, or it calls `set_cur_include`. -/
inductive Act (σ : Type)
  | char
  | setCurInclude (fp : Option (File σ)) (content : List UInt8)

/-- The characters that the interpreter gets, until it waits. -/
def run (fread : σ → ℕ → ℕ → Option (σ × List UInt8)) (fuel : ℕ) :
    List (Act σ) → Vars σ → List UInt8
  | [], _ => []
  | .char :: acts, s =>
    match miniftGetChar fread fuel s with
    | none => []
    | some (s, c) => c :: run fread fuel acts s
  | .setCurInclude fp _ :: acts, s => run fread fuel acts { s with curInclude := fp }

/-- What the source gives. -/
def Source.run : List (Act σ) → Source → List UInt8
  | [], _ => []
  | .char :: acts, src =>
    match src.next with
    | none => []
    | some (c, src) => c :: run acts src
  | .setCurInclude _ content :: acts, src => run acts { src with file := content }

/-- A file that can be read as it is: there is no terminator in it, and its lines fit. -/
structure Included (holds : σ → List UInt8 → Prop) (fp : Option (File σ)) (content : List UInt8) :
    Prop where
  at_ : match fp with
    | none => content = []
    | some fp => fp.At holds content
  noNul : NoNul content
  fits : ∀ l ∈ fileLines content, l.length ≤ 127

/-- The characters are still to come from the source. -/
structure Coming (holds : σ → List UInt8 → Prop) (s : Vars σ) (src : Source) : Prop where
  strAt : StrAt s.text s.ptr src.line
  noNul : NoNul src.line
  file : Included holds s.curInclude src.file
  typed : typedLines 128 [] (typed s.msgs) = src.typed
  typed_noNul : NoNul (Forth.typed s.msgs)
  typed_fits : neverFull 128 [] (Forth.typed s.msgs) = true

/-! ## Lines that are typed -/

section

variable {n : ℕ} {l cs : List UInt8} {s : Locals} {msgs : List Message}

/-- The characters behind the first line. -/
def editRest (n : ℕ) : List UInt8 → List UInt8 → List UInt8
  | _, [] => []
  | l, c :: cs =>
    if c = Forth.newline then cs
    else if (edit l c).length = n - 1 then cs
    else editRest n (edit l c) cs

/-- The first line and the others. -/
theorem typedLines_eq : typedLines n l cs =
    if (editLine n l cs).2 = .typing then []
    else (editLine n l cs).1 :: typedLines n [] (editRest n l cs) := by
  induction cs generalizing l with
  | nil => rfl
  | cons c cs ih =>
    rw [typedLines, editLine, editRest]
    split
    · rfl
    · split
      · rfl
      · exact ih

theorem neverFull_eq : neverFull n l cs =
    ((editLine n l cs).2 ≠ .full && neverFull n [] (editRest n l cs)) := by
  induction cs generalizing l with
  | nil => rfl
  | cons c cs ih =>
    rw [neverFull, editLine, editRest]
    split
    · rfl
    · split
      · next h => simp [h]
      · next h => simp [h, ih]

theorem noNul_editRest (h : NoNul cs) : NoNul (editRest n l cs) := by
  induction cs generalizing l with
  | nil => exact h
  | cons c cs ih =>
    rw [editRest]
    split
    · exact (noNul_cons.1 h).2
    · split
      · exact (noNul_cons.1 h).2
      · exact ih (noNul_cons.1 h).2

theorem noNul_edit {c : UInt8} (hl : NoNul l) (hc : c ≠ 0) : NoNul (edit l c) := by
  rw [edit]
  split
  · exact fun b hb => hl b (List.dropLast_subset l hb)
  · intro b hb
    rcases List.mem_append.1 hb with hb | hb
    · exact hl b hb
    · rwa [List.mem_singleton.1 hb]

theorem noNul_editLine (hl : NoNul l) (h : NoNul cs) : NoNul (editLine n l cs).1 := by
  induction cs generalizing l with
  | nil => exact hl
  | cons c cs ih =>
    obtain ⟨hc, hcs⟩ := noNul_cons.1 h
    rw [editLine]
    split
    · exact noNul_edit hl hc
    · split
      · exact noNul_edit hl hc
      · exact ih (noNul_edit hl hc) hcs

/-- A line that ends with a newline is not empty. -/
theorem editLine_ne_nil (h : (editLine n l cs).2 = .newline) : (editLine n l cs).1 ≠ [] := by
  induction cs generalizing l with
  | nil => cases h
  | cons c cs ih =>
    rw [editLine] at h ⊢
    split
    · next hc =>
      have hne : c ≠ backspace := by
        rw [hc]
        decide
      rw [edit_append fun hand => hne hand.2]
      exact List.append_ne_nil_of_right_ne_nil l (List.cons_ne_nil c [])
    · next hc =>
      rw [if_neg hc] at h
      split
      · next hfull =>
        rw [if_pos hfull] at h
        cases h
      · next hfull =>
        rw [if_neg hfull] at h
        exact ih h

/-- The messages that are left type the characters behind the line. -/
theorem typed_readRest (h : Holds n s l) (hlt : l.length < n - 1) :
    typed (readRest n s msgs) = editRest n l (typed msgs) := by
  induction msgs generalizing s l with
  | nil => rfl
  | cons msg msgs ih =>
    rw [readRest]
    cases hc : keyCharacter msg with
    | none =>
      have htyped : typed (msg :: msgs) = typed msgs := List.filterMap_cons_none hc
      rw [htyped]
      exact ih h hlt
    | some c =>
      have htyped : typed (msg :: msgs) = c :: typed msgs := List.filterMap_cons_some hc
      rw [htyped, editRest]
      have hshown := h.shown (s.shown ++ [c])
      have hnil : s.i ≠ 0 ↔ l ≠ [] := by rw [h.i_eq, ne_eq, List.length_eq_zero_iff]
      dsimp only
      by_cases hdelete : s.i ≠ 0 ∧ c = backspace
      · obtain ⟨hi, rfl⟩ := hdelete
        have hlength : (edit l backspace).length < n - 1 := by
          rw [edit_backspace (hnil.mp hi), List.length_dropLast]
          omega
        have hnewline : backspace ≠ Forth.newline := by decide
        rw [if_pos ⟨hi, rfl⟩, if_neg hnewline, if_neg (Nat.ne_of_lt hlength)]
        have hholds := hshown.delete
        rw [← edit_backspace (hnil.mp hi)] at hholds
        exact ih hholds hlength
      · have hedit : edit l c = l ++ [c] := edit_append (by rwa [hnil] at hdelete)
        rw [if_neg hdelete, hedit]
        split
        · rfl
        · have hholds := hshown.append (show l.length < n by omega) c
          have hlength : (l ++ [c]).length = l.length + 1 := List.length_append
          have hi : s.i = l.length := h.i_eq
          by_cases hfull : (l ++ [c]).length = n - 1
          · have hge : ¬s.i + 1 < n - 1 := by omega
            rw [if_pos hfull]
            exact congrArg typed (if_neg hge)
          · have hlt' : s.i + 1 < n - 1 := by omega
            rw [if_neg hfull]
            exact (congrArg typed (if_pos hlt')).trans (ih hholds (by omega))

end

/-! ## One character -/

section

variable {fread : σ → ℕ → ℕ → Option (σ × List UInt8)} {holds : σ → List UInt8 → Prop}
  {s : Vars σ} {src : Source} {line : List UInt8} {c : UInt8}

theorem StrAt.not_nul {f : ℕ → UInt8} {a : ℕ} (h : StrAt f a (c :: line)) (hc : NoNul (c :: line)) :
    f a ≠ 0 := by
  rw [h.1]
  exact (noNul_cons.1 hc).1

/-- There is something left of the line. -/
theorem getChar_line (h : Coming holds s src) (hline : src.line = c :: line) (fuel : ℕ) :
    ∃ s', miniftGetChar fread (fuel + 1) s = some (s', c) ∧
      Coming holds s' { src with line := line } := by
  have hstr := h.strAt
  have hnul := h.noNul
  rw [hline] at hstr hnul
  refine ⟨{ s with ptr := s.ptr + 1 }, ?_, ?_⟩
  · rw [miniftGetChar, if_pos (StrAt.not_nul hstr hnul), hstr.1]
  · exact ⟨hstr.2, (noNul_cons.1 hnul).2, h.file, h.typed, h.typed_noNul, h.typed_fits⟩

/-- The next line is read from the file. -/
theorem readLine_file (hs : Streams fread holds) {fp : File σ} (hinc : s.curInclude = some fp)
    {content : List UInt8} (hat : fp.At holds content) (hnul : NoNul content) :
    ∃ s', readLine fread 128 s = some s' ∧ s'.msgs = s.msgs ∧
      StrAt s'.input 0 (Libc.readLine 127 content).1 ∧
      if (Libc.readLine 127 content).1 = [] then s'.curInclude = none
      else ∃ fp', s'.curInclude = some fp' ∧ fp'.At holds (Libc.readLine 127 content).2 := by
  have hsize : (2 : ℤ) ≤ 128 ∧ (128 : ℤ) < 2 ^ 31 := by decide
  obtain ⟨fp', hfgets, hat'⟩ := fgets_eq hs hat hsize
  have hroom : ((128 : ℤ) - 1).toNat = 127 := rfl
  rw [hroom] at hfgets hat'
  have hstr := strAt_writeBytes (Function.update s.input 0 0) 0 (Libc.readLine 127 content).1
  have hnul' := (noNul_readLine (m := 127) hnul).1
  generalize (Libc.readLine 127 content).1 = l at *
  have hread : readIncludeFile fread s.input ((128 : ℕ) : ℤ) (some fp) =
      some (writeBytes (Function.update s.input 0 0) 0 (l ++ [0]),
        if l = [] then none else some fp') := by
    rw [readIncludeFile]
    dsimp only
    rw [show ((128 : ℕ) : ℤ) = 128 from rfl, hfgets, Option.bind_eq_bind, Option.bind_some]
    cases l with
    | nil => exact if_pos hstr
    | cons c l => exact if_neg (StrAt.not_nul hstr hnul')
  refine ⟨{ s with
    input := writeBytes (Function.update s.input 0 0) 0 (l ++ [0])
    curInclude := if l = [] then none else some fp' }, ?_, rfl, hstr, ?_⟩
  · rw [readLine, hinc, hread]
    rfl
  · split
    · rfl
    · exact ⟨fp', rfl, hat'⟩

variable (fread) in
/-- The next line is typed. -/
theorem readLine_typed (hinc : s.curInclude = none) (hnul : NoNul (typed s.msgs))
    (hfits : neverFull 128 [] (typed s.msgs) = true) :
    match typedLines 128 [] (typed s.msgs) with
    | [] => readLine fread 128 s = none
    | l :: lines => ∃ s', readLine fread 128 s = some s' ∧ s'.curInclude = none ∧
        StrAt s'.input 0 l ∧ NoNul l ∧ l ≠ [] ∧ typedLines 128 [] (typed s'.msgs) = lines ∧
        NoNul (typed s'.msgs) ∧ neverFull 128 [] (typed s'.msgs) = true := by
  rw [neverFull_eq, Bool.and_eq_true, decide_eq_true_eq] at hfits
  obtain ⟨hfull, hrest⟩ := hfits
  have hfills : ¬Fills 128 (typed s.msgs) := fun h => hfull ((editLine_full_iff (by decide)).2 h)
  have hbuf := (readKeyboard_iff (by decide) s.input s.msgs).2 hfills
  have hempty : Holds 128 { buf := s.input, i := 0, shown := [], written := [] } [] :=
    ⟨rfl, fun _ hindex => absurd hindex (Nat.not_lt_zero _),
      fun _ hmem => absurd hmem List.not_mem_nil⟩
  have hleft : typed (readRest 128 _ s.msgs) = _ := typed_readRest hempty (by decide)
  rw [typedLines_eq]
  by_cases htyping : (editLine 128 [] (typed s.msgs)).2 = .typing
  · rw [if_pos htyping]
    have hreturns : (readKeyboard 128 s.input s.msgs).2 = false := by
      rw [← Bool.not_eq_true, hbuf.returns, not_not]
      exact htyping
    simp only [readLine, hinc, Option.isSome_none, hreturns, Bool.false_eq_true, if_false]
  · rw [if_neg htyping]
    have hreturns := hbuf.returns.2 htyping
    obtain ⟨hline, hend⟩ := hbuf.line hreturns
    have hnewline : (editLine 128 [] (typed s.msgs)).2 = .newline := by
      revert htyping hfull
      cases (editLine 128 [] (typed s.msgs)).2 <;> simp
    have hstr : StrAt (readKeyboard 128 s.input s.msgs).1.buf 0
        (editLine 128 [] (typed s.msgs)).1 := by
      apply strAt_of_bytes
      intro i hi
      rw [Nat.zero_add]
      rcases Nat.lt_or_eq_of_le hi with hlt | rfl
      · rw [hline i hlt, List.getD_append _ _ _ _ hlt, List.getD_eq_getElem _ _ hlt]
      · rw [hend]
        simp
    refine ⟨{ s with
      input := (readKeyboard 128 s.input s.msgs).1.buf
      msgs := readRest 128 { buf := s.input, i := 0, shown := [], written := [] } s.msgs },
      ?_, hinc, hstr, noNul_editLine noNul_nil hnul, editLine_ne_nil hnewline, ?_, ?_, ?_⟩
    · simp only [readLine, hinc, Option.isSome_none, hreturns, Bool.false_eq_true, if_false,
        if_true]
    · rw [hleft]
    · rw [hleft]
      exact noNul_editRest hnul
    · rw [hleft]
      exact hrest

/-- The end of a line was reached. -/
theorem getChar_end (h : StrAt s.text s.ptr []) (fuel : ℕ) :
    miniftGetChar fread (fuel + 1) s = (readLine fread 128 s).bind fun s' =>
      miniftGetChar fread fuel { s' with inInput := true, ptr := 0 } := by
  have hnul : s.text s.ptr = 0 := h
  rw [miniftGetChar, if_neg (not_not.2 hnul)]
  rfl

/-- The next line is typed, if there is one. -/
theorem getChar_typed {lines : List (List UInt8)} (h : Coming holds s ⟨[], [], lines⟩)
    (hinc : s.curInclude = none) (fuel : ℕ) :
    match (⟨[], [], lines⟩ : Source).next with
    | none => miniftGetChar fread (fuel + 2) s = none
    | some (c, src') => ∃ s', miniftGetChar fread (fuel + 2) s = some (s', c) ∧
        Coming holds s' src' := by
  have hread := readLine_typed fread hinc h.typed_noNul h.typed_fits
  rw [h.typed] at hread
  rw [getChar_end h.strAt]
  cases lines with
  | nil =>
    have hnone : readLine fread 128 s = none := hread
    show (readLine fread 128 s).bind _ = none
    rw [hnone, Option.bind_none]
  | cons l lines =>
    obtain ⟨s', hsome, hinc', hstr, hnul, hne, hlines, htyped, hfits⟩ := hread
    rw [hsome, Option.bind_some]
    cases l with
    | nil => exact absurd rfl hne
    | cons c line =>
      have hcoming : Coming holds { s' with inInput := true, ptr := 0 } ⟨c :: line, [], lines⟩ := by
        refine ⟨hstr, hnul, ⟨?_, noNul_nil, ?_⟩, hlines, htyped, hfits⟩
        · show match s'.curInclude with | none => _ | some fp => _
          rw [hinc']
        · exact fun l hl => absurd hl List.not_mem_nil
      exact getChar_line hcoming rfl fuel

/-- **The next character is that of the source.** -/
theorem getChar_eq (hs : Streams fread holds) (h : Coming holds s src) (fuel : ℕ) :
    match src.next with
    | none => miniftGetChar fread (fuel + 3) s = none
    | some (c, src') => ∃ s', miniftGetChar fread (fuel + 3) s = some (s', c) ∧
        Coming holds s' src' := by
  obtain ⟨line, file, lines⟩ := src
  cases line with
  | cons c line => exact getChar_line h rfl _
  | nil =>
    cases hinc : s.curInclude with
    | none =>
      obtain rfl : file = [] := by
        have hat := h.file.at_
        rw [hinc] at hat
        exact hat
      exact getChar_typed h hinc (fuel + 1)
    | some fp =>
      have hat : fp.At holds file := by
        have hat := h.file.at_
        rw [hinc] at hat
        exact hat
      obtain ⟨s', hread, hmsgs, hstr, hrest⟩ := readLine_file hs hinc hat h.file.noNul
      have htyped := h.typed
      have htyped_noNul := h.typed_noNul
      have htyped_fits := h.typed_fits
      rw [← hmsgs] at htyped htyped_noNul htyped_fits
      rw [getChar_end h.strAt, hread, Option.bind_some]
      by_cases hfile : file = []
      · -- the file ends, and the next line is typed
        subst hfile
        rw [Libc.readLine_nil] at hstr hrest
        rw [if_pos rfl] at hrest
        have hcoming : Coming holds { s' with inInput := true, ptr := 0 } ⟨[], [], lines⟩ := by
          refine ⟨hstr, noNul_nil, ⟨?_, noNul_nil, ?_⟩, htyped, htyped_noNul, htyped_fits⟩
          · show match s'.curInclude with | none => _ | some fp => _
            rw [hrest]
          · exact fun l hl => absurd hl List.not_mem_nil
        exact getChar_typed hcoming hrest fuel
      · obtain ⟨line, rest, hlines, happ, hne, hm⟩ := readLine_line hfile
        have hfit : line.length ≤ 127 := h.file.fits line (by rw [hlines]; exact .head _)
        rw [(hm 127).1 hfit] at hstr hrest
        rw [if_neg hne] at hrest
        obtain ⟨fp', hinc', hat'⟩ := hrest
        cases line with
        | nil => exact absurd rfl hne
        | cons c line =>
          have hnul := h.file.noNul
          have hfits : ∀ l ∈ fileLines rest, l.length ≤ 127 := fun l hl =>
            h.file.fits l (by rw [hlines]; exact .tail _ hl)
          have hdrop : file.drop (line.length + 1) = rest := by
            rw [happ]
            exact List.drop_left
          have hcoming : Coming holds { s' with inInput := true, ptr := 0 }
              ⟨c :: line, rest, lines⟩ := by
            refine ⟨hstr, fun b hb => hnul b ?_, ⟨?_, fun b hb => hnul b ?_, hfits⟩, htyped,
              htyped_noNul, htyped_fits⟩
            · rw [happ]
              exact List.mem_append_left _ hb
            · show match s'.curInclude with | none => _ | some fp => _
              rw [hinc']
              exact hat'
            · rw [happ]
              exact List.mem_append_right _ hb
          simp only [Source.next, hlines, hdrop]
          exact getChar_line hcoming rfl _

/-- The characters are those of the source, in every order of actions. -/
theorem run_coming (hs : Streams fread holds) (h : Coming holds s src) (fuel : ℕ)
    (acts : List (Act σ))
    (hacts : ∀ fp content, .setCurInclude fp content ∈ acts → Included holds fp content) :
    run fread (fuel + 3) acts s = src.run acts := by
  induction acts generalizing s src with
  | nil => rfl
  | cons act acts ih =>
    have htail : ∀ fp content, .setCurInclude fp content ∈ acts → Included holds fp content :=
      fun fp content hmem => hacts fp content (.tail _ hmem)
    cases act with
    | char =>
      have hnext := getChar_eq hs h fuel
      rw [run, Source.run]
      cases hsrc : src.next with
      | none =>
        rw [hsrc] at hnext
        have hnone : miniftGetChar fread (fuel + 3) s = none := hnext
        rw [hnone]
      | some r =>
        obtain ⟨c, src'⟩ := r
        rw [hsrc] at hnext
        obtain ⟨s', hchar, hcoming⟩ := hnext
        rw [hchar]
        exact congrArg (List.cons c) (ih hcoming htail)
    | setCurInclude fp content =>
      rw [run, Source.run]
      refine ih ⟨h.strAt, h.noNul, hacts fp content (.head _), h.typed, h.typed_noNul,
        h.typed_fits⟩ htail

end

/-! ## The characters one after the other -/

section

variable {fread : σ → ℕ → ℕ → Option (σ × List UInt8)} {holds : σ → List UInt8 → Prop}
  {s : Vars σ} {src : Source}

/-- The next character is the first one of all. -/
theorem Source.next_eq (h : ∀ l ∈ src.typed, l ≠ []) :
    match src.next with
    | none => src.text = []
    | some (c, src') => src.text = c :: src'.text ∧ ∀ l ∈ src'.typed, l ≠ [] := by
  obtain ⟨line, file, lines⟩ := src
  cases line with
  | cons c line => exact ⟨rfl, h⟩
  | nil =>
    by_cases hfile : file = []
    · subst hfile
      cases lines with
      | nil => rfl
      | cons l lines =>
        obtain ⟨hl, hlines⟩ := List.forall_mem_cons.1 h
        cases l with
        | nil => exact absurd rfl hl
        | cons c line => exact ⟨by simp [Source.text], hlines⟩
    · obtain ⟨line, rest, hlines, happ, hne, -⟩ := readLine_line hfile
      cases line with
      | nil => exact absurd rfl hne
      | cons c line =>
        have hdrop : file.drop (line.length + 1) = rest := by
          rw [happ]
          exact List.drop_left
        simp only [Source.next, hlines, hdrop]
        exact ⟨by simp [Source.text, happ], h⟩

theorem Source.run_chars (h : ∀ l ∈ src.typed, l ≠ []) (n : ℕ) :
    src.run (List.replicate n (Act.char : Act σ)) = src.text.take n := by
  induction n generalizing src with
  | zero => rfl
  | succ n ih =>
    have hnext := Source.next_eq h
    rw [List.replicate_succ, Source.run]
    cases hsrc : src.next with
    | none =>
      rw [hsrc] at hnext
      have hnil : src.text = [] := hnext
      rw [hnil, List.take_nil]
    | some r =>
      obtain ⟨c, src'⟩ := r
      rw [hsrc] at hnext
      obtain ⟨htext, hne⟩ := hnext
      rw [htext, List.take_succ_cons]
      exact congrArg (List.cons c) (ih hne)

/-- The variables before the first call. -/
def startVars (msgs : List Message) : Vars σ where
  input _ := 0
  inInput := false
  ptr := 0
  curInclude := none
  msgs := msgs

/-- A string and its terminator. -/
theorem strAt_getD (l : List UInt8) : StrAt (fun i => l.getD i 0) 0 l := by
  apply strAt_of_bytes
  intro i hi
  rw [Nat.zero_add]
  rcases Nat.lt_or_eq_of_le hi with hlt | rfl
  · exact (List.getD_append _ _ _ _ hlt).symm
  · simp

theorem noNul_startText : NoNul startText := by
  decide +kernel

theorem coming_start {msgs : List Message} (hnul : NoNul (typed msgs))
    (hfits : neverFull 128 [] (typed msgs) = true) : Coming holds (startVars msgs : Vars σ)
      ⟨startText, [], typedLines 128 [] (typed msgs)⟩ := by
  exact ⟨strAt_getD startText, noNul_startText,
    ⟨rfl, noNul_nil, fun l hl => absurd hl List.not_mem_nil⟩, rfl, hnul, hfits⟩

/-- **The interpreter reads its source.** For every order of characters that are asked for and files
that are set. -/
theorem run_eq_source (hs : Streams fread holds) {msgs : List Message} (hnul : NoNul (typed msgs))
    (hfits : neverFull 128 [] (typed msgs) = true) (fuel : ℕ) (acts : List (Act σ))
    (hacts : ∀ fp content, .setCurInclude fp content ∈ acts → Included holds fp content) :
    run fread (fuel + 3) acts (startVars msgs) =
      Source.run acts ⟨startText, [], typedLines 128 [] (typed msgs)⟩ :=
  run_coming hs (coming_start hnul hfits) fuel acts hacts

theorem typedLines_ne_nil {n : ℕ} {l cs : List UInt8} (h : neverFull n l cs = true) :
    ∀ line ∈ typedLines n l cs, line ≠ [] := by
  induction cs generalizing l with
  | nil => exact fun line hline => absurd hline List.not_mem_nil
  | cons c cs ih =>
    rw [typedLines]
    rw [neverFull] at h
    split
    · next hc =>
      rw [if_pos hc] at h
      refine List.forall_mem_cons.2 ⟨?_, ih h⟩
      have hne : c ≠ backspace := by
        rw [hc]
        decide
      rw [edit_append fun hand => hne hand.2]
      exact List.append_ne_nil_of_right_ne_nil l (List.cons_ne_nil c [])
    · next hc =>
      rw [if_neg hc, Bool.and_eq_true, decide_eq_true_eq] at h
      rw [if_neg h.1]
      exact ih h.2

end

/-- The messages of a line with two characters. -/
def lineMessages : List Message := [keyMessage 0x68, keyMessage 0x69, keyMessage 0x0a]

/-- A character of the start, a file that is set, and two more characters. -/
def threeActs : List (Act (List UInt8)) :=
  [.char, .setCurInclude (some ⟨[0x61, 0x0a], .prettyGood⟩) [0x61, 0x0a], .char, .char]

theorem run_eq_source_three : run Elf.freadFile 3 threeActs (startVars lineMessages) =
    Source.run threeActs ⟨startText, [], typedLines 128 [] (typed lineMessages)⟩ := by
  refine run_eq_source streams_file (by decide) (by decide) 0 threeActs ?_
  intro fp content hmem
  simp only [threeActs, List.mem_cons, List.not_mem_nil, or_false, reduceCtorEq, false_or,
    Act.setCurInclude.injEq] at hmem
  obtain ⟨rfl, rfl⟩ := hmem
  exact ⟨.inl ⟨rfl, rfl⟩, by decide, by decide⟩

end C4OS.Forth
