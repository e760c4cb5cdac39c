import C4OS.Peripherals.Model

/-!
# Editing a line

The function `read_keyboard` of `forth.c`. The characters in the buffer before the index are those
of the line that is being edited (`Holds`), and the index is inside the buffer as long as the loop
runs (`readLoop_spec`). The loop is left in two ways. After a newline the index is that of the
newline, and the end of the line comes behind it. When the line is full, the index is already behind
the line, and the end of the line is written behind the buffer. So all goes well exactly where the
line never becomes full without a newline (`readKeyboard_iff`).
-/

namespace C4OS.Forth

open Peripherals

/-! ## The function -/

/-- `'\b'`. -/
abbrev backspace : UInt8 := 0x08

/-- `'\n'`. -/
abbrev newline : UInt8 := 0x0a

/-- The block at `retry`: the character of the message, or none, to try again. -/
def keyCharacter (msg : Message) : Option UInt8 :=
  if msg.type ≠ .keyboardEvent then none
  else
    let ev := keyboardParseEvent msg
    if keyboardEventIsModifier ev then none
    else if ev.event ≠ keyDown then none
    else some (UInt8.ofNat ev.character)

/-- The variables of `read_keyboard`, with the characters that the console shows, and the indices
that are written. -/
structure Locals where
  buf : ℕ → UInt8
  i : ℕ
  shown : List UInt8
  written : List ℕ

/-- `buf[index] = c`. -/
def Locals.write (s : Locals) (index : ℕ) (c : UInt8) : Locals :=
  { s with buf := Function.update s.buf index c, written := s.written ++ [index] }

/-- The loop of `read_keyboard`, from `retry`, and whether it is left: where there are no more
messages, it waits. -/
def readLoop (n : ℕ) : Locals → List Message → Locals × Bool
  | s, [] => (s, false)
  | s, msg :: msgs =>
    match keyCharacter msg with
    | none => readLoop n s msgs
    | some c =>
      let s := { s with shown := s.shown ++ [c] }
      if s.i ≠ 0 ∧ c = backspace then readLoop n { s with i := s.i - 1 } msgs
      else
        let s := s.write s.i c
        if c = newline then (s, true)
        else
          let s := { s with i := s.i + 1 }
          if s.i < n - 1 then readLoop n s msgs else (s, true)

/-- `read_keyboard`, and whether it returns. -/
def readKeyboard (n : ℕ) (buf : ℕ → UInt8) (msgs : List Message) : Locals × Bool :=
  let s : Locals := { buf := buf, i := 0, shown := [], written := [] }
  let (s, left) := if s.i < n - 1 then readLoop n s msgs else (s, true)
  if left then ({ s with i := s.i + 1 }.write (s.i + 1) 0, true) else (s, false)

/-! ## The line -/

/-- A character is typed: a backspace deletes the character before it. -/
def edit (l : List UInt8) (c : UInt8) : List UInt8 :=
  if l ≠ [] ∧ c = backspace then l.dropLast else l ++ [c]

/-- How far a line is. -/
inductive Ending where
  | typing
  | newline
  | full
  deriving DecidableEq

/-- The line that is edited, until its newline or until it has `n - 1` characters. -/
def editLine (n : ℕ) : List UInt8 → List UInt8 → List UInt8 × Ending
  | l, [] => (l, .typing)
  | l, c :: cs =>
    if c = newline then (edit l c, .newline)
    else if (edit l c).length = n - 1 then (edit l c, .full)
    else editLine n (edit l c) cs

/-- The characters that the messages type. -/
def typed (msgs : List Message) : List UInt8 := msgs.filterMap keyCharacter

/-- Nothing is written outside the buffer, the function returns after a newline or when the line is
full, and then the line is in the buffer, with its end. -/
structure LineInBuffer (n : ℕ) (buf : ℕ → UInt8) (msgs : List Message) : Prop where
  written_lt : ∀ index ∈ (readKeyboard n buf msgs).1.written, index < n
  returns : (readKeyboard n buf msgs).2 = true ↔ (editLine n [] (typed msgs)).2 ≠ .typing
  line : (readKeyboard n buf msgs).2 = true →
    (∀ index, (hindex : index < (editLine n [] (typed msgs)).1.length) →
      (readKeyboard n buf msgs).1.buf index = (editLine n [] (typed msgs)).1[index]) ∧
    (readKeyboard n buf msgs).1.buf (editLine n [] (typed msgs)).1.length = 0

/-- Before there is a newline, the line gets `n - 1` characters. -/
def Fills (n : ℕ) (cs : List UInt8) : Prop :=
  ∃ k ≤ cs.length, newline ∉ cs.take k ∧ ((cs.take k).foldl edit []).length = n - 1

instance (n : ℕ) (cs : List UInt8) : Decidable (Fills n cs) :=
  inferInstanceAs (Decidable (∃ k ≤ cs.length, newline ∉ cs.take k ∧
    ((cs.take k).foldl edit []).length = n - 1))

section Editing

variable {n : ℕ} {l cs : List UInt8} {c : UInt8}

theorem edit_backspace (h : l ≠ []) : edit l backspace = l.dropLast := if_pos ⟨h, rfl⟩

theorem edit_append (h : ¬(l ≠ [] ∧ c = backspace)) : edit l c = l ++ [c] := if_neg h

theorem length_edit_le (l : List UInt8) (c : UInt8) :
    (edit l c).length ≤ l.length + 1 := by
  rw [edit]
  split
  · rw [List.length_dropLast]
    omega
  · rw [List.length_append, List.length_singleton]

/-- A line becomes full where its characters do, before there is a newline. -/
theorem editLine_full_iff (h : l.length < n - 1) : (editLine n l cs).2 = .full ↔
    ∃ k ≤ cs.length, newline ∉ cs.take k ∧ ((cs.take k).foldl edit l).length = n - 1 := by
  induction cs generalizing l with
  | nil =>
    constructor
    · intro hfull
      cases hfull
    · rintro ⟨k, -, -, hlength⟩
      rw [List.take_nil] at hlength
      exact absurd hlength (Nat.ne_of_lt h)
  | cons c cs ih =>
    -- no character fills the line by itself
    have hsucc : (∃ k ≤ (c :: cs).length, newline ∉ (c :: cs).take k ∧
          (((c :: cs).take k).foldl edit l).length = n - 1) ↔
        c ≠ newline ∧ ∃ k ≤ cs.length, newline ∉ cs.take k ∧
          ((cs.take k).foldl edit (edit l c)).length = n - 1 := by
      constructor
      · rintro ⟨k, hk, hnewline, hlength⟩
        cases k with
        | zero => exact absurd hlength (Nat.ne_of_lt h)
        | succ k =>
          rw [List.take_succ_cons, List.mem_cons, not_or] at hnewline
          exact ⟨Ne.symm hnewline.1, k, Nat.le_of_succ_le_succ hk, hnewline.2, hlength⟩
      · rintro ⟨hc, k, hk, hnewline, hlength⟩
        refine ⟨k + 1, Nat.succ_le_succ hk, ?_, hlength⟩
        rw [List.take_succ_cons, List.mem_cons, not_or]
        exact ⟨Ne.symm hc, hnewline⟩
    rw [hsucc, editLine]
    split
    · rename_i hc
      simp [hc]
    · rename_i hc
      split
      · rename_i hlength
        exact iff_of_true rfl ⟨hc, 0, Nat.zero_le _, List.not_mem_nil, hlength⟩
      · rename_i hlength
        have hle := length_edit_le l c
        rw [ih (by omega)]
        exact (and_iff_right hc).symm

end Editing

/-! ## The loop -/

/-- The line is in the buffer, before the index, and no character is outside. -/
structure Holds (n : ℕ) (s : Locals) (l : List UInt8) : Prop where
  i_eq : s.i = l.length
  buf_eq : ∀ index, (h : index < l.length) → s.buf index = l[index]
  written_lt : ∀ index ∈ s.written, index < n

/-- The loop has edited the line. -/
structure Edited (n : ℕ) (r : Locals × Bool) (e : List UInt8 × Ending) : Prop where
  written_lt : ∀ index ∈ r.1.written, index < n
  left_iff : r.2 = true ↔ e.2 ≠ .typing
  buf_eq : ∀ index, (h : index < e.1.length) → r.1.buf index = e.1[index]
  newline : e.2 = .newline → r.1.i + 1 = e.1.length ∧ e.1.length < n
  full : e.2 = .full → r.1.i + 1 = n

section Loop

variable {n : ℕ} {s : Locals} {l : List UInt8} {c : UInt8}

namespace Holds

theorem shown (h : Holds n s l) (shown : List UInt8) : Holds n { s with shown := shown } l :=
  ⟨h.i_eq, h.buf_eq, h.written_lt⟩

theorem delete (h : Holds n s l) : Holds n { s with i := s.i - 1 } l.dropLast := by
  refine ⟨?_, fun index hindex => ?_, h.written_lt⟩
  · rw [List.length_dropLast, h.i_eq]
  · rw [List.getElem_dropLast]
    exact h.buf_eq index _

/-- A character is written behind the line. -/
theorem append (h : Holds n s l) (hlt : l.length < n) (c : UInt8) :
    Holds n { s.write s.i c with i := s.i + 1 } (l ++ [c]) := by
  refine ⟨?_, fun index hindex => ?_, fun index hmem => ?_⟩
  · rw [List.length_append, List.length_singleton, h.i_eq]
  · rw [List.length_append, List.length_singleton] at hindex
    rw [Locals.write, h.i_eq]
    rcases Nat.lt_succ_iff_lt_or_eq.mp hindex with hlt | rfl
    · rw [List.getElem_append_left hlt]
      exact (Function.update_of_ne (Nat.ne_of_lt hlt) ..).trans (h.buf_eq index hlt)
    · rw [List.getElem_concat_length rfl]
      exact Function.update_self ..
  · rcases List.mem_append.mp hmem with hmem | hmem
    · exact h.written_lt index hmem
    · rwa [List.mem_singleton.mp hmem, h.i_eq]

theorem edited_typing (h : Holds n s l) : Edited n (s, false) (l, .typing) := by
  refine ⟨h.written_lt, ?_, h.buf_eq, ?_, ?_⟩
  · exact iff_of_false Bool.false_ne_true fun hne => hne rfl
  · intro hending
    cases hending
  · intro hending
    cases hending

/-- After a newline the index is that of the newline. -/
theorem edited_newline (h : Holds n s l) (hlt : l.length < n - 1) :
    Edited n (s.write s.i newline, true) (l ++ [newline], .newline) := by
  have happend := h.append (show l.length < n by omega) newline
  refine ⟨happend.written_lt, iff_of_true rfl nofun, happend.buf_eq, ?_, ?_⟩
  · intro _
    have hi : s.i = l.length := h.i_eq
    have hlength : (l ++ [newline]).length = l.length + 1 := List.length_append
    show s.i + 1 = (l ++ [newline]).length ∧ (l ++ [newline]).length < n
    omega
  · intro hending
    cases hending

/-- When the line is full, the index is behind the line. -/
theorem edited_full (h : Holds n s l) (hlength : l.length + 1 = n) :
    Edited n (s, true) (l, .full) := by
  refine ⟨h.written_lt, iff_of_true rfl nofun, h.buf_eq, ?_, ?_⟩
  · intro hending
    cases hending
  · intro _
    rwa [h.i_eq]

end Holds

/-- The loop edits the line in the buffer. -/
theorem readLoop_spec (h : Holds n s l) (hlt : l.length < n - 1) (msgs : List Message) :
    Edited n (readLoop n s msgs) (editLine n l (typed msgs)) := by
  induction msgs generalizing s l with
  | nil => exact h.edited_typing
  | cons msg msgs ih =>
    rw [readLoop]
    cases hc : keyCharacter msg with
    | none =>
      rw [typed, List.filterMap_cons_none hc]
      exact ih h hlt
    | some c =>
      rw [typed, List.filterMap_cons_some hc, editLine]
      have hshown := h.shown (s.shown ++ [c])
      have hnil : s.i ≠ 0 ↔ l ≠ [] := by rw [h.i_eq, ne_eq, List.length_eq_zero_iff]
      dsimp only
      by_cases hdelete : s.i ≠ 0 ∧ c = backspace
      · obtain ⟨hi, rfl⟩ := hdelete
        have hlength : (edit l backspace).length < n - 1 := by
          rw [edit_backspace (hnil.mp hi), List.length_dropLast]
          omega
        have hnewline : backspace ≠ newline := by decide
        rw [if_pos ⟨hi, rfl⟩, if_neg hnewline, if_neg (Nat.ne_of_lt hlength)]
        have hholds := hshown.delete
        rw [← edit_backspace (hnil.mp hi)] at hholds
        exact ih hholds hlength
      · have hedit : edit l c = l ++ [c] := edit_append (by rwa [hnil] at hdelete)
        rw [if_neg hdelete, hedit]
        by_cases hnewline : c = newline
        · rw [if_pos hnewline, if_pos hnewline, hnewline]
          rw [hnewline] at hshown
          exact hshown.edited_newline hlt
        · have hholds := hshown.append (show l.length < n by omega) c
          have hlength : (l ++ [c]).length = l.length + 1 := List.length_append
          have hi : s.i = l.length := h.i_eq
          rw [if_neg hnewline, if_neg hnewline]
          by_cases hfull : (l ++ [c]).length = n - 1
          · have hge : ¬s.i + 1 < n - 1 := by omega
            rw [if_pos hfull]
            show Edited n (if s.i + 1 < n - 1 then _ else _) _
            rw [if_neg hge]
            exact hholds.edited_full (by omega)
          · have hlt' : s.i + 1 < n - 1 := by omega
            rw [if_neg hfull]
            show Edited n (if s.i + 1 < n - 1 then _ else _) _
            rw [if_pos hlt']
            exact ih hholds (by omega)

/-- The console shows the characters that are read, with the backspaces. -/
theorem readLoop_shown (n : ℕ) (s : Locals) (msgs : List Message) :
    (readLoop n s msgs).1.shown <+: s.shown ++ typed msgs := by
  induction msgs generalizing s with
  | nil => exact List.prefix_append ..
  | cons msg msgs ih =>
    rw [readLoop]
    cases hc : keyCharacter msg with
    | none =>
      rw [typed, List.filterMap_cons_none hc]
      exact ih s
    | some c =>
      rw [typed, List.filterMap_cons_some hc, List.append_cons]
      dsimp only
      split
      · exact ih _
      · split
        · exact List.prefix_append ..
        · split
          · exact ih _
          · exact List.prefix_append ..

end Loop

/-- The function begins with an empty line. -/
theorem readKeyboard_spec {n : ℕ} (hn : 2 ≤ n) (buf : ℕ → UInt8) (msgs : List Message) :
    ∃ r, Edited n r (editLine n [] (typed msgs)) ∧ readKeyboard n buf msgs =
      if r.2 then ({ r.1 with i := r.1.i + 1 }.write (r.1.i + 1) 0, true) else (r.1, false) := by
  have hlt : 0 < n - 1 := by omega
  have hholds : Holds n { buf := buf, i := 0, shown := [], written := [] } [] :=
    ⟨rfl, fun _ hindex => absurd hindex (Nat.not_lt_zero _),
      fun _ hmem => absurd hmem List.not_mem_nil⟩
  have hspec := readLoop_spec hholds hlt msgs
  refine ⟨_, hspec, ?_⟩
  rw [readKeyboard]
  dsimp only
  rw [if_pos hlt]

/-- **Line editing stays in its buffer** exactly where the line does not become full without a
newline. -/
theorem readKeyboard_iff {n : ℕ} (hn : 2 ≤ n) (buf : ℕ → UInt8) (msgs : List Message) :
    LineInBuffer n buf msgs ↔ ¬Fills n (typed msgs) := by
  have hempty : ([] : List UInt8).length < n - 1 := by
    rw [List.length_nil]
    omega
  obtain ⟨r, hr, heq⟩ := readKeyboard_spec hn buf msgs
  rw [Fills, ← editLine_full_iff hempty]
  constructor
  · intro hline hfull
    have hleft : r.2 = true := hr.left_iff.mpr (by rw [hfull]; nofun)
    have hmem : r.1.i + 1 ∈ (readKeyboard n buf msgs).1.written := by
      rw [heq, if_pos hleft]
      exact List.mem_append_right _ (List.mem_singleton_self _)
    have hlt := hline.written_lt _ hmem
    rw [hr.full hfull] at hlt
    exact Nat.lt_irrefl n hlt
  · intro hfull
    cases hleft : r.2 with
    | false =>
      rw [hleft, if_neg Bool.false_ne_true] at heq
      refine ⟨?_, ?_, ?_⟩
      · rw [heq]
        exact hr.written_lt
      · rw [heq, ← hr.left_iff, hleft]
      · intro hreturns
        rw [heq] at hreturns
        cases hreturns
    | true =>
      rw [hleft, if_pos rfl] at heq
      have hnewline : (editLine n [] (typed msgs)).2 = .newline := by
        have htyping := hr.left_iff.mp hleft
        revert htyping hfull
        cases (editLine n [] (typed msgs)).2 <;> simp
      obtain ⟨hi, hlt⟩ := hr.newline hnewline
      refine ⟨?_, ?_, ?_⟩
      · rw [heq]
        intro index hmem
        rcases List.mem_append.mp hmem with hmem | hmem
        · exact hr.written_lt index hmem
        · rw [List.mem_singleton.mp hmem, hi]
          exact hlt
      · rw [heq, ← hr.left_iff, hleft]
      · intro _
        rw [heq, hi]
        constructor
        · intro index hindex
          exact (Function.update_of_ne (Nat.ne_of_lt hindex) ..).trans (hr.buf_eq index hindex)
        · exact Function.update_self ..

/-- The message of a key that goes down. -/
def keyMessage (character : ℕ) : Message := keyboardMessage ⟨character, 0, 0, keyDown⟩

/-- Two characters, a backspace and a newline. -/
theorem readKeyboard_iff_hi : LineInBuffer 4 (fun _ => 0xff)
    [keyMessage 0x68, keyMessage 0x61, keyMessage 0x08, keyMessage 0x0a] :=
  (readKeyboard_iff (by decide) _ _).mpr (by decide)

/-- A line of 127 characters in a buffer of 128. -/
theorem readKeyboard_full : ¬∀ (n : ℕ) (buf : ℕ → UInt8) (msgs : List Message), 2 ≤ n →
    LineInBuffer n buf msgs := by
  intro h
  have hlt := (h 128 (fun _ => 0) (List.replicate 127 (keyMessage 0x61)) (by decide)).written_lt 128
  have hmem : 128 ∈ (readKeyboard 128 (fun _ => 0)
      (List.replicate 127 (keyMessage 0x61))).1.written := by
    decide +kernel
  exact absurd (hlt hmem) (Nat.lt_irrefl 128)

end C4OS.Forth
