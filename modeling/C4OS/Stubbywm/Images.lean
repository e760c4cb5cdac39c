import C4OS.Libc.Debug
import C4OS.Libc.Paths
import C4OS.Stubbywm.Model
import Mathlib.Data.Int.ModEq

/-!
# Images

`ppm_load` of `ppm.c`, over the bytes that can be read from the file on. A number of the header is
read by `parse_text`: comments up to the ends of their lines, and a text up to a space, the end of
the line or a terminator. `strlcpy` copies the text into an array of 32 characters, and it looks for
a terminator behind the text, in the pixels if there is none before.

`ppmLoad_iff` says what is accepted, and as which image: three fields of a header (`HeaderField`)
and the pixels, where a zero byte comes behind the last text.
-/

namespace C4OS.Stubbywm

open Foundations
open Libc (Chars NoNul char strcspn strchr strlen strlcpy strlcpyLoop strlen_eq)

/-! ## The functions -/

/-- The loop of `atoi`. The sums wrap around. -/
def atoiLoop : ℤ → Chars → Option ℤ
  | _, [] => none
  | ret, c :: s =>
    if c = 0 then some ret else atoiLoop (int32 (int32 (ret * 10) + (char c - char 0x30))) s

/-- `atoi`. -/
def atoi (s : Chars) : Option ℤ := atoiLoop 0 s

/-- The loop of `parse_text` that goes past comments. -/
def skipComments : Chars → Option Chars
  | [] => none
  | c :: s =>
    if c = 0x23 then
      match strcspn (c :: s) [0x0a, 0] with
      | none => none
      | some n => skipComments (s.drop n)
    else some (c :: s)
termination_by buf => buf.length
decreasing_by
  rw [List.length_drop, List.length_cons]
  omega

/-- `parse_text`, with what is in `temp` before: the number, and what can be read behind it. A text
that is longer than `temp` overflows it; the assertion only prints. -/
def parseText (stack : ℕ → UInt8) (buf : Chars) : Option (ℕ × Chars) := do
  let buf ← skipComments buf
  let n ← strcspn buf [0x20, 0x0a, 0]
  if 32 < n + 1 then none
  else
    let (temp, _) ← strlcpy stack buf (n + 1)
    let number ← atoi ((List.range 32).map temp)
    return ((number % 2 ^ 32).toNat, buf.drop (n + 1))

/-- `ppm_t`. -/
structure PpmFile where
  version : UInt8
  width : ℕ
  height : ℕ
  pixbuf : Chars

/-- `ppm_load`. The assertion about the version only prints. -/
def ppmLoad (stack : ℕ → UInt8) (data : Chars) : Option PpmFile := do
  let version ← data[1]?
  let (width, buf) ← parseText stack (data.drop 3)
  let (height, buf) ← parseText stack buf
  let (_, buf) ← parseText stack buf
  return ⟨version, width, height, buf⟩

/-! ## The header -/

/-- A comment, with the end of its line. -/
structure Comment where
  text : List UInt8
  last : UInt8
  text_ok : ∀ c ∈ text, c ≠ 0 ∧ c ≠ 0x0a
  last_ok : last = 0 ∨ last = 0x0a

/-- How a comment is written. -/
def Comment.render (c : Comment) : List UInt8 := 0x23 :: c.text ++ [c.last]

/-- A field of the header: comments, a text, and what separates it from the next one. -/
structure HeaderField where
  comments : List Comment
  text : List UInt8
  sep : UInt8
  text_ok : ∀ c ∈ text, c ≠ 0 ∧ c ≠ 0x20 ∧ c ≠ 0x0a
  head_ok : text.head? ≠ some 0x23
  length_lt : text.length < 32
  sep_ok : sep = 0 ∨ sep = 0x20 ∨ sep = 0x0a

namespace HeaderField

/-- How a field is written. -/
def render (f : HeaderField) : List UInt8 :=
  f.comments.flatMap Comment.render ++ f.text ++ [f.sep]

/-- The number of a text, with a value for every character. -/
def number (l : List UInt8) : ℤ := l.foldl (fun n c => n * 10 + (char c - 48)) 0

/-- The number that is read. -/
def value (f : HeaderField) : ℕ := (number f.text % 2 ^ 32).toNat

end HeaderField

/-! ## Spans -/

section Spans

variable {reject l s buf : List UInt8} {b c : UInt8} {n : ℕ}

theorem strchr_reject (h : NoNul reject) (c : UInt8) :
    ∃ found, strchr (reject ++ [0]) (char c) = some found ∧ (found.isSome = true ↔ c ∈ reject) := by
  induction reject with
  | nil => exact ⟨none, rfl, by simp⟩
  | cons r reject ih =>
    obtain ⟨hr, hreject⟩ := Libc.noNul_cons.1 h
    rw [List.cons_append, strchr, if_neg hr]
    by_cases heq : char r = char c
    · rw [if_pos heq]
      exact ⟨_, rfl, by simp [Libc.char_inj.1 heq]⟩
    · have hne : c ≠ r := fun h => heq (h ▸ rfl)
      obtain ⟨found, hfound, hiff⟩ := ih hreject
      rw [if_neg heq]
      exact ⟨found, hfound, by simp [hiff, hne]⟩

variable (reject) in
/-- A span goes up to a character that is rejected, or to the terminator. -/
theorem strcspn_iff (h : NoNul reject) : strcspn buf (reject ++ [0]) = some n ↔
    ∃ l b s, buf = l ++ b :: s ∧ l.length = n ∧ (∀ c ∈ l, c ≠ 0 ∧ c ∉ reject) ∧
      (b = 0 ∨ b ∈ reject) := by
  induction buf generalizing n with
  | nil => simp [strcspn]
  | cons a buf ih =>
    rw [strcspn]
    by_cases ha : a = 0
    · rw [if_pos ha]
      constructor
      · rintro ⟨⟩
        exact ⟨[], a, buf, rfl, rfl, fun c hc => absurd hc List.not_mem_nil, .inl ha⟩
      · rintro ⟨_ | ⟨a', l⟩, b, s, heq, rfl, hl, hb⟩
        · rfl
        · obtain ⟨rfl, -⟩ := List.cons.inj heq
          exact absurd ha (hl a (.head _)).1
    · obtain ⟨found, hfound, hiff⟩ := strchr_reject h a
      rw [if_neg ha, hfound, Option.bind_eq_bind, Option.bind_some]
      by_cases hmem : a ∈ reject
      · rw [if_pos (hiff.2 hmem)]
        constructor
        · rintro ⟨⟩
          exact ⟨[], a, buf, rfl, rfl, fun c hc => absurd hc List.not_mem_nil, .inr hmem⟩
        · rintro ⟨_ | ⟨a', l⟩, b, s, heq, rfl, hl, hb⟩
          · rfl
          · obtain ⟨rfl, -⟩ := List.cons.inj heq
            exact absurd hmem (hl a (.head _)).2
      · rw [if_neg (fun hsome => hmem (hiff.1 hsome))]
        constructor
        · intro hrest
          obtain ⟨m, hm, heq⟩ := Option.bind_eq_some_iff.1 hrest
          cases heq
          obtain ⟨l, b, s, rfl, rfl, hl, hb⟩ := ih.1 hm
          exact ⟨a :: l, b, s, rfl, rfl, List.forall_mem_cons.2 ⟨⟨ha, hmem⟩, hl⟩, hb⟩
        · rintro ⟨_ | ⟨a', l⟩, b, s, heq, rfl, hl, hb⟩
          · obtain ⟨rfl, -⟩ := List.cons.inj heq
            rcases hb with hb | hb
            · exact absurd hb ha
            · exact absurd hb hmem
          · obtain ⟨rfl, rfl⟩ := List.cons.inj heq
            rw [ih.2 ⟨l, b, s, rfl, rfl, fun c hc => hl c (.tail _ hc), hb⟩]
            rfl

theorem strlen_eq_some_iff : (∃ n, strlen buf = some n) ↔ 0 ∈ buf := by
  induction buf with
  | nil => simp [strlen]
  | cons a buf ih =>
    rw [strlen, List.mem_cons]
    by_cases ha : a = 0
    · simp [ha]
    · rw [if_neg ha, ← ih]
      cases strlen buf <;> simp [Ne.symm ha]

end Spans

/-! ## Numbers -/

theorem map_writeBytes_self (f : ℕ → UInt8) (l : List UInt8) :
    (List.range l.length).map (writeBytes f 0 l) = l := by
  refine List.ext_getElem (by simp) fun i hi hi' => ?_
  rw [List.getElem_map, List.getElem_range, writeBytes, if_pos ⟨Nat.zero_le i, by omega⟩,
    Nat.sub_zero, List.getD_eq_getElem _ _ hi']

/-- An array that a string was copied to. -/
theorem map_writeBytes (stack : ℕ → UInt8) {l : List UInt8} (h : l.length < 32) :
    ∃ rest, (List.range 32).map (writeBytes stack 0 (l ++ [0])) = l ++ 0 :: rest := by
  obtain ⟨k, hk⟩ := Nat.exists_eq_add_of_lt h
  have hlength : 32 = (l ++ [0]).length + k := by simp [hk]; omega
  rw [hlength, List.range_add, List.map_append, map_writeBytes_self, List.append_assoc]
  exact ⟨_, rfl⟩

theorem int32_modEq (z : ℤ) : int32 z ≡ z [ZMOD 2 ^ 32] := Int.bmod_emod

/-- The number of a text is read, modulo the size of a word. -/
theorem atoiLoop_eq {l : List UInt8} (h : NoNul l) (rest : Chars) {m n : ℤ}
    (hmn : m ≡ n [ZMOD 2 ^ 32]) : ∃ z, atoiLoop m (l ++ 0 :: rest) = some z ∧
      z ≡ l.foldl (fun n c => n * 10 + (char c - 48)) n [ZMOD 2 ^ 32] := by
  induction l generalizing m n with
  | nil => exact ⟨m, rfl, hmn⟩
  | cons c l ih =>
    obtain ⟨hc, hl⟩ := Libc.noNul_cons.1 h
    have hnext : int32 (int32 (m * 10) + (char c - char 0x30)) ≡ n * 10 + (char c - 48)
        [ZMOD 2 ^ 32] :=
      (int32_modEq _).trans (((int32_modEq _).trans (hmn.mul_right 10)).add_right _)
    obtain ⟨z, hz, hmod⟩ := ih hl hnext
    refine ⟨z, ?_, hmod⟩
    rw [List.cons_append, atoiLoop, if_neg hc, hz]

theorem atoi_eq {l : List UInt8} (h : NoNul l) (rest : Chars) :
    (atoi (l ++ 0 :: rest)).map (fun z => (z % 2 ^ 32).toNat) =
      some (HeaderField.number l % 2 ^ 32).toNat := by
  obtain ⟨z, hz, hmod⟩ := atoiLoop_eq h rest (Int.ModEq.refl 0)
  rw [atoi, hz, Option.map_some, HeaderField.number, hmod]

/-! ## What is accepted -/

section Accepted

variable {stack : ℕ → UInt8} {data buf rest : Chars} {n : ℕ}

/-- The span of a comment. -/
theorem comment_iff : (strcspn (0x23 :: data) [0x0a, 0] = some n ∧ data.drop n = rest) ↔
    ∃ c : Comment, 0x23 :: data = c.render ++ rest ∧ c.text.length + 1 = n := by
  have hspan : strcspn (0x23 :: data) [0x0a, 0] = some n ↔ _ := strcspn_iff [0x0a] (by decide)
  rw [hspan]
  constructor
  · rintro ⟨⟨_ | ⟨a, l⟩, b, s, heq, rfl, hl, hb⟩, rfl⟩
    · obtain ⟨rfl, -⟩ := List.cons.inj heq
      exact absurd hb (by decide)
    · obtain ⟨rfl, rfl⟩ := List.cons.inj heq
      refine ⟨⟨l, b, fun c hc => ?_, by simpa using hb⟩, ?_, rfl⟩
      · simpa using hl c (.tail _ hc)
      · simp [Comment.render, List.drop_append]
  · rintro ⟨c, heq, rfl⟩
    obtain rfl : data = c.text ++ c.last :: rest := by
      simpa [Comment.render] using heq
    refine ⟨⟨0x23 :: c.text, c.last, rest, rfl, rfl, ?_, by simpa using c.last_ok⟩, ?_⟩
    · exact List.forall_mem_cons.2 ⟨by decide, fun a ha => by simpa using c.text_ok a ha⟩
    · simp [List.drop_append]

/-- Comments are skipped. -/
theorem skipComments_iff : skipComments data = some buf ↔
    ∃ cs : List Comment, data = cs.flatMap Comment.render ++ buf ∧
      ∃ c s, buf = c :: s ∧ c ≠ 0x23 := by
  induction hlen : data.length using Nat.strong_induction_on generalizing data with
  | _ k ih =>
    cases data with
    | nil =>
      rw [skipComments]
      refine iff_of_false (by simp) ?_
      rintro ⟨cs, heq, c, s, rfl, -⟩
      simp at heq
    | cons a data =>
      rw [List.length_cons] at hlen
      rw [skipComments]
      have hlt (n : ℕ) : (data.drop n).length < k := by
        rw [List.length_drop]
        omega
      by_cases ha : a = 0x23
      · rw [if_pos ha]
        subst ha
        constructor
        · intro h
          split at h
          · cases h
          · next n hn =>
            obtain ⟨cs, hcs, hbuf⟩ := (ih _ (hlt n) rfl).1 h
            obtain ⟨c, hc, -⟩ := comment_iff.1 ⟨hn, rfl⟩
            refine ⟨c :: cs, ?_, hbuf⟩
            rw [hc, hcs, List.flatMap_cons, List.append_assoc]
        · rintro ⟨_ | ⟨c, cs⟩, heq, hbuf⟩
          · obtain ⟨c, s, rfl, hc⟩ := hbuf
            obtain ⟨rfl, -⟩ := List.cons.inj heq
            exact absurd rfl hc
          · rw [List.flatMap_cons, List.append_assoc] at heq
            obtain ⟨hn, hdrop⟩ := comment_iff.2 ⟨c, heq, rfl⟩
            rw [hn]
            exact (ih _ (hlt _) rfl).2 ⟨cs, hdrop, hbuf⟩
      · rw [if_neg ha]
        constructor
        · rintro ⟨⟩
          exact ⟨[], rfl, a, data, rfl, ha⟩
        · rintro ⟨_ | ⟨c, cs⟩, heq, hbuf⟩
          · rw [heq]
            rfl
          · obtain ⟨rfl, -⟩ := List.cons.inj heq
            exact absurd rfl ha

theorem strlcpy_text {l : List UInt8} (h : NoNul l) (s : Chars) :
    strlcpy stack (l ++ s) (l.length + 1) =
      (strlen (l ++ s)).map fun n => (writeBytes stack 0 (l ++ [0]), n) := by
  rw [strlcpy, if_neg (Nat.succ_ne_zero _), Nat.add_sub_cancel,
    Libc.strlcpyLoop_take h (Nat.le_refl _), List.take_length]
  cases strlen (l ++ s) <;> rfl

/-- A field is read as its number, when there is a terminator behind its text. -/
theorem parseText_render (f : HeaderField) (stack : ℕ → UInt8) (rest : Chars) :
    parseText stack (f.render ++ rest) =
      if 0 ∈ f.sep :: rest then some (f.value, rest) else none := by
  have hnul : NoNul f.text := fun c hc => (f.text_ok c hc).1
  have hskip : skipComments (f.render ++ rest) = some (f.text ++ f.sep :: rest) := by
    refine skipComments_iff.2 ⟨f.comments, by simp [HeaderField.render], ?_⟩
    cases htext : f.text with
    | nil =>
      refine ⟨f.sep, rest, rfl, fun heq => ?_⟩
      have hsep := f.sep_ok
      rw [heq] at hsep
      exact absurd hsep (by decide)
    | cons c text =>
      refine ⟨c, text ++ f.sep :: rest, rfl, fun heq => f.head_ok ?_⟩
      rw [htext, heq]
      rfl
  have hspan : strcspn (f.text ++ f.sep :: rest) [0x20, 0x0a, 0] = some f.text.length := by
    refine (strcspn_iff [0x20, 0x0a] (by decide)).2 ⟨f.text, f.sep, rest, rfl, rfl, ?_, ?_⟩
    · exact fun c hc => by simpa using f.text_ok c hc
    · simpa using f.sep_ok
  have hzero : 0 ∈ f.text ++ f.sep :: rest ↔ 0 ∈ f.sep :: rest := by
    rw [List.mem_append, or_iff_right fun hmem => hnul 0 hmem rfl]
  rw [parseText, hskip, Option.bind_eq_bind, Option.bind_some, hspan, Option.bind_eq_bind,
    Option.bind_some, if_neg (by have := f.length_lt; omega), strlcpy_text hnul]
  split
  · next h =>
    obtain ⟨n, hn⟩ := strlen_eq_some_iff.2 (hzero.2 h)
    obtain ⟨above, habove⟩ := map_writeBytes stack f.length_lt
    have hatoi := atoi_eq hnul above
    obtain ⟨z, hz, hmod⟩ := Option.map_eq_some_iff.1 hatoi
    have hmod' : (z % 2 ^ 32).toNat = f.value := hmod
    rw [hn, Option.map_some, Option.bind_eq_bind, Option.bind_some]
    simp only [habove, hz, Option.bind_eq_bind, Option.bind_some, hmod', List.drop_append]
    simp
  · next h =>
    cases hlen : strlen (f.text ++ f.sep :: rest) with
    | none => rfl
    | some n => exact absurd (hzero.1 (strlen_eq_some_iff.1 ⟨n, hlen⟩)) h

/-- What is read is a field. -/
theorem exists_field {r : ℕ × Chars} (h : parseText stack data = some r) :
    ∃ (f : HeaderField) (rest : Chars), data = f.render ++ rest := by
  obtain ⟨buf, hbuf, h⟩ := Option.bind_eq_some_iff.1 h
  obtain ⟨n, hn, h⟩ := Option.bind_eq_some_iff.1 h
  obtain ⟨cs, rfl, c, s, hfirst, hhead⟩ := skipComments_iff.1 hbuf
  obtain ⟨l, b, s', rfl, rfl, hl, hb⟩ := (strcspn_iff [0x20, 0x0a] (by decide)).1 hn
  split at h
  · cases h
  · next hfits =>
    refine ⟨⟨cs, l, b, fun a ha => by simpa using hl a ha, fun heq => ?_, by omega,
      by simpa using hb⟩, s', ?_⟩
    · cases l with
      | nil => cases heq
      | cons a l =>
        obtain ⟨rfl, -⟩ := List.cons.inj hfirst
        exact hhead (Option.some.inj heq)
    · simp [HeaderField.render]

/-- **What `parse_text` reads.** -/
theorem parseText_iff {number : ℕ} : parseText stack data = some (number, rest) ↔
    ∃ f : HeaderField, data = f.render ++ rest ∧ 0 ∈ f.sep :: rest ∧ number = f.value := by
  constructor
  · intro h
    obtain ⟨f, rest', rfl⟩ := exists_field h
    rw [parseText_render] at h
    split at h
    · next hzero =>
      cases h
      exact ⟨f, rfl, hzero, rfl⟩
    · cases h
  · rintro ⟨f, rfl, hzero, rfl⟩
    rw [parseText_render, if_pos hzero]

/-- An image is loaded, when there is a zero byte behind the last text. -/
theorem ppmLoad_render (stack : ℕ → UInt8) (b₀ version b₂ : UInt8)
    (width height depth : HeaderField) {pixels : Chars} (hzero : 0 ∈ depth.sep :: pixels) :
    ppmLoad stack (b₀ :: version :: b₂ ::
      (width.render ++ (height.render ++ (depth.render ++ pixels)))) =
        some ⟨version, width.value, height.value, pixels⟩ := by
  have hrender (f : HeaderField) (s : Chars) (h : 0 ∈ f.sep :: s) : 0 ∈ f.render ++ s := by
    rcases List.mem_cons.1 h with hsep | hmem
    · exact List.mem_append_left _ (by simp [HeaderField.render, hsep])
    · exact List.mem_append_right _ hmem
  have hheight : 0 ∈ height.sep :: (depth.render ++ pixels) := .tail _ (hrender _ _ hzero)
  have hwidth : 0 ∈ width.sep :: (height.render ++ (depth.render ++ pixels)) :=
    .tail _ (hrender _ _ hheight)
  rw [ppmLoad]
  simp only [List.getElem?_cons_succ, List.getElem?_cons_zero, List.drop_succ_cons, List.drop_zero,
    Option.bind_eq_bind, Option.bind_some, parseText_render, if_pos hwidth, if_pos hheight,
    if_pos hzero]
  rfl

/-- **What `ppm_load` accepts, and what it returns.** For every file: three bytes with the version
in the middle, three fields of the header and the pixels, where a zero byte comes behind the last
text. -/
theorem ppmLoad_iff (stack : ℕ → UInt8) (data : Chars) (ppm : PpmFile) :
    ppmLoad stack data = some ppm ↔ ∃ (b₀ b₂ : UInt8) (width height depth : HeaderField),
      data = b₀ :: ppm.version :: b₂ ::
        (width.render ++ (height.render ++ (depth.render ++ ppm.pixbuf))) ∧
      0 ∈ depth.sep :: ppm.pixbuf ∧ ppm.width = width.value ∧ ppm.height = height.value := by
  constructor
  · intro h
    obtain ⟨version, hversion, h⟩ := Option.bind_eq_some_iff.1 h
    obtain ⟨⟨w, buf₁⟩, hwidth, h⟩ := Option.bind_eq_some_iff.1 h
    obtain ⟨⟨ht, buf₂⟩, hheight, h⟩ := Option.bind_eq_some_iff.1 h
    obtain ⟨⟨d, buf₃⟩, hdepth, h⟩ := Option.bind_eq_some_iff.1 h
    cases h
    obtain ⟨width, hdata, -, rfl⟩ := parseText_iff.1 hwidth
    obtain ⟨height, rfl, -, rfl⟩ := parseText_iff.1 hheight
    obtain ⟨depth, rfl, hzero, rfl⟩ := parseText_iff.1 hdepth
    rcases data with _ | ⟨b₀, _ | ⟨b₁, _ | ⟨b₂, data⟩⟩⟩
    · cases hversion
    · cases hversion
    · simp [HeaderField.render] at hdata
    · cases hversion
      have hdata' : data = _ := hdata
      exact ⟨b₀, b₂, width, height, depth, by rw [hdata'], hzero, rfl, rfl⟩
  · rintro ⟨b₀, b₂, width, height, depth, rfl, hzero, hwidth, hheight⟩
    rw [ppmLoad_render _ _ _ _ _ _ _ hzero, ← hwidth, ← hheight]

end Accepted

/-! ## The cursor -/

/-- The comment of `cursor_default_ppm`. -/
def cursorComment : Comment where
  text := [
    0x20, 0x43, 0x52, 0x45, 0x41, 0x54, 0x4f, 0x52, 0x3a, 0x20, 0x47, 0x49, 0x4d, 0x50, 0x20,
    0x50, 0x4e, 0x4d, 0x20, 0x46, 0x69, 0x6c, 0x74, 0x65, 0x72, 0x20, 0x56, 0x65, 0x72, 0x73,
    0x69, 0x6f, 0x6e, 0x20, 0x31, 0x2e, 0x31]
  last := 0x0a
  text_ok := List.forall_iff_forall_mem.1 (by decide)
  last_ok := .inr rfl

/-- The width of `cursor_default_ppm`. -/
def cursorWidth : HeaderField :=
  ⟨[cursorComment], [0x31, 0x36], 0x20, List.forall_iff_forall_mem.1 (by decide), by decide, by decide,
    by decide⟩

/-- The height of `cursor_default_ppm`. -/
def cursorHeight : HeaderField :=
  ⟨[], [0x32, 0x30], 0x0a, List.forall_iff_forall_mem.1 (by decide), by decide, by decide,
    by decide⟩

/-- The largest value of a channel in `cursor_default_ppm`. -/
def cursorDepth : HeaderField :=
  ⟨[], [0x32, 0x35, 0x35], 0x0a, List.forall_iff_forall_mem.1 (by decide), by decide, by decide,
    by decide⟩

/-- `cursor_default_ppm`, with its pixels. -/
def cursorDefaultPpm (pixels : List UInt8) : Chars :=
  0x50 :: 0x36 :: 0x0a ::
    (cursorWidth.render ++ (cursorHeight.render ++ (cursorDepth.render ++ pixels)))

/-- The picture that is drawn. -/
def PpmFile.picture (ppm : PpmFile) : Ppm := ⟨ppm.width, ppm.height, fun i => ppm.pixbuf.getD i 0⟩

/-- The cursor is loaded as the picture that is drawn. -/
theorem ppmLoad_cursor (stack : ℕ → UInt8) {pixels : List UInt8} (h : 0 ∈ pixels) :
    (ppmLoad stack (cursorDefaultPpm pixels)).map PpmFile.picture =
      some (cursorDefault fun i => pixels.getD i 0) := by
  have hzero : 0 ∈ cursorDepth.sep :: pixels := .tail _ h
  have hwidth : cursorWidth.value = 16 := by decide
  have hheight : cursorHeight.value = 20 := by decide
  rw [cursorDefaultPpm, ppmLoad_render _ _ _ _ _ _ _ hzero, hwidth, hheight]
  rfl

end C4OS.Stubbywm
