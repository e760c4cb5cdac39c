import C4OS.Console.Scrolling
import Mathlib.Data.List.GetD
import Mathlib.Data.List.Induction

/-!
# The lines on the console

What a screen of text shows after characters were put on it. Where the output has reached the
bottom, `do_newline` scrolls once for every newline, and it does so for the first time when the
cursor enters the last row: it scrolls the screen although the last row is still free. So the rows
that are shown are those of a sheet (`sheet`) with an empty row between two lines of output. `Shown`
is the invariant of the console, and `console_lines_iff` says when the lines above the cursor are
those of the output.
-/

namespace C4OS.Console

open Foundations

/-- The output, up to the current line. -/
structure Output where
  finished : List (List UInt8)
  current : List UInt8

namespace Output

/-- The output after another character. -/
def put (o : Output) (c : UInt8) : Output :=
  if c = 10 then ⟨o.finished ++ [o.current], []⟩ else ⟨o.finished, o.current ++ [c]⟩

/-- The lines of the output, the current line last. -/
def lines (o : Output) : List (List UInt8) := o.finished ++ [o.current]

/-- The output of a sequence of characters. -/
def ofChars (out : List UInt8) : Output := out.foldl put ⟨[], []⟩

end Output

/-- A printable character or a newline. -/
def Printable (c : UInt8) : Prop := c = 10 ∨ (32 ≤ c ∧ c < 127)

/-- A row of the screen shows a line. -/
def RowShows (s : Display VgaChar) (r : ℕ) (line : List UInt8) : Prop :=
  ∀ x < s.width, (s.buf (s.width * r + x)).text = line.getD x 32

/-- The row of the cursor shows the current line, and the rows above it show the lines before. -/
def ShowsLines (s : Display VgaChar) (o : Output) : Prop :=
  ∀ k ≤ s.y, ∃ line, o.lines.reverse[k]? = some line ∧ RowShows s (s.y - k) line

/-- A blank console, with the cursor in the upper left corner. -/
structure BlankConsole (s : Display VgaChar) : Prop extends TextScreen s where
  two_le : 2 ≤ s.width
  three_le : 3 ≤ s.height
  x_eq : s.x = 0
  y_eq : s.y = 0

/-- The characters of `CONSOLE_MSG_PUT_CHAR` messages. -/
def putChars (s : Display VgaChar) (out : List UInt8) : Display VgaChar :=
  out.foldl (fun s c => handle textBackend s (.putChar c)) s

/-! ## The sheet -/

/-- The rows that pass over the screen: the lines, with an empty row in front of the line
`height - 1`. -/
def sheet (height : ℕ) (lines : List (List UInt8)) (i : ℕ) : List UInt8 :=
  if i + 1 < height then lines.getD i []
  else if i + 1 = height then []
  else lines.getD (i - 1) []

/-- What is on the screen after `n` newlines: the cursor is behind the current line, and the screen
shows the rows of the sheet up to that of the cursor. -/
structure Shown (s₀ : Display VgaChar) (o : Output) (s : Display VgaChar) : Prop where
  width_eq : s.width = s₀.width
  height_eq : s.height = s₀.height
  x_eq : s.x = o.current.length
  y_eq : s.y = min o.finished.length (s.height - 1)
  rows : ∀ r < s.height,
    RowShows s r (sheet s.height o.lines (o.finished.length + 2 - s.height + r))

/-- An entry behind a list. -/
theorem getD_concat {α : Type} (l : List α) (a d : α) (x : ℕ) :
    (l ++ [a]).getD x d = if x = l.length then a else l.getD x d := by
  split_ifs with h
  · rw [h, List.getD_append_right _ _ _ _ le_rfl, Nat.sub_self]
    rfl
  · rcases Nat.lt_or_gt_of_ne h with hlt | hgt
    · rw [List.getD_append _ _ _ _ hlt]
    · rw [List.getD_eq_default _ _ (by rw [List.length_append, List.length_singleton]; omega),
        List.getD_eq_default _ _ (by omega)]

/-- A new empty line is on the sheet already. -/
theorem sheet_append_nil (height : ℕ) (lines : List (List UInt8)) :
    sheet height (lines ++ [[]]) = sheet height lines := by
  have hget : ∀ i, (lines ++ [[]]).getD i [] = lines.getD i [] := by
    intro i
    rw [getD_concat]
    split_ifs with h
    · rw [h, List.getD_eq_default _ _ le_rfl]
    · rfl
  funext i
  rw [sheet, sheet, hget, hget]

/-- The current line is on the row of the cursor. -/
theorem sheet_current {height : ℕ} (finished : List (List UInt8)) (line : List UInt8)
    (hh : 2 ≤ height) {i : ℕ}
    (hi : i = finished.length + 2 - height + min finished.length (height - 1)) :
    sheet height (finished ++ [line]) i = line := by
  have hget : (finished ++ [line]).getD finished.length [] = line := by
    rw [getD_concat, if_pos rfl]
  rw [sheet]
  split_ifs with hlt heq
  · have : i = finished.length := by omega
    rw [this, hget]
  · omega
  · have : i - 1 = finished.length := by omega
    rw [this, hget]

/-- The other rows do not depend on the current line. -/
theorem sheet_of_ne {height : ℕ} (finished : List (List UInt8)) (line line' : List UInt8)
    (hh : 2 ≤ height) {i : ℕ}
    (hi : i ≠ finished.length + 2 - height + min finished.length (height - 1)) :
    sheet height (finished ++ [line]) i = sheet height (finished ++ [line']) i := by
  have hget : ∀ j ≠ finished.length,
      (finished ++ [line]).getD j [] = (finished ++ [line']).getD j [] := by
    intro j hj
    rw [getD_concat, getD_concat, if_neg hj, if_neg hj]
  rw [sheet, sheet]
  split_ifs with hlt heq
  · exact hget i (by omega)
  · rfl
  · exact hget (i - 1) (by omega)

/-- Behind the lines the sheet is empty. -/
theorem sheet_of_length_lt {height : ℕ} {lines : List (List UInt8)} {i : ℕ}
    (hi : lines.length < i) (hh : height ≤ i) : sheet height lines i = [] := by
  rw [sheet, if_neg (by omega), if_neg (by omega), List.getD_eq_default _ _ (by omega)]

/-! ## The run -/

/-- A console that was just set up shows nothing. -/
theorem BlankConsole.shown {s₀ : Display VgaChar} (h : BlankConsole s₀) : Shown s₀ ⟨[], []⟩ s₀ := by
  have hthree := h.three_le
  refine ⟨rfl, rfl, h.x_eq, ?_, fun r hr x hx => ?_⟩
  · rw [h.y_eq]
    exact (Nat.zero_min _).symm
  · have hempty : sheet s₀.height [[]] = fun _ => [] := by
      rw [← List.nil_append [[]], sheet_append_nil]
      funext i
      rw [sheet]
      split_ifs <;> rfl
    have hcell := h.blank (s₀.width * r + x) (by
      rw [Nat.mul_comm s₀.width, Nat.mul_comm s₀.width]
      exact (cell_lt_iff hx).2 hr)
    rw [hcell]
    show _ = (sheet s₀.height [[]] _).getD x 32
    rw [hempty]
    rfl

/-- `do_newline` in text mode. -/
theorem doNewline_eq {s : Display VgaChar} (hh : 0 < s.height) (hheight : s.height < wordSize)
    (hy : s.y < s.height) : doNewline textBackend s =
      if s.y + 1 ≥ s.height - 1 then
        { s with buf := (textScroll s).buf, x := 0, y := s.height - 1 }
      else { s with x := 0, y := s.y + 1 } := by
  have hdown : (s.y + 1) % wordSize = s.y + 1 := Nat.mod_eq_of_lt (by omega)
  have hsub : sub s.height 1 = s.height - 1 := sub_eq hh hheight
  simp only [doNewline, hdown, hsub]
  split
  · simp only [textBackend, textScroll, hsub]
  · rfl

/-- `do_draw_char` in text mode, for a character that is drawn inside the row. -/
theorem doDrawChar_eq {s : Display VgaChar} {c : UInt8} (hc : c ≠ 10 ∧ c ≠ 8)
    (hx : s.x < s.width) (hwidth : s.width < wordSize)
    (hrow : s.width * s.y < wordSize) : doDrawChar textBackend s c =
      { s with
        buf := Function.update s.buf (s.width * s.y + s.x) ⟨c, vgaTextColor⟩
        x := s.x + 1 } := by
  have hright : (s.x + 1) % wordSize = s.x + 1 := Nat.mod_eq_of_lt (by omega)
  have hback : ¬ (c = 8 ∧ s.x > 0) := fun h => hc.2 h.1
  simp only [doDrawChar, if_neg hc.1, if_neg hback, textBackend, textDrawChar, hright,
    Nat.mod_eq_of_lt hrow, ge_iff_le, if_neg (Nat.not_le_of_lt hx)]

namespace Shown

variable {s₀ s : Display VgaChar} {o : Output}

theorem geometry (h : Shown s₀ o s) (h₀ : BlankConsole s₀) :
    2 ≤ s.width ∧ 3 ≤ s.height ∧ s.width * s.height < wordSize ∧ s.y < s.height := by
  have hthree := h₀.three_le
  have hy := h.y_eq
  rw [h.height_eq] at hy ⊢
  rw [h.width_eq]
  exact ⟨h₀.two_le, hthree, h₀.toTextScreen.lt, by omega⟩

/-- A newline moves the rows, or leaves them. -/
theorem newline (h : Shown s₀ o s) (h₀ : BlankConsole s₀) :
    Shown s₀ ⟨o.finished ++ [o.current], []⟩ (doNewline textBackend s) := by
  obtain ⟨hw, hh, hfits, hylt⟩ := h.geometry h₀
  have hlen : (o.finished ++ [o.current]).length = o.finished.length + 1 := by
    rw [List.length_append, List.length_singleton]
  have hsheet : sheet s.height (o.finished ++ [o.current] ++ [[]]) = sheet s.height o.lines :=
    sheet_append_nil _ _
  have hheight : s.height < wordSize :=
    Nat.lt_of_le_of_lt (Nat.le_mul_of_pos_left _ (by omega)) hfits
  have hy := h.y_eq
  rw [doNewline_eq (by omega) hheight hylt]
  split_ifs with hbottom
  · -- the screen is scrolled, and the last row is a new one
    refine ⟨h.width_eq, h.height_eq, rfl, ?_, fun r hr x hx => ?_⟩
    · simp only [hlen]
      omega
    · simp only [Output.lines, hsheet, hlen]
      rw [textScroll_cell (by omega) hfits hr hx]
      split_ifs with hrow
      · rw [h.rows (r + 1) hrow x hx]
        congr 2
        omega
      · have hr' : r < s.height := hr
        rw [sheet_of_length_lt (by omega) (by omega)]
        rfl
  · refine ⟨h.width_eq, h.height_eq, rfl, ?_, fun r hr x hx => ?_⟩
    · simp only [hlen]
      omega
    · simp only [Output.lines, hsheet, hlen]
      rw [h.rows r hr x hx]
      congr 2
      omega

/-- A character is put behind the current line. -/
theorem char (h : Shown s₀ o s) (h₀ : BlankConsole s₀) {c : UInt8} (hc : c ≠ 10 ∧ c ≠ 8)
    (hshort : o.current.length < s₀.width) :
    Shown s₀ ⟨o.finished, o.current ++ [c]⟩ (doDrawChar textBackend s c) := by
  obtain ⟨hw, hh, hfits, hylt⟩ := h.geometry h₀
  have hx : s.x < s.width := by rwa [h.x_eq, h.width_eq]
  have hwidth : s.width < wordSize :=
    Nat.lt_of_le_of_lt (Nat.le_mul_of_pos_right _ (by omega)) hfits
  have hrow : s.width * s.y < wordSize :=
    Nat.lt_of_le_of_lt (Nat.mul_le_mul_left _ (Nat.le_of_lt hylt)) hfits
  rw [doDrawChar_eq hc hx hwidth hrow]
  refine ⟨h.width_eq, h.height_eq, ?_, h.y_eq, fun r hr x' hx' => ?_⟩
  · rw [List.length_append, List.length_singleton, ← h.x_eq]
  · simp only [Output.lines]
    have hcell := h.rows r hr x' hx'
    rw [Output.lines] at hcell
    have hplace : s.width * r + x' = s.width * s.y + s.x ↔ r = s.y ∧ x' = s.x := by
      rw [Nat.mul_comm s.width, Nat.mul_comm s.width]
      exact cell_eq_iff hx' hx
    have hyrow := h.y_eq
    by_cases hcursor : r = s.y
    · rw [sheet_current _ _ (by omega) (by rw [hcursor, hyrow])] at hcell ⊢
      rw [getD_concat, ← h.x_eq]
      split_ifs with hcolumn
      · rw [hplace.2 ⟨hcursor, hcolumn⟩, Function.update_self]
      · rw [Function.update_of_ne fun he => hcolumn (hplace.1 he).2, hcell]
    · rw [sheet_of_ne _ _ o.current (by omega) (by omega), ← hcell,
        Function.update_of_ne fun he => hcursor (hplace.1 he).1]

end Shown

/-- What is on the screen after any output. -/
theorem shown_putChars {s₀ : Display VgaChar} (h₀ : BlankConsole s₀) {out : List UInt8}
    (hprint : ∀ c ∈ out, Printable c)
    (hshort : ∀ line ∈ (Output.ofChars out).lines, line.length < s₀.width) :
    Shown s₀ (Output.ofChars out) (putChars s₀ out) := by
  induction out using List.reverseRecOn with
  | nil => exact h₀.shown
  | append_singleton out c ih =>
    have hput : Output.ofChars (out ++ [c]) = (Output.ofChars out).put c := by
      rw [Output.ofChars, List.foldl_append]
      rfl
    have hrun : putChars s₀ (out ++ [c]) = doDrawChar textBackend (putChars s₀ out) c := by
      rw [putChars, List.foldl_append]
      rfl
    have hprint' : ∀ c ∈ out, Printable c := fun c hc => hprint c (List.mem_append_left _ hc)
    rw [hput, Output.put] at hshort ⊢
    rw [hrun]
    split_ifs at hshort ⊢ with hc
    · have hshown := ih hprint' fun line hline => hshort line (List.mem_append_left _ hline)
      rw [doDrawChar, if_pos hc]
      exact hshown.newline h₀
    · have hlast := hshort _ (List.mem_append_right _ (List.mem_singleton_self _))
      rw [List.length_append, List.length_singleton] at hlast
      have hshown := ih hprint' fun line hline => by
        rcases List.mem_append.1 hline with hin | hin
        · exact hshort line (List.mem_append_left _ hin)
        · rw [List.mem_singleton.1 hin]
          omega
      have hprintable := hprint c (List.mem_append_right _ (List.mem_singleton_self c))
      have hback : c ≠ 8 := by
        rintro rfl
        exact absurd hprintable (by unfold Printable; decide)
      exact hshown.char h₀ ⟨hc, hback⟩ (by omega)

/-! ## The lines -/

/-- A line of spaces. -/
def Blank (line : List UInt8) : Prop := ∀ c ∈ line, c = 32

/-- An entry of a list, with and without a default. -/
theorem getElem?_eq_getD {α : Type} {l : List α} {j : ℕ} (d : α) (hj : j < l.length) :
    l[j]? = some (l.getD j d) := by
  rw [List.getD_eq_getElem _ _ hj, List.getElem?_eq_getElem]

/-- A line of spaces looks like an empty one. -/
theorem blank_iff {line : List UInt8} {w : ℕ} (hw : line.length < w) :
    Blank line ↔ ∀ x < w, line.getD x 32 = 32 := by
  constructor
  · intro h x _
    rcases Nat.lt_or_ge x line.length with hx | hx
    · rw [List.getD_eq_getElem _ _ hx]
      exact h _ (List.getElem_mem hx)
    · exact List.getD_eq_default _ _ hx
  · intro h c hc
    obtain ⟨x, hx, rfl⟩ := List.getElem_of_mem hc
    rw [← List.getD_eq_getElem _ 32 hx]
    exact h x (by omega)

namespace Shown

variable {s₀ s : Display VgaChar} {o : Output}

theorem lines_length (o : Output) : o.lines.length = o.finished.length + 1 := by
  rw [Output.lines, List.length_append, List.length_singleton]

/-- The lines above the cursor, compared with the rows of the sheet that are on the screen. -/
theorem showsLines_iff (h : Shown s₀ o s) (h₀ : BlankConsole s₀) : ShowsLines s o ↔
    ∀ k ≤ s.y, ∀ x < s.width,
      (sheet s.height o.lines (o.finished.length + 2 - s.height + (s.y - k))).getD x 32 =
        (o.lines.getD (o.finished.length - k) []).getD x 32 := by
  obtain ⟨-, hh, -, hylt⟩ := h.geometry h₀
  have hy := h.y_eq
  have hlen := lines_length o
  apply forall₂_congr
  intro k hk
  have hget : o.lines.reverse[k]? = some (o.lines.getD (o.finished.length - k) []) := by
    have hindex : o.lines.length - 1 - k = o.finished.length - k := by omega
    rw [List.getElem?_reverse (by omega), hindex, getElem?_eq_getD [] (by omega)]
  rw [hget]
  constructor
  · rintro ⟨line, hline, hrow⟩ x hx
    rw [Option.some.inj hline, ← hrow x hx, h.rows _ (by omega) x hx]
  · intro hrow
    refine ⟨_, rfl, fun x hx => ?_⟩
    rw [← hrow x hx, h.rows _ (by omega) x hx]

/-- Where the screen was scrolled, the line `j` is where the row `j + 1` of the sheet is. -/
theorem showsLines_iff_next (h : Shown s₀ o s) (h₀ : BlankConsole s₀)
    (hscrolled : s.height ≤ o.finished.length + 1) : ShowsLines s o ↔
      ∀ j ≤ o.finished.length, o.finished.length + 1 ≤ j + s.height → ∀ x < s.width,
        (sheet s.height o.lines (j + 1)).getD x 32 = (o.lines.getD j []).getD x 32 := by
  rw [h.showsLines_iff h₀]
  obtain ⟨-, hh, -, hylt⟩ := h.geometry h₀
  have hy : s.y = s.height - 1 := by
    have := h.y_eq
    omega
  constructor
  · intro hshows j hj hlo x hx
    have hrow := hshows (o.finished.length - j) (by omega) x hx
    have hnext : o.finished.length + 2 - s.height + (s.y - (o.finished.length - j)) = j + 1 := by
      omega
    rwa [hnext, Nat.sub_sub_self hj] at hrow
  · intro hshows k hk x hx
    have hrow := hshows (o.finished.length - k) (Nat.sub_le _ _) (by omega) x hx
    have hnext : o.finished.length - k + 1 = o.finished.length + 2 - s.height + (s.y - k) := by
      omega
    rwa [hnext] at hrow

/-- Lines that each look like the next one, before an empty row, are blank: from the last of them,
`d` rows further down, upwards. -/
theorem blank_of_next {w height : ℕ} (hshort : ∀ line ∈ o.lines, line.length < w)
    (hscrolled : height ≤ o.finished.length + 1)
    (hnext : ∀ j ≤ o.finished.length, o.finished.length + 1 ≤ j + height → ∀ x < w,
      (sheet height o.lines (j + 1)).getD x 32 = (o.lines.getD j []).getD x 32)
    (d : ℕ) {j : ℕ} {line : List UInt8} (hj : j + 2 + d = height)
    (hlo : o.finished.length + 1 ≤ j + height) (hline : o.lines[j]? = some line) : Blank line := by
  have hlen := lines_length o
  induction d generalizing j line with
  | zero =>
    rw [blank_iff (hshort line (List.mem_of_getElem? hline))]
    intro x hx
    have hrow := hnext j (by omega) hlo x hx
    rw [getElem?_eq_getD [] (by omega)] at hline
    rw [sheet, if_neg (by omega), if_pos (by omega), Option.some.inj hline] at hrow
    exact hrow.symm
  | succ d ih =>
    have hbelow : o.lines[j + 1]? = some (o.lines.getD (j + 1) []) :=
      getElem?_eq_getD [] (by omega)
    have hblank := ih (j := j + 1) (by omega) (by omega) hbelow
    rw [blank_iff (hshort _ (List.mem_of_getElem? hbelow))] at hblank
    rw [blank_iff (hshort line (List.mem_of_getElem? hline))]
    intro x hx
    have hrow := hnext j (by omega) hlo x hx
    rw [getElem?_eq_getD [] (by omega)] at hline
    rw [sheet, if_pos (by omega), hblank x hx, Option.some.inj hline] at hrow
    exact hrow.symm

/-- Where the screen was scrolled, the lines from before that show the next ones, and the last of
them an empty row. So they are right if they are all blank, and only then. -/
theorem showsLines_iff_blank (h : Shown s₀ o s) (h₀ : BlankConsole s₀)
    (hshort : ∀ line ∈ o.lines, line.length < s.width)
    (hscrolled : s.height ≤ o.finished.length + 1) : ShowsLines s o ↔
      ∀ j line, o.finished.length + 1 ≤ j + s.height → j + 1 < s.height →
        o.lines[j]? = some line → Blank line := by
  rw [h.showsLines_iff_next h₀ hscrolled]
  have hlen := lines_length o
  constructor
  · intro hshows j line hlo hhi hline
    exact blank_of_next hshort hscrolled hshows (s.height - 2 - j) (by omega) hlo hline
  · intro hblank j hj hlo x hx
    have hrow : ∀ i, o.finished.length + 1 ≤ i + s.height → i + 1 < s.height →
        (o.lines.getD i []).getD x 32 = 32 := by
      intro i hlo hhi
      have hline : o.lines[i]? = some (o.lines.getD i []) := getElem?_eq_getD [] (by omega)
      exact (blank_iff (hshort _ (List.mem_of_getElem? hline))).1 (hblank i _ hlo hhi hline) x hx
    rw [sheet]
    split_ifs with hlt heq
    · rw [hrow (j + 1) (by omega) hlt, hrow j hlo (by omega)]
    · rw [hrow j hlo (by omega)]
      rfl
    · rfl

end Shown

/-- **The rows above the cursor show the lines of the output exactly when the last row was never
reached, or all lines still on the screen from before that are blank.** -/
theorem console_lines_iff {s₀ : Display VgaChar} (h₀ : BlankConsole s₀) {out : List UInt8}
    (hprint : ∀ c ∈ out, Printable c)
    (hshort : ∀ line ∈ (Output.ofChars out).lines, line.length < s₀.width) :
    ShowsLines (putChars s₀ out) (Output.ofChars out) ↔
      (Output.ofChars out).finished.length + 1 < s₀.height ∨
        ∀ j line, (Output.ofChars out).finished.length + 1 ≤ j + s₀.height → j + 1 < s₀.height →
          (Output.ofChars out).lines[j]? = some line → Blank line := by
  have h := shown_putChars h₀ hprint hshort
  rw [← h.height_eq]
  rw [← h.width_eq] at hshort
  rcases Nat.lt_or_ge ((Output.ofChars out).finished.length + 1) (putChars s₀ out).height with
    hlt | hge
  · refine iff_of_true ?_ (.inl hlt)
    rw [h.showsLines_iff h₀]
    intro k hk x hx
    have hy := h.y_eq
    have hrow : (Output.ofChars out).finished.length + 2 - (putChars s₀ out).height +
        ((putChars s₀ out).y - k) = (Output.ofChars out).finished.length - k := by omega
    rw [hrow, sheet, if_pos (by omega)]
  · rw [h.showsLines_iff_blank h₀ hshort hge]
    exact (or_iff_right (Nat.not_lt_of_le hge)).symm

theorem blankConsole_textbufferInit (textbuf : ℕ → VgaChar) :
    BlankConsole (textbufferInit textbuf) := by
  refine ⟨textScreen_textbufferInit textbuf, ?_, ?_, rfl, rfl⟩
  · show 2 ≤ 80
    decide
  · show 3 ≤ 25
    decide

/-- Two lines on the screen of the text mode. -/
theorem console_lines_two :
    ShowsLines (putChars (textbufferInit fun _ => ⟨0, 0⟩) [104, 105, 10, 33])
      (Output.ofChars [104, 105, 10, 33]) :=
  (console_lines_iff (blankConsole_textbufferInit _) (by unfold Printable; decide +kernel)
    (by decide)).2 (.inl (by decide))

/-- A blank console of three rows and three columns. -/
def smallConsole : Display VgaChar where
  buf := fun _ => ⟨32, vgaTextColor⟩
  fbWidth := 0
  fbHeight := 0
  width := 3
  height := 3
  x := 0
  y := 0

theorem blankConsole_smallConsole : BlankConsole smallConsole := by
  refine ⟨⟨by decide, by decide, fun _ _ => rfl⟩, by decide, by decide, rfl, rfl⟩

/-- After the lines `A` and `B` the first one is lost, and there is an empty row below the second
one. -/
theorem smallConsole_not_showsLines : BlankConsole smallConsole ∧
    (∀ c ∈ [65, 10, 66, 10], Printable c) ∧
    (∀ line ∈ (Output.ofChars [65, 10, 66, 10]).lines, line.length < smallConsole.width) ∧
    ¬ ShowsLines (putChars smallConsole [65, 10, 66, 10]) (Output.ofChars [65, 10, 66, 10]) := by
  refine ⟨blankConsole_smallConsole, by unfold Printable; decide +kernel, by decide, fun h => ?_⟩
  obtain ⟨line, hline, hrow⟩ := h 1 (by decide)
  obtain rfl : [66] = line := Option.some.inj hline
  exact absurd (hrow 0 (by decide)) (by decide)

end C4OS.Console
