import C4OS.Console.Cursor
import C4OS.Console.Lines

/-!
# Clearing the console

`do_clear` makes as many newlines as the screen has rows. The first ones only move the cursor down,
and the others scroll (`newlines_buf`), so that from the row `y` of the cursor the screen is
scrolled up `y + 2` rows: what is shown further down stays on the screen. `clear_iff` says when the
console is blank after all.
-/

namespace C4OS.Console

open Foundations

variable {s₀ s : Display VgaChar}

/-- A console of text of any size, in memory, with the cursor in the upper left corner. -/
structure TextConsole (s : Display VgaChar) : Prop extends Home s where
  fits : s.width * s.height * 2 ≤ wordSize

/-- The rows from `r` on show spaces. -/
def BlankFrom (s : Display VgaChar) (r : ℕ) : Prop :=
  ∀ q < s.height, r ≤ q → ∀ x < s.width, (s.buf (s.width * q + x)).text = 32

instance (s : Display VgaChar) (r : ℕ) : Decidable (BlankFrom s r) :=
  inferInstanceAs (Decidable (∀ q < s.height, _))

/-- Every cell holds a space, and the cursor is in the upper left corner. -/
def Cleared (s : Display VgaChar) : Prop := BlankFrom s 0 ∧ s.x = 0 ∧ s.y = 0

/-- The rows that are not scrolled off the screen are blank. A screen of one row is not scrolled at
all, and on one without a cell there is no place for the cursor. -/
def Clearable (s : Display VgaChar) : Prop :=
  if s.height = 0 then s.x = 0 ∧ s.y = 0
  else if s.width = 0 then s.height = 1
  else if s.height = 1 then BlankFrom s 0
  else BlankFrom s (s.y + 2)

/-- **The screen after `n` newlines** is scrolled by as many rows as newlines found the cursor in
one of the last two rows. -/
theorem newlines_buf (htwo : 2 ≤ s.height) (hfits : s.width * s.height < wordSize)
    (hheight : s.height < wordSize) (hy : s.y < s.height) (n : ℕ) :
    ∃ s', loop n (fun _ s => doNewline textBackend s) s = s' ∧ s'.width = s.width ∧
      s'.height = s.height ∧ s'.y = min (s.y + n) (s.height - 1) ∧ (0 < n → s'.x = 0) ∧
      ∀ r < s.height, ∀ x < s.width, (s'.buf (s.width * r + x)).text =
        if r + min n (s.y + n + 2 - s.height) < s.height then
          (s.buf (s.width * (r + min n (s.y + n + 2 - s.height)) + x)).text
        else 32 := by
  induction n with
  | zero =>
    refine ⟨s, rfl, rfl, rfl, by omega, fun h => absurd h (Nat.lt_irrefl 0), fun r hr x hx => ?_⟩
    rw [Nat.zero_min, Nat.add_zero, if_pos hr]
  | succ n ih =>
    obtain ⟨s', hloop, hw, hh, hy', -, hbuf⟩ := ih
    have hlast : s'.y < s'.height := by omega
    have hnewline := doNewline_eq (by omega) (by omega) hlast
    refine ⟨doNewline textBackend s', congrArg (doNewline textBackend) hloop, ?_⟩
    rw [hnewline]
    split_ifs with hscroll
    · -- the cursor is in one of the last two rows
      have hk : min (n + 1) (s.y + (n + 1) + 2 - s.height) =
        min n (s.y + n + 2 - s.height) + 1 := by omega
      have hbottom : s'.height - 1 = min (s.y + (n + 1)) (s.height - 1) := by omega
      refine ⟨hw, hh, hbottom, fun _ => rfl, fun r hr x hx => ?_⟩
      show ((textScroll s').buf (s.width * r + x)).text = _
      rw [← hw, textScroll_cell (by omega) (by rwa [hw, hh]) (by omega) (by omega), hk, hw, hh]
      rcases Nat.lt_or_ge (r + 1) s.height with hnext | hbottom
      · rw [if_pos hnext, hbuf (r + 1) hnext x hx, Nat.add_right_comm, Nat.add_assoc]
      · rw [if_neg (Nat.not_lt_of_ge hbottom), if_neg (by omega)]
        rfl
    · have hk : min (n + 1) (s.y + (n + 1) + 2 - s.height) = 0 := by omega
      have hk' : min n (s.y + n + 2 - s.height) = 0 := by omega
      have hdown : s'.y + 1 = min (s.y + (n + 1)) (s.height - 1) := by omega
      refine ⟨hw, hh, hdown, fun _ => rfl, fun r hr x hx => ?_⟩
      rw [hk]
      rw [hk'] at hbuf
      exact hbuf r hr x hx

/-- The screen is blank after `k` rows were scrolled off it when the others are. -/
theorem blankFrom_of_scrolled {s' : Display VgaChar} {k : ℕ} (hw : s'.width = s.width)
    (hh : s'.height = s.height) (hbuf : ∀ r < s.height, ∀ x < s.width,
      (s'.buf (s.width * r + x)).text =
        if r + k < s.height then (s.buf (s.width * (r + k) + x)).text else 32) :
    BlankFrom s' 0 ↔ BlankFrom s k := by
  rw [BlankFrom, BlankFrom, hw, hh]
  constructor
  · intro h q hq hk x hx
    obtain ⟨r, rfl⟩ := Nat.exists_eq_add_of_le' hk
    have hr : r < s.height := by omega
    have hcell := h r hr (Nat.zero_le r) x hx
    rwa [hbuf r hr x hx, if_pos hq] at hcell
  · intro h r hr _ x hx
    rw [hbuf r hr x hx]
    split_ifs with hk
    · exact h (r + k) hk (Nat.le_add_left k r) x hx
    · rfl

/-- The cursor after `do_clear` made its newlines. -/
theorem cleared_doSetPosition (hx : s.x = 0) : Cleared (doSetPosition s 0 0) ↔
    BlankFrom s 0 ∧ (0 < s.width ∧ 0 < s.height ∨ s.y = 0) := by
  rw [doSetPosition]
  split_ifs with hcell
  · exact and_congr_right fun _ => iff_of_true ⟨rfl, rfl⟩ (.inl hcell)
  · exact and_congr_right fun _ => by rw [and_iff_right hx, or_iff_right hcell]

/-- **When `do_clear` clears**, in any state with the cursor on the screen. -/
theorem doClear_cleared_iff (hfits : s.width * s.height < wordSize) (hheight : s.height < wordSize)
    (hy : 0 < s.height → s.y < s.height) : Cleared (doClear textBackend s) ↔ Clearable s := by
  rw [Clearable, doClear]
  by_cases hzero : s.height = 0
  · -- there is no newline
    have hpos : ¬ (0 < s.width ∧ 0 < s.height) := by omega
    rw [if_pos hzero, hzero, loop, doSetPosition, if_neg hpos, Cleared, and_iff_right]
    intro q hq
    omega
  rw [if_neg hzero]
  have hy := hy (Nat.pos_of_ne_zero hzero)
  have hwidth : s.width = 0 → ∀ {s' r}, s'.width = s.width → BlankFrom s' r := by
    intro hw s' r hw' q _ _ x hx
    omega
  by_cases hone : s.height = 1
  · have hnewline : doNewline textBackend s = { s with x := 0, y := 0 } := by
      rw [doNewline_eq (by omega) hheight hy, if_pos (by omega), textScroll, hone]
      rfl
    have hloop : loop s.height (fun _ s => doNewline textBackend s) s =
        { s with x := 0, y := 0 } := by
      rw [hone]
      exact hnewline.trans (by rw [hone])
    rw [hloop, cleared_doSetPosition rfl, and_iff_left (.inr rfl), if_pos hone]
    split_ifs with hw
    · exact iff_of_true (hwidth hw rfl) hone
    · exact Iff.rfl
  · obtain ⟨s', hloop, hw, hh, hy', hx', hbuf⟩ := newlines_buf (by omega) hfits hheight hy s.height
    rw [if_neg hone, hloop, cleared_doSetPosition (hx' (by omega)),
      blankFrom_of_scrolled hw hh hbuf]
    split_ifs with hzero'
    · -- the cursor is left in the last row
      exact iff_of_false (fun h => by omega) hone
    · rw [and_iff_left (.inl (by omega))]
      exact forall₂_congr fun q hq => imp_congr (by omega) Iff.rfl

theorem TextConsole.lt (h : TextConsole s) : s.width * s.height < wordSize := by
  have hfits : s.width * s.height * 2 ≤ 2 ^ 32 := h.fits
  show _ < 2 ^ 32
  omega

/-- **When the console is cleared.** For every console of text and every sequence of messages: just
when the rows that are not scrolled off the screen are blank already. -/
theorem clear_iff (h₀ : TextConsole s₀) (requests : List Request) :
    Cleared (handle textBackend (handleAll textBackend s₀ requests) .clear) ↔
      Clearable (handleAll textBackend s₀ requests) := by
  have hs := h₀.inside.handleAll steady_textBackend h₀.toHome requests
  have hw := hs.width_eq
  have hh := hs.height_eq
  exact doClear_cleared_iff (by rw [hw, hh]; exact h₀.lt) (hh ▸ h₀.height_lt)
    fun hpos => hh ▸ hs.y_lt (hh ▸ hpos)

theorem textConsole_textbufferInit (textbuf : ℕ → VgaChar) :
    TextConsole (textbufferInit textbuf) :=
  ⟨home_textbufferInit textbuf, by show 80 * 25 * 2 ≤ 2 ^ 32; decide⟩

/-- Two characters in the first row of a small console are scrolled off the screen. -/
theorem clear_iff_row :
    (handleAll textBackend smallConsole [.putChar 65, .putChar 66]).buf 1 = ⟨66, vgaTextColor⟩ ∧
      Cleared (handle textBackend
        (handleAll textBackend smallConsole [.putChar 65, .putChar 66]) .clear) := by
  have hsmall : TextConsole smallConsole :=
    ⟨⟨by decide, by decide, rfl, rfl⟩, by decide⟩
  have hblank : BlankFrom (handleAll textBackend smallConsole [.putChar 65, .putChar 66]) 2 := by
    decide
  exact ⟨by decide, (clear_iff hsmall _).2 hblank⟩

/-- A character in a row further down is still on the screen. -/
theorem clear_leaves : ¬ ∀ (s₀ : Display VgaChar) (requests : List Request), TextConsole s₀ →
    Cleared (handle textBackend (handleAll textBackend s₀ requests) .clear) := by
  intro h
  have hcleared := h (textbufferInit fun _ => ⟨0, 0⟩)
    [.setPosition 0 5, .putChar 65, .setPosition 0 0] (textConsole_textbufferInit _)
  have hblank := (doClear_cleared_iff (by decide) (by decide) fun _ => by decide).1 hcleared
  have hcell := hblank 5 (by decide) (by decide) 0 (by decide)
  exact absurd hcell (by decide +kernel)

end C4OS.Console
