import C4OS.Console.Model
import Mathlib.Tactic.Ring

/-!
# Scrolling

What `text_scroll` and `framebuf_scroll` do to the rows of text on the screen. `Scrolls` is the
operation that both are meant to be: every row shows what the next one showed, and the last one is
blank.

`text_scroll` is that operation. `framebuf_scroll` moves one row of pixels less than it should, and
relies on the strip below the rows of text, where nothing is drawn, for blank pixels. `scroll_iff`
says when this is enough: the height of the framebuffer is no multiple of the height of the font, or
the lowest row of pixels of the last row of text is blank already.
-/

namespace C4OS.Console

open Foundations

/-- Each of the `h` rows shows what the next one showed, and the last one is blank. -/
def Scrolls {ρ : Type} (h : ℕ) (blank : ρ) (rows rows' : ℕ → ρ) : Prop :=
  ∀ r < h, rows' r = if r + 1 < h then rows (r + 1) else blank

/-- The states that the console reaches: it moves the cursor, draws in cells of the screen, and
scrolls. -/
inductive Reachable {α : Type} (b : Backend α) (s₀ : Display α) : Display α → Prop
  | start : Reachable b s₀ s₀
  | move {s : Display α} (x y : ℕ) (h : Reachable b s₀ s) : Reachable b s₀ { s with x, y }
  | draw {s : Display α} (c : UInt8) (h : Reachable b s₀ s) (hx : s.x < s.width)
      (hy : s.y < s.height) : Reachable b s₀ (b.drawChar s s.x s.y c)
  | scroll {s : Display α} (h : Reachable b s₀ s) : Reachable b s₀ (b.scroll s)

/-! ## Text mode -/

/-- A row of characters. -/
def textRow (width : ℕ) (buf : ℕ → VgaChar) (r : ℕ) : Fin width → VgaChar :=
  fun x => buf (width * r + x)

/-- A blank screen of text, with at least two rows, in memory. -/
structure TextScreen (s : Display VgaChar) : Prop where
  height_ge : 2 ≤ s.height
  fits : s.width * s.height * 2 ≤ wordSize
  blank : ∀ c < s.width * s.height, s.buf c = ⟨32, vgaTextColor⟩

/-- What `textbuffer_init` leaves. -/
theorem textScreen_textbufferInit (textbuf : ℕ → VgaChar) :
    TextScreen (textbufferInit textbuf) := by
  constructor
  · show 2 ≤ 25
    decide
  · show 80 * 25 * 2 ≤ 2 ^ 32
    decide
  · intro c hc
    have hlt : c < vgaTextWidth * vgaTextHeight := hc
    simp only [textbufferInit]
    rw [mapCells_apply, Nat.zero_add, if_pos ⟨Nat.zero_le c, hlt⟩]

/-- A turn of `text_scroll`. -/
theorem textScrollRow_apply {width i : ℕ} {buf : ℕ → VgaChar} (hfits : width * (i + 1) < wordSize)
    (c : ℕ) : textScrollRow width i buf c =
      if width * (i + 1) ≤ c ∧ c < width * (i + 2) then (buf c).erase
      else if width * i ≤ c ∧ c < width * (i + 1) then buf (c + width) else buf c := by
  have h₁ : width * (i + 1) = width * i + width := Nat.mul_succ _ _
  have h₂ : width * (i + 2) = width * i + width + width := by rw [Nat.mul_succ, h₁]
  rw [textScrollRow, Nat.mod_eq_of_lt hfits, Nat.mod_eq_of_lt (by omega), mapCells_apply,
    copyCells_apply (by omega), h₁, h₂]
  generalize width * i = p
  by_cases herase : p + width ≤ c ∧ c < p + width + width
  · rw [if_pos herase, if_pos herase, if_neg (by omega)]
  · rw [if_neg herase, if_neg herase]
    by_cases hcopy : p ≤ c ∧ c < p + width
    · rw [if_pos hcopy, if_pos hcopy]
      congr 1
      omega
    · rw [if_neg hcopy, if_neg hcopy]

/-- What `text_scroll` leaves in the buffer. -/
theorem textScroll_buf {s : Display VgaChar} (hh : 2 ≤ s.height)
    (hfits : s.width * s.height < wordSize) (c : ℕ) : (textScroll s).buf c =
      if c < s.width * (s.height - 1) then s.buf (c + s.width)
      else if c < s.width * s.height then (s.buf c).erase else s.buf c := by
  have hloop := loop_induction (n := s.height - 1) (s := s.buf) (f := textScrollRow s.width)
    (fun i buf => ∀ c, buf c = if c < s.width * i then s.buf (c + s.width)
      else if 0 < i ∧ c < s.width * (i + 1) then (s.buf c).erase else s.buf c)
    (fun c => by
      rw [Nat.mul_zero, if_neg (Nat.not_lt_zero c), if_neg (fun h => Nat.lt_irrefl 0 h.1)])
    (fun i hi buf h c => ?_) c
  · have hsucc : s.height - 1 + 1 = s.height := by omega
    rw [hsucc] at hloop
    refine hloop.trans (if_congr Iff.rfl rfl (if_congr ?_ rfl rfl))
    exact and_iff_right (by omega)
  · have hle : s.width * (i + 1) ≤ s.width * s.height := Nat.mul_le_mul_left _ (by omega)
    have h₁ : s.width * (i + 1) = s.width * i + s.width := Nat.mul_succ _ _
    have h₂ : s.width * (i + 1 + 1) = s.width * i + s.width + s.width := by rw [Nat.mul_succ, h₁]
    rw [textScrollRow_apply (by omega), h c, h (c + s.width), h₁, h₂]
    generalize s.width * i = p
    -- the row `i` gets what the row `i + 1` still has from the start
    split_ifs <;> first | rfl | omega

/-- What `text_scroll` leaves in a cell. -/
theorem textScroll_cell {s : Display VgaChar} (hh : 2 ≤ s.height)
    (hfits : s.width * s.height < wordSize) {r x : ℕ} (hr : r < s.height) (hx : x < s.width) :
    (textScroll s).buf (s.width * r + x) =
      if r + 1 < s.height then s.buf (s.width * (r + 1) + x)
      else (s.buf (s.width * r + x)).erase := by
  rw [textScroll_buf hh hfits, Nat.mul_comm s.width, Nat.mul_comm s.width, Nat.mul_comm s.width]
  rcases Nat.lt_or_ge (r + 1) s.height with hlt | hge
  · rw [if_pos ((cell_lt_iff hx).2 (by omega)), if_pos hlt, Nat.mul_succ, Nat.mul_comm s.width,
      Nat.add_right_comm]
  · have hlast : ¬ r * s.width + x < (s.height - 1) * s.width := by
      rw [cell_lt_iff hx]
      omega
    rw [if_neg hlast, if_pos ((cell_lt_iff hx).2 hr), if_neg (Nat.not_lt_of_le hge)]

/-- What the console keeps of a screen of text: its size, and the color of its cells. -/
structure TextKept (s₀ s : Display VgaChar) : Prop where
  width_eq : s.width = s₀.width
  height_eq : s.height = s₀.height
  color : ∀ c < s.width * s.height, (s.buf c).color = vgaTextColor

theorem TextScreen.lt {s₀ : Display VgaChar} (h₀ : TextScreen s₀) :
    s₀.width * s₀.height < wordSize := by
  have hfits : s₀.width * s₀.height * 2 ≤ 2 ^ 32 := h₀.fits
  show _ < 2 ^ 32
  omega

theorem TextKept.geometry {s₀ s : Display VgaChar} (h : TextKept s₀ s) (h₀ : TextScreen s₀) :
    2 ≤ s.height ∧ s.width * s.height < wordSize := by
  rw [h.width_eq, h.height_eq]
  exact ⟨h₀.height_ge, h₀.lt⟩

theorem TextScreen.kept {s₀ s : Display VgaChar} (h₀ : TextScreen s₀)
    (h : Reachable textBackend s₀ s) : TextKept s₀ s := by
  induction h with
  | start =>
    constructor
    · rfl
    · rfl
    · intro c hc
      rw [h₀.blank c hc]
  | move x y _ ih => exact ⟨ih.width_eq, ih.height_eq, ih.color⟩
  | @draw s c _ hx hy ih =>
    refine ⟨ih.width_eq, ih.height_eq, fun p hp => ?_⟩
    show (Function.update s.buf _ _ p).color = _
    by_cases hp' : p = s.width * s.y % wordSize + s.x
    · rw [hp', Function.update_self]
    · rw [Function.update_of_ne hp']
      exact ih.color p hp
  | @scroll s _ ih =>
    refine ⟨ih.width_eq, ih.height_eq, fun p hp => ?_⟩
    obtain ⟨hh, hfits⟩ := ih.geometry h₀
    show ((textScroll s).buf p).color = _
    have hp : p < s.width * s.height := hp
    rw [textScroll_buf hh hfits]
    split_ifs with hlt
    · apply ih.color
      have := Nat.mul_le_mul_left s.width (show s.height - 1 + 1 ≤ s.height by omega)
      rw [Nat.mul_succ] at this
      omega
    · exact ih.color p hp

/-- `text_scroll` scrolls the rows of text. -/
theorem textScroll_scrolls {s₀ s : Display VgaChar} (h₀ : TextScreen s₀)
    (h : Reachable textBackend s₀ s) : Scrolls s.height (fun _ => ⟨32, vgaTextColor⟩)
      (textRow s.width s.buf) (textRow s.width (textScroll s).buf) := by
  have hkept := h₀.kept h
  obtain ⟨hh, hfits⟩ := hkept.geometry h₀
  intro r hr
  funext ⟨x, hx⟩
  show (textScroll s).buf (s.width * r + x) = _
  rw [textScroll_cell hh hfits hr hx]
  split
  · rfl
  · have hin : r * s.width + x < s.height * s.width := (cell_lt_iff hx).2 hr
    rw [Nat.mul_comm r, Nat.mul_comm s.height] at hin
    rw [VgaChar.erase, hkept.color _ hin]

/-! ## The framebuffer -/

/-- A row of text on the framebuffer: rows of pixels, as many as the font is high. -/
def pixelRow (font : Font) (fbWidth : ℕ) (buf : ℕ → UInt32) (r : ℕ) :
    Fin font.height → Fin fbWidth → UInt32 :=
  fun iy x => buf ((r * font.height + iy) * fbWidth + x)

/-- A font and a framebuffer in memory, with at least two rows of text. -/
structure Framebuffer (font : Font) (fbWidth fbHeight : ℕ) : Prop where
  fontWidth_pos : 0 < font.width
  fontHeight_pos : 0 < font.height
  rows_ge : 3 ≤ fbHeight / font.height
  fits : fbWidth * fbHeight * 4 ≤ wordSize
  width_lt : fbWidth < wordSize
  height_lt : fbHeight < wordSize

/-- The number of rows of text. -/
def textRows (font : Font) (fbHeight : ℕ) : ℕ := fbHeight / font.height - 1

namespace Framebuffer

variable {font : Font} {fbWidth fbHeight : ℕ}

theorem lt (h : Framebuffer font fbWidth fbHeight) : fbHeight * fbWidth < wordSize := by
  have hfits : fbWidth * fbHeight * 4 ≤ 2 ^ 32 := h.fits
  rw [Nat.mul_comm]
  show _ < 2 ^ 32
  omega

/-- Below the rows of text there is room for one more. -/
theorem textRows_mul (h : Framebuffer font fbWidth fbHeight) :
    textRows font fbHeight * font.height + font.height + fbHeight % font.height = fbHeight ∧
      2 ≤ textRows font fbHeight := by
  have hrows := h.rows_ge
  have hdiv := Nat.div_add_mod' fbHeight font.height
  obtain ⟨n, hn⟩ : ∃ n, fbHeight / font.height = n + 1 := ⟨_, (Nat.sub_add_cancel (by omega)).symm⟩
  rw [textRows, hn, Nat.add_sub_cancel]
  rw [hn, Nat.succ_mul] at hdiv
  exact ⟨hdiv, by omega⟩

/-- The number of rows of pixels that `framebuf_scroll` moves. -/
theorem sub_eq (h : Framebuffer font fbWidth fbHeight) :
    sub (sub fbHeight font.height) 1 = fbHeight - font.height - 1 := by
  have hrows := h.textRows_mul
  have hpos := h.fontHeight_pos
  have hmul : 2 * font.height ≤ textRows font fbHeight * font.height :=
    Nat.mul_le_mul_right _ hrows.2
  have hlt := h.height_lt
  rw [Console.sub_eq (by omega) hlt, Console.sub_eq (by omega) (by omega)]

end Framebuffer

theorem framebufScroll_eq (font : Font) (s : Display UInt32) :
    framebufScroll font s = { s with buf := (framebufScroll font s).buf } := by
  simp only [framebufScroll]

/-- What `framebuf_scroll` leaves in the buffer. -/
theorem framebufScroll_buf {font : Font} {s : Display UInt32}
    (h : Framebuffer font s.fbWidth s.fbHeight) (c : ℕ) : (framebufScroll font s).buf c =
      if c < (s.fbHeight - font.height - 1) * s.fbWidth then s.buf (c + font.height * s.fbWidth)
      else s.buf c := by
  have hrows := h.textRows_mul
  have hloop := loop_induction (n := s.fbHeight - font.height - 1) (s := s.buf)
    (f := framebufScrollRow font s.fbWidth) (fun i buf => ∀ c, buf c =
      if c < i * s.fbWidth then s.buf (c + font.height * s.fbWidth) else s.buf c)
    (fun c => by rw [Nat.zero_mul, if_neg (Nat.not_lt_zero c)]) (fun i hi buf hbuf c => ?_) c
  · simp only [framebufScroll, h.sub_eq]
    exact hloop
  have hle : (i + font.height) * s.fbWidth ≤ s.fbHeight * s.fbWidth :=
    Nat.mul_le_mul_right _ (by omega)
  have hlt := h.lt
  have hle' : i * s.fbWidth ≤ (i + font.height) * s.fbWidth := Nat.mul_le_mul_right _ (by omega)
  rw [framebufScrollRow, Nat.mod_eq_of_lt (by omega), Nat.mod_eq_of_lt (by omega),
    copyCells_apply hle', Nat.succ_mul, hbuf, hbuf, Nat.add_mul]
  generalize i * s.fbWidth = p
  have hpos : s.fbWidth ≤ font.height * s.fbWidth := Nat.le_mul_of_pos_left _ h.fontHeight_pos
  generalize font.height * s.fbWidth = q at hpos
  split_ifs <;> first | rfl | omega | (congr 1; omega)

/-- A line of a glyph is drawn at the pointer, and moves it behind the line. -/
theorem framebufDrawLine_frame (font : Font) (c : UInt8) (iy p : ℕ) (buf : ℕ → UInt32) :
    (framebufDrawLine font c iy (buf, p)).2 = p + font.width ∧
      ∀ q, p + font.width ≤ q → (framebufDrawLine font c iy (buf, p)).1 q = buf q := by
  have hloop := loop_induction (n := font.width) (s := (buf, p))
    (f := fun ix st => (Function.update st.1 st.2 (glyphPixel font c iy ix), st.2 + 1))
    (fun ix st => st.2 = p + ix ∧ ∀ q, p + font.width ≤ q → st.1 q = buf q)
    ⟨rfl, fun _ _ => rfl⟩ (fun ix hi st hst => ?_)
  · exact hloop
  · refine ⟨congrArg Nat.succ hst.1, fun q hq => ?_⟩
    show Function.update st.1 st.2 _ q = _
    rw [Function.update_of_ne (by rw [hst.1]; omega), hst.2 q hq]

/-- A character that is drawn in a cell leaves the pixels below the rows of text as they are. -/
theorem framebufDrawChar_frame {font : Font} {s : Display UInt32} {x y : ℕ}
    (h : Framebuffer font s.fbWidth s.fbHeight) (hx : x < s.fbWidth / font.width)
    (hy : y < textRows font s.fbHeight) (c : UInt8) {q : ℕ}
    (hq : textRows font s.fbHeight * font.height * s.fbWidth ≤ q) :
    (framebufDrawChar font s x y c).buf q = s.buf q := by
  -- the right end of the cell, and its lower end
  have hright : x * font.width + font.width ≤ s.fbWidth := by
    rw [← Nat.succ_mul]
    exact Nat.le_trans (Nat.mul_le_mul_right _ hx) (Nat.div_mul_le_self _ _)
  have hbottom : y * s.fbWidth * font.height + font.height * s.fbWidth ≤
      textRows font s.fbHeight * font.height * s.fbWidth := by
    rw [Nat.mul_assoc, Nat.mul_comm s.fbWidth, ← Nat.succ_mul, Nat.mul_assoc]
    exact Nat.mul_le_mul_right _ hy
  have hlast : textRows font s.fbHeight * font.height * s.fbWidth ≤ s.fbHeight * s.fbWidth := by
    have hrows := h.textRows_mul
    exact Nat.mul_le_mul_right _ (by omega)
  have hlt := h.lt
  have hfont : s.fbWidth ≤ font.height * s.fbWidth := Nat.le_mul_of_pos_left _ h.fontHeight_pos
  have hsub := sub_eq (show font.width ≤ s.fbWidth by omega) h.width_lt
  have hloop := loop_induction (n := font.height)
    (s := (s.buf, y * s.fbWidth * font.height + x * font.width))
    (f := fun iy st => ((framebufDrawLine font c iy st).1,
      (framebufDrawLine font c iy st).2 + sub s.fbWidth font.width))
    (fun iy st => st.2 = y * s.fbWidth * font.height + x * font.width + iy * s.fbWidth ∧
      ∀ q, textRows font s.fbHeight * font.height * s.fbWidth ≤ q → st.1 q = s.buf q)
    ⟨by rw [Nat.zero_mul, Nat.add_zero], fun _ _ => rfl⟩ (fun iy hi st hst => ?_)
  · have hmod := hloop.2 q hq
    simp only [framebufDrawChar]
    rwa [Nat.mod_eq_of_lt (show x * font.width < wordSize by omega), Nat.mod_eq_of_lt (by omega)]
  · obtain ⟨buf, p⟩ := st
    obtain ⟨hp, hkeep⟩ := hst
    obtain ⟨hplace, hline⟩ := framebufDrawLine_frame font c iy p buf
    have hlines : iy * s.fbWidth + s.fbWidth ≤ font.height * s.fbWidth := by
      rw [← Nat.succ_mul]
      exact Nat.mul_le_mul_right _ hi
    simp only at hp hkeep
    constructor
    · show (framebufDrawLine font c iy (buf, p)).2 + _ = _
      rw [hplace, hsub, Nat.succ_mul]
      omega
    · intro q hq
      show (framebufDrawLine font c iy (buf, p)).1 q = _
      rw [hline q (by omega), hkeep q hq]

/-- What the console keeps of a framebuffer: its size, and the background below the rows of text. -/
structure PixelsKept (font : Font) (fbWidth fbHeight : ℕ) (s : Display UInt32) : Prop where
  fbWidth_eq : s.fbWidth = fbWidth
  fbHeight_eq : s.fbHeight = fbHeight
  width_eq : s.width = fbWidth / font.width
  height_eq : s.height = textRows font fbHeight
  below : ∀ q, textRows font fbHeight * font.height * fbWidth ≤ q → q < fbHeight * fbWidth →
    s.buf q = graphicBackground

/-- `framebuffer_init_raw` fills the buffer with the background. -/
theorem framebufferInitRaw_buf {font : Font} {fbWidth fbHeight : ℕ}
    (h : Framebuffer font fbWidth fbHeight) (pixelbuf : ℕ → UInt32) {q : ℕ}
    (hq : q < fbHeight * fbWidth) :
    (framebufferInitRaw font fbWidth fbHeight pixelbuf).buf q = graphicBackground := by
  have hloop := loop_induction (n := fbHeight) (s := pixelbuf)
    (f := fun y buf => mapCells (fun _ => graphicBackground) buf (y * fbWidth % wordSize) fbWidth)
    (fun y buf => ∀ q < y * fbWidth, buf q = graphicBackground)
    (fun q hq => absurd (by rwa [Nat.zero_mul] at hq) (Nat.not_lt_zero q))
    (fun y hy buf hbuf q hq => ?_)
  · exact hloop q hq
  · have hle : y * fbWidth + fbWidth ≤ fbHeight * fbWidth := by
      rw [← Nat.succ_mul]
      exact Nat.mul_le_mul_right _ hy
    have hlt := h.lt
    rw [Nat.succ_mul] at hq
    rw [Nat.mod_eq_of_lt (by omega), mapCells_apply]
    split
    · rfl
    · exact hbuf q (by omega)

theorem Framebuffer.kept {font : Font} {fbWidth fbHeight : ℕ}
    (h : Framebuffer font fbWidth fbHeight) {pixelbuf : ℕ → UInt32} {s : Display UInt32}
    (hs : Reachable (framebufBackend font) (framebufferInitRaw font fbWidth fbHeight pixelbuf) s) :
    PixelsKept font fbWidth fbHeight s := by
  induction hs with
  | start =>
    have hrows := h.rows_ge
    have hheight := Nat.lt_of_le_of_lt (Nat.div_le_self fbHeight font.height) h.height_lt
    exact ⟨rfl, rfl, rfl, Console.sub_eq (by omega) hheight,
      fun _ _ hq => framebufferInitRaw_buf h pixelbuf hq⟩
  | move x y _ ih => exact ⟨ih.fbWidth_eq, ih.fbHeight_eq, ih.width_eq, ih.height_eq, ih.below⟩
  | @draw s c _ hx hy ih =>
    obtain ⟨rfl, rfl, hwidth, hheight, hbelow⟩ := ih
    refine ⟨rfl, rfl, hwidth, hheight, fun q hlo hhi => ?_⟩
    show (framebufDrawChar font s s.x s.y c).buf q = _
    rw [framebufDrawChar_frame h (hwidth ▸ hx) (hheight ▸ hy) c hlo, hbelow q hlo hhi]
  | @scroll s _ ih =>
    obtain ⟨rfl, rfl, hwidth, hheight, hbelow⟩ := ih
    show PixelsKept font _ _ (framebufScroll font s)
    rw [framebufScroll_eq]
    refine ⟨rfl, rfl, hwidth, hheight, fun q hlo hhi => ?_⟩
    dsimp only
    rw [framebufScroll_buf h]
    split_ifs with hq
    · have hrows := h.textRows_mul
      have hle : (s.fbHeight - font.height - 1 + font.height) * s.fbWidth ≤
        s.fbHeight * s.fbWidth := Nat.mul_le_mul_right _ (by omega)
      rw [Nat.add_mul] at hle
      exact hbelow _ (by omega) (by omega)
    · exact hbelow q hlo hhi

/-- `framebuf_scroll` scrolls the rows of text exactly when the lowest row of pixels that it does
not reach is none of theirs, or is background already. -/
theorem framebufScroll_scrolls_iff {font : Font} {fbWidth fbHeight : ℕ}
    (h : Framebuffer font fbWidth fbHeight) {pixelbuf : ℕ → UInt32} {s : Display UInt32}
    (hs : Reachable (framebufBackend font) (framebufferInitRaw font fbWidth fbHeight pixelbuf) s) :
    Scrolls s.height (fun _ _ => graphicBackground) (pixelRow font fbWidth s.buf)
        (pixelRow font fbWidth (framebufScroll font s).buf) ↔
      fbHeight % font.height ≠ 0 ∨
        ∀ x < fbWidth, s.buf ((s.height * font.height - 1) * fbWidth + x) = graphicBackground := by
  obtain ⟨rfl, rfl, -, hheight, hbelow⟩ := h.kept hs
  obtain ⟨hrows, htwo⟩ := h.textRows_mul
  rw [← hheight] at hrows htwo hbelow
  have hpos := h.fontHeight_pos
  obtain ⟨n, hn⟩ : ∃ n, s.height = n + 1 := ⟨s.height - 1, by omega⟩
  have hmul : s.height * font.height = n * font.height + font.height := by rw [hn, Nat.succ_mul]
  constructor
  · -- the lowest row of pixels of the last row of text stays where it is
    intro hscrolls
    by_contra hnot
    rw [not_or, not_not] at hnot
    apply hnot.2
    intro x hx
    have hlast := congrFun (congrFun (hscrolls n (by omega)) ⟨font.height - 1, by omega⟩) ⟨x, hx⟩
    rw [if_neg (by omega)] at hlast
    have hrow : s.height * font.height - 1 = n * font.height + (font.height - 1) := by omega
    have hout : ¬ (n * font.height + (font.height - 1)) * s.fbWidth + x <
        (s.fbHeight - font.height - 1) * s.fbWidth := by
      rw [cell_lt_iff hx]
      omega
    rw [pixelRow, framebufScroll_buf h, if_neg hout] at hlast
    rw [hrow, hlast]
  · intro hor r hr
    funext ⟨iy, hiy⟩ ⟨x, hx⟩
    have hnext : (r + 1) * font.height = r * font.height + font.height := Nat.succ_mul _ _
    have hshift : (r * font.height + iy) * s.fbWidth + x + font.height * s.fbWidth =
        ((r + 1) * font.height + iy) * s.fbWidth + x := by
      rw [hnext]
      ring
    show (framebufScroll font s).buf ((r * font.height + iy) * s.fbWidth + x) = _
    rw [framebufScroll_buf h, hshift]
    rcases Nat.lt_or_ge (r + 1) s.height with hlt | hge
    · have hle : (r + 1 + 1) * font.height ≤ s.height * font.height :=
        Nat.mul_le_mul_right _ hlt
      rw [Nat.succ_mul] at hle
      have hin : (r * font.height + iy) * s.fbWidth + x <
          (s.fbHeight - font.height - 1) * s.fbWidth := (cell_lt_iff hx).2 (by omega)
      rw [if_pos hin, if_pos hlt]
      rfl
    · obtain rfl : r = n := by omega
      rw [if_neg (Nat.not_lt_of_le hge)]
      split_ifs with hmoved
      · -- the strip below the rows of text
        have hmoved := (cell_lt_iff hx).1 hmoved
        exact hbelow _ (Nat.le_trans (Nat.mul_le_mul_right _ (by omega)) (Nat.le_add_right _ _))
          ((cell_lt_iff hx).2 (by omega))
      · rw [cell_lt_iff hx] at hmoved
        have hrow : r * font.height + iy = s.height * font.height - 1 := by omega
        rw [hrow]
        exact (hor.resolve_left (by omega)) x hx

/-! ## The console -/

section

variable {α : Type} {b : Backend α} {s₀ s : Display α}

theorem Reachable.doNewline (h : Reachable b s₀ s) : Reachable b s₀ (doNewline b s) := by
  have hdown := h.move s.x ((s.y + 1) % wordSize)
  simp only [Console.doNewline]
  split
  · exact hdown.scroll.move 0 (sub (b.scroll { s with y := (s.y + 1) % wordSize }).height 1)
  · exact hdown.move 0 ((s.y + 1) % wordSize)

/-- A character is drawn in the cell of the cursor, or in the one before it. -/
theorem Reachable.doDrawChar (h : Reachable b s₀ s) (hx : s.x < s.width) (hy : s.y < s.height)
    (c : UInt8) : Reachable b s₀ (doDrawChar b s c) := by
  simp only [Console.doDrawChar]
  split
  · exact h.doNewline
  · split
    · exact (h.move (s.x - 1) s.y).draw 32 (Nat.lt_of_le_of_lt (Nat.sub_le _ _) hx) hy
    · have hdrawn := h.draw c hx hy
      have hright := hdrawn.move (((b.drawChar s s.x s.y c).x + 1) % wordSize)
        (b.drawChar s s.x s.y c).y
      split
      · exact hright.doNewline
      · exact hright

/-- Requests keep to these states, as long as the cursor is in a cell of the screen. -/
theorem Reachable.handle (h : Reachable b s₀ s) (hx : s.x < s.width) (hy : s.y < s.height)
    (request : Request) : Reachable b s₀ (handle b s request) := by
  have hposition : ∀ {s : Display α} (x y : ℕ), Reachable b s₀ s →
      Reachable b s₀ (doSetPosition s x y) := by
    intro s x y hs
    rw [doSetPosition]
    split
    · exact hs.move x y
    · exact hs
  cases request with
  | putChar c => exact h.doDrawChar hx hy c
  | setPosition x y => exact hposition x y h
  | clear =>
    apply hposition
    exact loop_induction (fun _ s => Reachable b s₀ s) h fun _ _ _ hs => hs.doNewline

end

/-- **`text_scroll` scrolls the rows of text from every state of the console. `framebuf_scroll` does
exactly when the height of the framebuffer is no multiple of the height of the font, or the lowest
row of pixels of the last row of text is background.** -/
theorem scroll_iff {s₀ t : Display VgaChar} (h₀ : TextScreen s₀) (ht : Reachable textBackend s₀ t)
    {font : Font} {fbWidth fbHeight : ℕ} (h : Framebuffer font fbWidth fbHeight)
    {pixelbuf : ℕ → UInt32} {s : Display UInt32}
    (hs : Reachable (framebufBackend font) (framebufferInitRaw font fbWidth fbHeight pixelbuf) s) :
    Scrolls t.height (fun _ => ⟨32, vgaTextColor⟩) (textRow t.width t.buf)
        (textRow t.width (textScroll t).buf) ∧
      (Scrolls s.height (fun _ _ => graphicBackground) (pixelRow font fbWidth s.buf)
          (pixelRow font fbWidth (framebufScroll font s).buf) ↔
        fbHeight % font.height ≠ 0 ∨
          ∀ x < fbWidth, s.buf ((s.height * font.height - 1) * fbWidth + x) = graphicBackground) :=
  ⟨textScroll_scrolls h₀ ht, framebufScroll_scrolls_iff h hs⟩

/-- A font of the size of the one in `font.c`, with every pixel of its glyphs set. -/
def boxFont : Font where
  charsize := 12
  height := 12
  width := 6
  bitmap := fun _ => 255

theorem framebuffer_boxFont : Framebuffer boxFont 1024 768 := by
  constructor <;> decide

theorem scroll_iff_boxFont :
    Scrolls 25 (fun _ => ⟨32, vgaTextColor⟩) (textRow 80 (textbufferInit fun _ => ⟨0, 0⟩).buf)
      (textRow 80 (textScroll (textbufferInit fun _ => ⟨0, 0⟩)).buf) ∧
    Scrolls 63 (fun _ _ => graphicBackground)
      (pixelRow boxFont 1024 (framebufferInitRaw boxFont 1024 768 fun _ => 0).buf)
      (pixelRow boxFont 1024
        (framebufScroll boxFont (framebufferInitRaw boxFont 1024 768 fun _ => 0)).buf) := by
  have h := scroll_iff (textScreen_textbufferInit fun _ => ⟨0, 0⟩) .start framebuffer_boxFont
    (.start : Reachable _ (framebufferInitRaw boxFont 1024 768 fun _ => 0) _)
  constructor
  · exact h.1
  · apply h.2.2
    exact .inr fun x hx => framebufferInitRaw_buf framebuffer_boxFont _
      (Nat.lt_of_lt_of_le (Nat.add_lt_add_left hx _) (by decide))

/-- A font with a single pixel, which is set in every glyph. -/
def dotFont : Font where
  charsize := 1
  height := 1
  width := 1
  bitmap := fun _ => 255

/-- On a framebuffer of three pixels, one above the other, there are two rows of text. The dot in
the second one is still there after scrolling. -/
theorem dotFont_not_scrolls : ∃ s,
    Reachable (framebufBackend dotFont) (framebufferInitRaw dotFont 1 3 fun _ => 0) s ∧
      ¬ Scrolls s.height (fun _ _ => graphicBackground) (pixelRow dotFont 1 s.buf)
        (pixelRow dotFont 1 (framebufScroll dotFont s).buf) := by
  refine ⟨_, .draw 65 (.move 0 1 .start) (by decide) (by decide), ?_⟩
  intro h
  have hdot := congrFun (congrFun (h 1 (by decide)) ⟨0, by decide⟩) 0
  exact absurd hdot (by decide +kernel)

end C4OS.Console
