import C4OS.Foundations.Loops

/-!
# The console of the display server

The functions of `display.c`, with the two back ends of `textmode.c` and `framebuffer.c`. The union
of `textbuf` and `pixelbuf` is a memory of cells, and the function pointers of `display_t` are a
`Backend`. Numbers are 32 bits wide, and so is the arithmetic on them.
-/

namespace C4OS.Console

open Foundations

/-- The number of values of a word. -/
abbrev wordSize : ℕ := 2 ^ 32

/-- The difference of two words. -/
def sub (a b : ℕ) : ℕ := (a + (wordSize - b)) % wordSize

theorem sub_eq {a b : ℕ} (hle : b ≤ a) (ha : a < wordSize) : sub a b = a - b := by
  have h : a + (wordSize - b) = a - b + wordSize := by omega
  rw [sub, h, Nat.add_mod_right, Nat.mod_eq_of_lt (Nat.lt_of_le_of_lt (Nat.sub_le a b) ha)]

/-- The fields of a `display_t` that the console uses. -/
structure Display (α : Type) where
  /-- `textbuf` or `pixelbuf`. -/
  buf : ℕ → α
  fbWidth : ℕ
  fbHeight : ℕ
  width : ℕ
  height : ℕ
  x : ℕ
  y : ℕ

/-- The function pointers of a `display_t`. -/
structure Backend (α : Type) where
  drawChar : Display α → ℕ → ℕ → UInt8 → Display α
  scroll : Display α → Display α

/-! ## The console -/

section

variable {α : Type} (b : Backend α)

/-- `do_newline`. -/
def doNewline (s : Display α) : Display α :=
  let s := { s with y := (s.y + 1) % wordSize }
  let s :=
    if s.y ≥ sub s.height 1 then
      let s := b.scroll s
      { s with y := sub s.height 1 }
    else s
  { s with x := 0 }

/-- `do_draw_char`. -/
def doDrawChar (s : Display α) (c : UInt8) : Display α :=
  if c = 10 then doNewline b s
  else if c = 8 ∧ s.x > 0 then
    let s := { s with x := s.x - 1 }
    b.drawChar s s.x s.y 32
  else
    let s := b.drawChar s s.x s.y c
    let x := s.x
    let s := { s with x := (x + 1) % wordSize }
    if x ≥ s.width then doNewline b s else s

/-- `do_set_position`. -/
def doSetPosition (s : Display α) (x y : ℕ) : Display α :=
  if x < s.width ∧ y < s.height then { s with x, y } else s

/-- `do_clear`. -/
def doClear (s : Display α) : Display α :=
  doSetPosition (loop s.height (fun _ s => doNewline b s) s) 0 0

/-- The messages of the console that change it. -/
inductive Request
  | putChar (c : UInt8)
  | setPosition (x y : ℕ)
  | clear

/-- A turn of the loop of `main`. -/
def handle (s : Display α) : Request → Display α
  | .putChar c => doDrawChar b s c
  | .setPosition x y => doSetPosition s x y
  | .clear => doClear b s

end

/-! ## Text mode -/

/-- A `vga_char_t`. -/
structure VgaChar where
  text : UInt8
  color : UInt8
  deriving DecidableEq

/-- `VGA_TEXT_WIDTH`, `VGA_TEXT_HEIGHT` and `VGA_TEXT_COLOR`. -/
abbrev vgaTextWidth : ℕ := 80

@[inherit_doc vgaTextWidth]
abbrev vgaTextHeight : ℕ := 25

@[inherit_doc vgaTextWidth]
abbrev vgaTextColor : UInt8 := 0x17

/-- `text_draw_char`: the cell is the one of the cursor, whatever the arguments. -/
def textDrawChar (s : Display VgaChar) (_x _y : ℕ) (c : UInt8) : Display VgaChar :=
  { s with buf := Function.update s.buf (s.width * s.y % wordSize + s.x) ⟨c, vgaTextColor⟩ }

/-- A cell that becomes a space. -/
def VgaChar.erase (cell : VgaChar) : VgaChar := { cell with text := 32 }

/-- A turn of `text_scroll`: the row `i + 1` is copied to the row `i`, and filled with spaces. -/
def textScrollRow (width i : ℕ) (buf : ℕ → VgaChar) : ℕ → VgaChar :=
  let foo := width * i % wordSize
  let bar := width * (i + 1) % wordSize
  mapCells VgaChar.erase (copyCells buf foo bar width) (foo + width) width

/-- `text_scroll`. -/
def textScroll (s : Display VgaChar) : Display VgaChar :=
  { s with buf := loop (s.height - 1) (textScrollRow s.width) s.buf }

/-- The back end of the text mode. -/
def textBackend : Backend VgaChar := ⟨textDrawChar, textScroll⟩

/-- `textbuffer_init`, over what is in the memory of the buffer. -/
def textbufferInit (textbuf : ℕ → VgaChar) : Display VgaChar where
  buf := mapCells (fun _ => ⟨32, vgaTextColor⟩) textbuf 0 (vgaTextWidth * vgaTextHeight)
  fbWidth := 0
  fbHeight := 0
  width := vgaTextWidth
  height := vgaTextHeight
  x := 0
  y := 0

/-! ## The framebuffer -/

/-- The fields of the `psf2_header_t` of `display_font`, and the bytes behind it. -/
structure Font where
  charsize : ℕ
  height : ℕ
  width : ℕ
  bitmap : ℕ → UInt8

/-- `GRAPHIC_FOREGROUND` and `GRAPHIC_BACKGROUND`. -/
abbrev graphicForeground : UInt32 := 0x00d0d0d0

@[inherit_doc graphicForeground]
abbrev graphicBackground : UInt32 := 0xa0181818

/-- The byte of a glyph. A `char` has a sign, and the product and the sum have 32 bits. -/
def glyphByte (font : Font) (c : UInt8) (iy : ℕ) : UInt8 :=
  let c := if c < 128 then c.toNat else wordSize - 256 + c.toNat
  font.bitmap ((c * font.charsize + iy) % wordSize)

/-- The pixel of a glyph. The machine takes the counts of the shifts modulo 32. -/
def glyphPixel (font : Font) (c : UInt8) (iy ix : ℕ) : UInt32 :=
  let mod := 2 ^ ((font.width + 1) % 32)
  if (glyphByte font c iy).toNat &&& (mod / 2 ^ (ix % 32)) ≠ 0 then graphicForeground
  else graphicBackground

/-- The inner loop of `framebuf_draw_char`, on the buffer and the pointer `place`. -/
def framebufDrawLine (font : Font) (c : UInt8) (iy : ℕ) (st : (ℕ → UInt32) × ℕ) :
    (ℕ → UInt32) × ℕ :=
  loop font.width (fun ix st =>
    (Function.update st.1 st.2 (glyphPixel font c iy ix), st.2 + 1)) st

/-- `framebuf_draw_char`. -/
def framebufDrawChar (font : Font) (s : Display UInt32) (x y : ℕ) (c : UInt8) : Display UInt32 :=
  let meh := x * font.width % wordSize
  let blah := y * s.fbWidth * font.height % wordSize
  let st := loop font.height (fun iy st =>
    let st := framebufDrawLine font c iy st
    (st.1, st.2 + sub s.fbWidth font.width)) (s.buf, blah + meh)
  { s with buf := st.1 }

/-- A turn of `framebuf_scroll`. -/
def framebufScrollRow (font : Font) (rowsize i : ℕ) (buf : ℕ → UInt32) : ℕ → UInt32 :=
  let offset := i * rowsize % wordSize
  let next := (i + font.height) * rowsize % wordSize
  copyCells buf offset next rowsize

/-- `framebuf_scroll`. -/
def framebufScroll (font : Font) (s : Display UInt32) : Display UInt32 :=
  let rows := sub (sub s.fbHeight font.height) 1
  { s with buf := loop rows (framebufScrollRow font s.fbWidth) s.buf }

/-- The back end of the framebuffer. -/
def framebufBackend (font : Font) : Backend UInt32 := ⟨framebufDrawChar font, framebufScroll font⟩

/-- `framebuffer_init_raw`, over what is in the memory of the buffer. -/
def framebufferInitRaw (font : Font) (fbWidth fbHeight : ℕ) (pixelbuf : ℕ → UInt32) :
    Display UInt32 where
  buf := loop fbHeight (fun y buf =>
    mapCells (fun _ => graphicBackground) buf (y * fbWidth % wordSize) fbWidth) pixelbuf
  fbWidth := fbWidth
  fbHeight := fbHeight
  width := fbWidth / font.width
  height := sub (fbHeight / font.height) 1
  x := 0
  y := 0

end C4OS.Console
