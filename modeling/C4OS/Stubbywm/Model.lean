import C4OS.Foundations.Loops

/-!
# The window manager

The functions of `main.c`, `winlist.c` and `ppm.c`. The window manager draws into a buffer of its
own and copies the parts that it has noted for an update to the framebuffer. Coordinates are
`int32_t`, sizes are words, and pixels are words with eight bits for each channel. The buffer of a
window belongs to its client.
-/

namespace C4OS.Stubbywm

open Foundations

/-- The value of a sum as an `int32_t`. -/
def int32 (z : ℤ) : ℤ := z.bmod (2 ^ 32)

/-- The value of a sum as an `unsigned`. -/
def word (n : ℕ) : ℕ := n % 2 ^ 32

/-- `stubby_point_t`. -/
structure Point where
  x : ℤ
  y : ℤ
  deriving DecidableEq

/-- `stubby_rect_t`. -/
structure Rect where
  coord : Point
  height : ℕ
  width : ℕ

/-- `window_t`, without the ports. -/
structure Window where
  rect : Rect
  buffer : ℕ → ℕ
  color : ℕ
  hasBuffer : Bool

/-- `ppm_t`, without the version. -/
structure Ppm where
  width : ℕ
  height : ℕ
  pixbuf : ℕ → UInt8

/-- `framebuffer_info_t`: the pixels are in the address space. -/
structure Info where
  width : ℕ
  height : ℕ
  fits : width * height * 4 ≤ 2 ^ 32

/-- `wm_update_t`. -/
structure Update where
  lower : Point
  upper : Point

/-- `MAX_UPDATES`. -/
abbrev maxUpdates : ℕ := 128

/-- `wm_t`, with the list of windows from `start` to `end`. -/
structure Wm where
  winlist : List Window
  mouse : Point
  mouseCursor : Ppm
  updates : ℕ → Update
  numUpdates : ℕ
  buffer : ℕ → ℕ
  framebuffer : ℕ → ℕ
  info : Info

/-! ## Updates -/

/-- `reset_updates`. -/
def resetUpdates (wm : Wm) : Wm := { wm with numUpdates := 0 }

/-- `normalize_point`. -/
def normalizePoint (wm : Wm) (pt : Point) : Point :=
  let pt := if pt.x < 0 then { pt with x := 0 } else pt
  let pt := if pt.y < 0 then { pt with y := 0 } else pt
  let pt := if pt.x > wm.info.width then { pt with x := wm.info.width } else pt
  if pt.y > wm.info.height then { pt with y := wm.info.height } else pt

/-- The writes of `set_full_update`, into an entry of the updates. -/
def writeFullUpdate (wm : Wm) (up : ℕ) : Wm :=
  { wm with updates := Function.update wm.updates up ⟨⟨0, 0⟩, ⟨wm.info.width, wm.info.height⟩⟩ }

/-- `alloc_update`, with the calls that `set_full_update` and `alloc_update` make of each other. The
inner call finds an empty list of updates. -/
def allocUpdate : ℕ → Wm → Wm × ℕ
  | 0, wm => (wm, wm.numUpdates)
  | depth + 1, wm =>
    let ret := wm.numUpdates
    let wm := { wm with numUpdates := wm.numUpdates + 1 }
    let wm :=
      if wm.numUpdates ≥ maxUpdates then
        let (wm, up) := allocUpdate depth (resetUpdates wm)
        writeFullUpdate wm up
      else wm
    ({ wm with numUpdates := wm.numUpdates % maxUpdates }, ret)

/-- `set_full_update`. -/
def setFullUpdate (wm : Wm) : Wm :=
  let (wm, up) := allocUpdate 2 wm
  writeFullUpdate wm up

/-- `point_less_than`. -/
def pointLessThan (a b : Point) : Bool := a.y < b.y ∨ (a.y = b.y ∧ a.x < b.x)

/-- `update_region`. -/
def updateRegion (wm : Wm) (a b : Point) : Wm :=
  let (wm, up) := allocUpdate 2 wm
  let lower := if pointLessThan a b then a else b
  let upper := if pointLessThan a b then b else a
  { wm with
    updates := Function.update wm.updates up ⟨normalizePoint wm lower, normalizePoint wm upper⟩ }

/-- `rect_max_coord`. -/
def rectMaxCoord (wm : Wm) (rect : Rect) : Point :=
  normalizePoint wm ⟨int32 (rect.coord.x + rect.width), int32 (rect.coord.y + rect.height)⟩

/-- `STUBBYWM_BORDER_SIZE`. -/
abbrev borderSize : ℕ := 3

/-- `STUBBYWM_TITLEBAR_SIZE`. -/
abbrev titlebarSize : ℕ := 25

/-- `update_mouse_region`. -/
def updateMouseRegion (wm : Wm) : Wm :=
  updateRegion wm wm.mouse
    ⟨int32 (wm.mouse.x + wm.mouseCursor.width), int32 (wm.mouse.y + wm.mouseCursor.height)⟩

/-- `update_window_region`. -/
def updateWindowRegion (wm : Wm) (window : Window) : Wm :=
  let a := window.rect.coord
  let b := rectMaxCoord wm window.rect
  updateRegion wm (normalizePoint wm ⟨a.x - borderSize, a.y - titlebarSize⟩)
    (normalizePoint wm ⟨b.x + borderSize, b.y + borderSize⟩)

/-! ## Drawing -/

/-- `mix_channel`. -/
def mixChannel (a b alpha : ℕ) : ℕ := (a * (255 - alpha) + b * alpha) / 255 % 256

/-- A channel of a pixel. -/
def channel (pixel shift : ℕ) : ℕ := pixel >>> shift % 256

/-- The pixel that `draw_pixel` writes over another one. -/
def blend (temp pixel : ℕ) : ℕ :=
  if pixel &&& 0xff000000 ≠ 0 then
    let alpha := channel pixel 24
    mixChannel (channel temp 16) (channel pixel 16) alpha <<< 16 |||
      mixChannel (channel temp 8) (channel pixel 8) alpha <<< 8 |||
      mixChannel (channel temp 0) (channel pixel 0) alpha
  else pixel

/-- `draw_pixel`. The index is in the buffer, which is in the address space. -/
def drawPixel (wm : Wm) (x y : ℤ) (pixel : ℕ) : Wm :=
  if x < 0 ∨ y < 0 then wm
  else if x ≥ wm.info.width ∨ y ≥ wm.info.height then wm
  else
    let index := (y * wm.info.width + x).toNat
    { wm with buffer := Function.update wm.buffer index (blend (wm.buffer index) pixel) }

/-- `draw_rect`. -/
def drawRect (wm : Wm) (rect : Rect) (color : ℕ) : Wm :=
  loop rect.height (fun y wm => loop rect.width (fun x wm =>
    drawPixel wm (int32 (x + rect.coord.x)) (int32 (y + rect.coord.y)) color) wm) wm

/-- The pixel of the background. -/
def backgroundPixel (x y : ℤ) : ℕ :=
  let thing := ((x.toNat ^^^ y.toNat) >>> 2 + 0xa0) % 256
  thing >>> 1 <<< 16 ||| thing <<< 9 ||| thing

/-- `draw_background`. -/
def drawBackground (wm : Wm) : Wm :=
  loop wm.numUpdates (fun k wm =>
    let up := wm.updates k
    forRange up.lower.y up.upper.y (fun y wm => forRange up.lower.x up.upper.x (fun x wm =>
      drawPixel wm x y (backgroundPixel x y)) wm) wm) wm

/-- The pixel of a window. The index has 32 bits. -/
def Window.pixel (window : Window) (x y : ℤ) : ℕ :=
  let a := window.rect.coord
  if window.hasBuffer then
    window.buffer (((y - a.y) * window.rect.width + (x - a.x)) % 2 ^ 32).toNat
  else window.color

/-- A turn of the outer loop of `draw_window`. -/
def drawWindowUpdate (window : Window) (up : Update) (wm : Wm) : Wm :=
  let a := window.rect.coord
  let b := rectMaxCoord wm window.rect
  if a.y ≥ up.upper.y ∨ b.y < up.lower.y then wm
  else if a.x ≥ up.upper.x ∨ b.x < up.lower.x then wm
  else
    let yStart := if a.y > up.lower.y then a.y else up.lower.y
    let xStart := if a.x > up.lower.x then a.x else up.lower.x
    forRange yStart (min b.y up.upper.y) (fun y wm =>
      forRange xStart (min b.x up.upper.x) (fun x wm =>
        drawPixel wm x y (window.pixel x y)) wm) wm

/-- `draw_window`. -/
def drawWindow (wm : Wm) (window : Window) : Wm :=
  loop wm.numUpdates (fun k wm => drawWindowUpdate window (wm.updates k) wm) wm

/-- `STUBBYWM_WINDOW_COLOR`. -/
abbrev windowColor : ℕ := 0x202020

/-- The rectangles of `draw_window_decoration`, with their colors. -/
def Window.decoration (window : Window) : List (Rect × ℕ) :=
  let x := window.rect.coord.x
  let y := window.rect.coord.y
  let titlebar : Rect :=
    { coord := ⟨int32 (x - borderSize), int32 (y - titlebarSize)⟩
      height := titlebarSize
      width := word (window.rect.width + borderSize * 2) }
  let textPlaceholder : Rect :=
    { coord := ⟨int32 (x + 5 - borderSize), int32 (y - 20)⟩
      height := 15
      width := window.rect.width / 4 }
  let leftBorder : Rect :=
    { coord := ⟨int32 (x - borderSize), y⟩
      height := word (window.rect.height + borderSize)
      width := borderSize }
  let rightBorder : Rect :=
    { coord := ⟨int32 (x + window.rect.width), y⟩
      height := word (window.rect.height + borderSize)
      width := borderSize }
  let bottomBorder : Rect :=
    { coord := ⟨x, int32 (y + window.rect.height)⟩
      height := borderSize
      width := window.rect.width }
  [(titlebar, windowColor), (textPlaceholder, 0xc0c0c0), (leftBorder, windowColor),
    (rightBorder, windowColor), (bottomBorder, windowColor)]

/-- Rectangles one after another. -/
def drawRects (wm : Wm) (rects : List (Rect × ℕ)) : Wm :=
  rects.foldl (fun wm r => drawRect wm r.1 r.2) wm

/-- `draw_window_decoration`. -/
def drawWindowDecoration (wm : Wm) (window : Window) : Wm := drawRects wm window.decoration

/-- `draw_windows`. -/
def drawWindows (wm : Wm) : Wm :=
  wm.winlist.foldl (fun wm window => drawWindowDecoration (drawWindow wm window) window) wm

/-- The rectangles of `draw_status_bar`, with their colors. -/
def Info.statusBar (info : Info) : List (Rect × ℕ) :=
  let bar : Rect :=
    { coord := ⟨0, int32 (info.height - 25)⟩, width := info.width, height := 25 }
  let iconPlaceholder : Rect :=
    { coord := ⟨5, int32 (info.height - 20)⟩, width := 15, height := 15 }
  let textPlaceholder : Rect :=
    { coord := ⟨25, int32 (info.height - 20)⟩, width := 60, height := 15 }
  let timePlaceholder : Rect :=
    { coord := ⟨int32 (info.width - 65), int32 (info.height - 20)⟩, width := 60, height := 15 }
  [(bar, 0xc0c0c0), (iconPlaceholder, 0x202020), (textPlaceholder, 0x808080),
    (timePlaceholder, 0x808080)]

/-- `draw_status_bar`. -/
def drawStatusBar (wm : Wm) : Wm := drawRects wm wm.info.statusBar

/-- The pixel of a picture. -/
def Ppm.pixel (ppm : Ppm) (x y : ℕ) : ℕ :=
  let data := (y * ppm.width + x) * 3
  (ppm.pixbuf data).toNat <<< 16 ||| (ppm.pixbuf (data + 1)).toNat <<< 8 |||
    (ppm.pixbuf (data + 2)).toNat

/-- `ppm_draw`. Green pixels are transparent. -/
def ppmDraw (ppm : Ppm) (wm : Wm) (coord : Point) : Wm :=
  loop ppm.height (fun y wm => loop ppm.width (fun x wm =>
    if ppm.pixel x y = 0x00ff00 then wm
    else drawPixel wm (int32 (x + coord.x)) (int32 (y + coord.y)) (ppm.pixel x y)) wm) wm

/-- `draw_mouse`. -/
def drawMouse (wm : Wm) : Wm := ppmDraw wm.mouseCursor wm wm.mouse

/-- `draw_framebuffer`. -/
def drawFramebuffer (wm : Wm) : Wm :=
  loop wm.numUpdates (fun k wm =>
    let up := wm.updates k
    forRange up.lower.y up.upper.y (fun y wm => forRange up.lower.x up.upper.x (fun x wm =>
      let index := (y * wm.info.width + x).toNat
      { wm with framebuffer := Function.update wm.framebuffer index (wm.buffer index) }) wm) wm) wm

/-! ## Events -/

/-- `mouse_event_t`. -/
structure MouseEvent where
  flags : ℕ
  x : ℤ
  y : ℤ

/-- `MOUSE_FLAG_LEFT`. -/
abbrev mouseFlagLeft : ℕ := 1

/-- `MOUSE_FLAG_RIGHT`. -/
abbrev mouseFlagRight : ℕ := 2

/-- The mouse is over a window. -/
def mouseOver (wm : Wm) (window : Window) : Bool :=
  let a := window.rect.coord
  let b := rectMaxCoord wm window.rect
  wm.mouse.x ≥ a.x ∧ wm.mouse.y ≥ a.y ∧ wm.mouse.x < b.x ∧ wm.mouse.y < b.y

/-- The loop of `handle_mouse`, on the windows from the current one back to the first, and those
behind it. -/
def mouseLoop (ev : MouseEvent) (wm : Wm) : List Window → List Window → Wm
  | [], _ => wm
  | node :: before, after =>
    if mouseOver wm node then
      if ev.flags &&& mouseFlagLeft ≠ 0 then
        let wm := updateWindowRegion wm node
        -- `window_list_remove` and `window_list_insert`
        let wm := { wm with winlist := before.reverse ++ after ++ [node] }
        updateWindowRegion wm node
      else if ev.flags &&& mouseFlagRight ≠ 0 then
        let wm := updateWindowRegion wm node
        let pt := node.rect.coord
        let pt := normalizePoint wm ⟨int32 (pt.x + ev.x), int32 (pt.y - ev.y)⟩
        let node := { node with rect.coord := pt }
        let wm := { wm with winlist := before.reverse ++ node :: after }
        updateWindowRegion wm node
      else mouseLoop ev wm before (node :: after)
    else mouseLoop ev wm before (node :: after)

/-- `handle_mouse`. -/
def handleMouse (wm : Wm) (ev : MouseEvent) : Wm :=
  let wm := updateMouseRegion wm
  let wm := mouseLoop ev wm wm.winlist.reverse []
  let mouse := ⟨int32 (wm.mouse.x + ev.x), int32 (wm.mouse.y - ev.y)⟩
  let wm := { wm with mouse := normalizePoint wm mouse }
  updateMouseRegion wm

/-- `find_client`. -/
def findClient (wm : Wm) (id : ℕ) : Option Window :=
  wm.winlist.find? fun window => id = window.color

/-- `handle_client_update`. The assertion only prints. -/
def handleClientUpdate (wm : Wm) (id : ℕ) : Wm :=
  match findClient wm id with
  | none => wm
  | some window => updateWindowRegion wm window

/-- A client writes into the buffer of its window. -/
def writeContents (wm : Wm) (id : ℕ) (buffer : ℕ → ℕ) : Wm :=
  { wm with
    winlist := wm.winlist.map fun window =>
      if id = window.color then { window with buffer := buffer } else window }

/-- `window_create`. -/
def windowCreate (width height color : ℕ) : Window where
  rect := { coord := ⟨0, 0⟩, height := height, width := width }
  buffer := fun _ => 0
  color := color
  hasBuffer := false

/-- `server_handle_new_window`, with the number of the window and what is in its new buffer. -/
def serverHandleNewWindow (wm : Wm) (width height color : ℕ) (buffer : ℕ → ℕ) : Wm :=
  let newwin := { windowCreate width height color with buffer := buffer, hasBuffer := true }
  let wm := { wm with winlist := wm.winlist ++ [newwin] }
  updateWindowRegion wm newwin

/-- The part of `event_loop` that draws. -/
def frame (wm : Wm) : Wm :=
  resetUpdates (drawFramebuffer (drawMouse (drawStatusBar (drawWindows (drawBackground wm)))))

/-- The steps of the window manager. -/
inductive Event where
  | newWindow (width height color : ℕ) (buffer : ℕ → ℕ)
  | clientUpdate (id : ℕ) (buffer : ℕ → ℕ)
  | mouse (ev : MouseEvent)
  | keyboard
  | frame

/-- A step. A client changes its window together with its update, and a key only makes a message to
a client. -/
def step (wm : Wm) : Event → Wm
  | .newWindow width height color buffer => serverHandleNewWindow wm width height color buffer
  | .clientUpdate id buffer => handleClientUpdate (writeContents wm id buffer) id
  | .mouse ev => handleMouse wm ev
  | .keyboard => wm
  | .frame => frame wm

/-- The beginning of `event_loop`. -/
def eventLoopStart (wm : Wm) : Wm := setFullUpdate (resetUpdates wm)

/-- The size of the picture in `mouse_icons.h`, with its bytes. -/
def cursorDefault (pixbuf : ℕ → UInt8) : Ppm where
  width := 16
  height := 20
  pixbuf := pixbuf

end C4OS.Stubbywm
