import C4OS.Foundations.Layers
import C4OS.Stubbywm.Model

/-!
# What the window manager draws

Each function that draws paints a layer over the picture in the buffer (`Paints`), and changes
nothing else. Pixels with no alpha byte cover what is below them, so that a pixel that is drawn
twice is drawn once, and a loop of turns that paint parts of a layer paints all these parts
(`Paints.loop`).
-/

namespace C4OS.Stubbywm

open Foundations

/-- The pixel covers what is below it. -/
def Opaque (pixel : ℕ) : Prop := pixel < 2 ^ 24

instance (pixel : ℕ) : Decidable (Opaque pixel) := inferInstanceAs (Decidable (pixel < 2 ^ 24))

theorem blend_eq_pixel {temp pixel : ℕ} (h : Opaque pixel) : blend temp pixel = pixel := by
  have hand : pixel &&& 0xff000000 = 0 := by
    apply Nat.eq_of_testBit_eq
    intro i
    have hmask : (0xff000000 : ℕ) = 0xff <<< 24 := rfl
    rw [Nat.testBit_and, hmask, Nat.testBit_shiftLeft, Nat.zero_testBit]
    by_cases hi : 24 ≤ i
    · have hlt : pixel < 2 ^ i := Nat.lt_of_lt_of_le h (Nat.pow_le_pow_right (by decide) hi)
      rw [Nat.testBit_lt_two_pow hlt, Bool.false_and]
    · rw [decide_eq_false hi, Bool.false_and, Bool.and_false]
  rw [blend, if_neg (by rw [hand]; decide)]

theorem backgroundPixel_covers (x y : ℤ) : Opaque (backgroundPixel x y) := by
  unfold backgroundPixel Opaque
  dsimp only
  have hlt : ((x.toNat ^^^ y.toNat) >>> 2 + 0xa0) % 256 < 256 := Nat.mod_lt _ (by decide)
  generalize ((x.toNat ^^^ y.toNat) >>> 2 + 0xa0) % 256 = thing at hlt
  apply Nat.or_lt_two_pow
  · apply Nat.or_lt_two_pow
    · rw [Nat.shiftLeft_eq, Nat.shiftRight_eq_div_pow]
      omega
    · rw [Nat.shiftLeft_eq]
      omega
  · omega

theorem ppmPixel_covers (ppm : Ppm) (x y : ℕ) : Opaque (ppm.pixel x y) := by
  unfold Ppm.pixel Opaque
  dsimp only
  have hbyte (b : UInt8) : b.toNat < 256 := b.toNat_lt
  apply Nat.or_lt_two_pow
  · apply Nat.or_lt_two_pow
    · rw [Nat.shiftLeft_eq]
      have := hbyte (ppm.pixbuf ((y * ppm.width + x) * 3))
      omega
    · rw [Nat.shiftLeft_eq]
      have := hbyte (ppm.pixbuf ((y * ppm.width + x) * 3 + 1))
      omega
  · have := hbyte (ppm.pixbuf ((y * ppm.width + x) * 3 + 2))
    omega

/-! ## Pictures -/

/-- The place of a pixel in the buffers. -/
def Info.index (info : Info) (p : Point) : ℕ := (p.y * info.width + p.x).toNat

/-- The point is on the screen. -/
structure Info.OnScreen (info : Info) (p : Point) : Prop where
  x_nonneg : 0 ≤ p.x
  x_lt : p.x < info.width
  y_nonneg : 0 ≤ p.y
  y_lt : p.y < info.height

variable {info : Info} {p q : Point}

theorem Info.OnScreen.index_eq (h : info.OnScreen p) :
    info.index p = p.y.toNat * info.width + p.x.toNat := by
  obtain ⟨x, hx⟩ := Int.eq_ofNat_of_zero_le h.x_nonneg
  obtain ⟨y, hy⟩ := Int.eq_ofNat_of_zero_le h.y_nonneg
  rw [Info.index, hx, hy, Int.toNat_natCast, Int.toNat_natCast]
  norm_cast

/-- Different points have different places. -/
theorem Info.OnScreen.index_inj (hp : info.OnScreen p) (hq : info.OnScreen q)
    (h : info.index p = info.index q) : p = q := by
  rw [hp.index_eq, hq.index_eq] at h
  obtain ⟨hpx, hpx', hpy, -⟩ := hp
  obtain ⟨hqx, hqx', hqy, -⟩ := hq
  obtain ⟨hy, hx⟩ := (cell_eq_iff (by omega) (by omega)).mp h
  cases p
  cases q
  simp only [Point.mk.injEq]
  dsimp only at *
  omega

/-- The picture in the buffer. -/
def Wm.picture (wm : Wm) (p : Point) : ℕ := wm.buffer (wm.info.index p)

/-- The picture on the screen. -/
def Wm.shown (wm : Wm) (p : Point) : ℕ := wm.framebuffer (wm.info.index p)

/-- Two states that differ in the buffer alone. -/
def Redrawn (wm wm' : Wm) : Prop := wm' = { wm with buffer := wm'.buffer }

/-- Layers are painted over the picture in the buffer. -/
structure Paints (ls : List (Layer Point ℕ)) (wm wm' : Wm) : Prop where
  redrawn : Redrawn wm wm'
  pixel : ∀ p, wm.info.OnScreen p → wm'.picture p = Layer.compose ls wm.picture p

section Paints

variable {wm wm' wm'' : Wm} {ls ms : List (Layer Point ℕ)} {s t : Set Point} {c d : Point → ℕ}

theorem Redrawn.refl (wm : Wm) : Redrawn wm wm := rfl

theorem Redrawn.trans (h : Redrawn wm wm') (h' : Redrawn wm' wm'') : Redrawn wm wm'' := by
  rw [Redrawn, h', h]

theorem Redrawn.info_eq (h : Redrawn wm wm') : wm'.info = wm.info := by rw [h]

theorem Redrawn.updates_eq (h : Redrawn wm wm') : wm'.updates = wm.updates := by rw [h]

theorem Redrawn.winlist_eq (h : Redrawn wm wm') : wm'.winlist = wm.winlist := by rw [h]

namespace Paints

theorem nil (wm : Wm) : Paints [] wm wm := ⟨.refl wm, fun _ _ => rfl⟩

theorem append (h : Paints ls wm wm') (h' : Paints ms wm' wm'') : Paints (ls ++ ms) wm wm'' := by
  constructor
  · exact h.redrawn.trans h'.redrawn
  · intro p hp
    rw [h'.pixel p (by rwa [h.redrawn.info_eq]), Layer.compose_append]
    exact Layer.compose_congr_base (h.pixel p hp)

/-- A layer may be changed outside the screen. -/
theorem congr (h : Paints [⟨s, c⟩] wm wm') (hst : ∀ p, wm.info.OnScreen p → (p ∈ s ↔ p ∈ t))
    (hcd : ∀ p, wm.info.OnScreen p → p ∈ s → c p = d p) : Paints [⟨t, d⟩] wm wm' := by
  constructor
  · exact h.redrawn
  · intro p hp
    rw [h.pixel p hp]
    apply Layer.compose_congr _ rfl
    exact .cons ⟨hst p hp, hcd p hp⟩ .nil

/-- A layer that is not on the screen. -/
theorem of_forall_notMem (hs : ∀ p, wm.info.OnScreen p → p ∉ s) : Paints [⟨s, c⟩] wm wm := by
  constructor
  · exact .refl wm
  · intro p hp
    rw [Layer.compose_cons, Layer.compose_nil]
    exact (Layer.paint_of_notMem (hs p hp)).symm

/-- The parts of a layer that are painted one after the other. -/
theorem union (h : Paints [⟨s, c⟩] wm wm') (h' : Paints [⟨t, c⟩] wm' wm'') :
    Paints [⟨s ∪ t, c⟩] wm wm'' := by
  constructor
  · exact h.redrawn.trans h'.redrawn
  · intro p hp
    rw [h'.pixel p (by rwa [h.redrawn.info_eq])]
    simp only [Layer.compose_cons, Layer.compose_nil]
    by_cases ht : p ∈ t
    · have hst : p ∈ (⟨s ∪ t, c⟩ : Layer Point ℕ).area := Or.inr ht
      rw [Layer.paint_of_mem ht, Layer.paint_of_mem hst]
    · rw [Layer.paint_of_notMem ht, h.pixel p hp]
      exact Layer.AgreeAt.paint ⟨by simp [ht], fun _ => rfl⟩ rfl

theorem empty (c : Point → ℕ) (wm : Wm) : Paints [⟨∅, c⟩] wm wm :=
  of_forall_notMem fun _ _ => Set.notMem_empty _

/-- The turns of a loop paint parts of a layer. -/
theorem loop {n : ℕ} {f : ℕ → Wm → Wm} {s : ℕ → Set Point}
    (h : ∀ i < n, ∀ wm', Redrawn wm wm' → Paints [⟨s i, c⟩] wm' (f i wm')) :
    Paints [⟨{p | ∃ i < n, p ∈ s i}, c⟩] wm (loop n f wm) :=
  loop_union (R := fun s => Paints [⟨s, c⟩]) (empty c) union
    fun i hi _ wm' hpaints => h i hi wm' hpaints.redrawn

theorem forRange {lo hi : ℤ} {f : ℤ → Wm → Wm} {s : ℤ → Set Point}
    (h : ∀ z, lo ≤ z → z < hi → ∀ wm', Redrawn wm wm' → Paints [⟨s z, c⟩] wm' (f z wm')) :
    Paints [⟨{p | ∃ z, lo ≤ z ∧ z < hi ∧ p ∈ s z}, c⟩] wm (forRange lo hi f wm) :=
  forRange_union (R := fun s => Paints [⟨s, c⟩]) (empty c) union
    fun z hlo hhi _ wm' hpaints => h z hlo hhi wm' hpaints.redrawn

end Paints

/-- A pixel that covers what is below it. -/
theorem drawPixel_paints (wm : Wm) {x y : ℤ} {pixel : ℕ} (h : Opaque pixel) :
    Paints [⟨{⟨x, y⟩}, fun _ => pixel⟩] wm (drawPixel wm x y pixel) := by
  unfold drawPixel
  split
  · apply Paints.of_forall_notMem
    rintro p hp rfl
    have := hp.x_nonneg
    have := hp.y_nonneg
    dsimp only at *
    omega
  · split
    · apply Paints.of_forall_notMem
      rintro p hp rfl
      have := hp.x_lt
      have := hp.y_lt
      dsimp only at *
      omega
    · have hscreen : wm.info.OnScreen ⟨x, y⟩ := by constructor <;> dsimp only <;> omega
      constructor
      · rfl
      · intro p hp
        dsimp only
        rw [blend_eq_pixel h, Layer.compose_cons, Layer.compose_nil]
        show Function.update wm.buffer (wm.info.index ⟨x, y⟩) pixel (wm.info.index p) = _
        by_cases hxy : p = ⟨x, y⟩
        · rw [hxy, Function.update_self, Layer.paint_of_mem (Set.mem_singleton _)]
        · rw [Function.update_of_ne fun heq => hxy (hp.index_inj hscreen heq),
            Layer.paint_of_notMem hxy]
          rfl

end Paints

/-! ## Coordinates -/

theorem int32_eq {z : ℤ} (h : -2 ^ 31 ≤ z) (h' : z < 2 ^ 31) : int32 z = z := by
  rw [int32, Int.bmod_eq_of_le (by omega) (by omega)]

/-- A sum that is too large is negative. -/
theorem int32_neg {z : ℤ} (h : 2 ^ 31 ≤ z) (h' : z < 2 ^ 32) : int32 z < 0 := by
  have heq : int32 z = z - 2 ^ 32 := by
    rw [int32, ← Int.sub_bmod_right, Int.bmod_eq_of_le (by omega) (by omega)]
    rfl
  omega

/-- Where a sum is a coordinate on the screen. -/
theorem int32_eq_iff {z x : ℤ} (h : -2 ^ 31 ≤ z) (h' : z < 2 ^ 32) (hx : 0 ≤ x) (hx' : x < 2 ^ 31) :
    int32 z = x ↔ z = x := by
  by_cases hz : z < 2 ^ 31
  · rw [int32_eq h hz]
  · have := int32_neg (by omega) h'
    omega

theorem Info.OnScreen.width_le (h : info.OnScreen p) : info.width ≤ 2 ^ 30 := by
  obtain ⟨hx, hx', hy, hy'⟩ := h
  have hpos : 1 ≤ info.height := by omega
  have := Nat.mul_le_mul_left info.width hpos
  have := info.fits
  omega

theorem Info.OnScreen.height_le (h : info.OnScreen p) : info.height ≤ 2 ^ 30 := by
  obtain ⟨hx, hx', hy, hy'⟩ := h
  have hpos : 1 ≤ info.width := by omega
  have := Nat.mul_le_mul_right info.height hpos
  have := info.fits
  omega

@[simp] theorem normalizePoint_x (wm : Wm) (pt : Point) :
    (normalizePoint wm pt).x = min (max pt.x 0) wm.info.width := by
  unfold normalizePoint
  dsimp only
  split_ifs <;> (try dsimp only at *) <;> omega

@[simp] theorem normalizePoint_y (wm : Wm) (pt : Point) :
    (normalizePoint wm pt).y = min (max pt.y 0) wm.info.height := by
  unfold normalizePoint
  dsimp only
  split_ifs <;> (try dsimp only at *) <;> omega

theorem mem_point_iff {x y : ℤ} : p ∈ ({⟨x, y⟩} : Set Point) ↔ p.x = x ∧ p.y = y := by
  rw [Set.mem_singleton_iff]
  cases p
  exact Point.mk.injEq .. ▸ Iff.rfl

/-- The points of a rectangle. -/
def Rect.area (r : Rect) : Set Point :=
  {p | r.coord.x ≤ p.x ∧ p.x < r.coord.x + r.width ∧ r.coord.y ≤ p.y ∧ p.y < r.coord.y + r.height}

/-- The coordinates of a rectangle do not come around. -/
structure Rect.Fits (r : Rect) : Prop where
  x_ge : -2 ^ 31 ≤ r.coord.x
  x_le : r.coord.x + r.width ≤ 2 ^ 32
  y_ge : -2 ^ 31 ≤ r.coord.y
  y_le : r.coord.y + r.height ≤ 2 ^ 32

/-- The points of an update. -/
def Update.area (up : Update) : Set Point :=
  {p | up.lower.x ≤ p.x ∧ p.x < up.upper.x ∧ up.lower.y ≤ p.y ∧ p.y < up.upper.y}

/-- The points of all updates. -/
def Wm.damage (wm : Wm) : Set Point := {p | ∃ k < wm.numUpdates, p ∈ (wm.updates k).area}

/-! ## The layers -/

/-- The layer of a rectangle. -/
def rectLayer (r : Rect × ℕ) : Layer Point ℕ := ⟨r.1.area, fun _ => r.2⟩

/-- The background. -/
def backgroundLayer : Layer Point ℕ := ⟨Set.univ, fun p => backgroundPixel p.x p.y⟩

/-- The contents of a window. -/
def Window.contents (window : Window) : Layer Point ℕ :=
  ⟨window.rect.area, fun p => window.pixel p.x p.y⟩

/-- A window with its decoration. Only the contents are clipped. -/
def Window.layers (s : Set Point) (window : Window) : List (Layer Point ℕ) :=
  window.contents.clip s :: window.decoration.map rectLayer

/-- The mouse cursor. -/
def Wm.cursor (wm : Wm) : Layer Point ℕ where
  area := {p | p ∈ (Rect.mk wm.mouse wm.mouseCursor.height wm.mouseCursor.width).area ∧
    wm.mouseCursor.pixel (p.x - wm.mouse.x).toNat (p.y - wm.mouse.y).toNat ≠ 0x00ff00}
  color p := wm.mouseCursor.pixel (p.x - wm.mouse.x).toNat (p.y - wm.mouse.y).toNat

/-- What is drawn, from the bottom to the top. The background and the contents of the windows are
clipped. -/
def Wm.layers (wm : Wm) (s : Set Point) : List (Layer Point ℕ) :=
  backgroundLayer.clip s :: (wm.winlist.flatMap (Window.layers s) ++
    (wm.info.statusBar.map rectLayer ++ [wm.cursor]))

section

variable {wm wm' : Wm}

theorem Redrawn.damage_eq (h : Redrawn wm wm') : wm'.damage = wm.damage := by
  rw [h]
  rfl

theorem Redrawn.cursor_eq (h : Redrawn wm wm') : wm'.cursor = wm.cursor := by
  rw [h]
  rfl

end

/-! ## The functions that draw -/

variable {wm : Wm}

theorem drawRect_paints (wm : Wm) {r : Rect × ℕ} (hr : r.1.Fits) (hcolor : Opaque r.2) :
    Paints [rectLayer r] wm (drawRect wm r.1 r.2) := by
  obtain ⟨r, color⟩ := r
  have hloop : Paints [⟨{p | ∃ y < r.height, p ∈ {p | ∃ x < r.width,
      p ∈ ({⟨int32 (x + r.coord.x), int32 (y + r.coord.y)⟩} : Set Point)}}, fun _ => color⟩] wm
      (drawRect wm r color) := by
    apply Paints.loop
    intro y _ wm' _
    apply Paints.loop
    intro x _ wm'' _
    exact drawPixel_paints wm'' hcolor
  apply hloop.congr _ fun _ _ _ => rfl
  intro p hp
  have hw := hp.width_le
  have hh := hp.height_le
  obtain ⟨hx, hx', hy, hy'⟩ := hp
  obtain ⟨h₁, h₂, h₃, h₄⟩ := hr
  dsimp only at h₁ h₂ h₃ h₄
  constructor
  · rintro ⟨y, hyr, x, hxr, hpoint⟩
    obtain ⟨hpx, hpy⟩ := mem_point_iff.mp hpoint
    have hpx := (int32_eq_iff (by omega) (by omega) hx (by omega)).mp hpx.symm
    have hpy := (int32_eq_iff (by omega) (by omega) hy (by omega)).mp hpy.symm
    refine ⟨?_, ?_, ?_, ?_⟩ <;> dsimp only <;> omega
  · rintro ⟨hpx, hpx', hpy, hpy'⟩
    dsimp only at hpx hpx' hpy hpy'
    refine ⟨(p.y - r.coord.y).toNat, by omega, (p.x - r.coord.x).toNat, by omega, ?_⟩
    rw [mem_point_iff]
    constructor
    · exact ((int32_eq_iff (by omega) (by omega) hx (by omega)).mpr (by omega)).symm
    · exact ((int32_eq_iff (by omega) (by omega) hy (by omega)).mpr (by omega)).symm

/-- Rectangles that do not come around, in colors that cover. -/
def RectsFit (rects : List (Rect × ℕ)) : Prop := ∀ r ∈ rects, r.1.Fits ∧ Opaque r.2

theorem drawRects_paints (wm : Wm) {rects : List (Rect × ℕ)} (h : RectsFit rects) :
    Paints (rects.map rectLayer) wm (drawRects wm rects) := by
  induction rects generalizing wm with
  | nil => exact .nil wm
  | cons r rects ih =>
    obtain ⟨hr, hrects⟩ := List.forall_mem_cons.mp h
    exact (drawRect_paints wm hr.1 hr.2).append (ih _ hrects)

theorem drawBackground_paints (wm : Wm) :
    Paints [backgroundLayer.clip wm.damage] wm (drawBackground wm) := by
  have hloop : Paints [⟨{p | ∃ k < wm.numUpdates, p ∈ {p | ∃ y, (wm.updates k).lower.y ≤ y ∧
      y < (wm.updates k).upper.y ∧ p ∈ {p | ∃ x, (wm.updates k).lower.x ≤ x ∧
        x < (wm.updates k).upper.x ∧ p ∈ ({⟨x, y⟩} : Set Point)}}},
      fun p => backgroundPixel p.x p.y⟩] wm (drawBackground wm) := by
    apply Paints.loop
    intro k _ wm₁ h₁
    rw [h₁.updates_eq]
    apply Paints.forRange
    intro y _ _ wm₂ _
    apply Paints.forRange
    intro x _ _ wm₃ _
    apply (drawPixel_paints wm₃ (backgroundPixel_covers x y)).congr fun _ _ => Iff.rfl
    rintro p _ rfl
    rfl
  apply hloop.congr _ fun _ _ _ => rfl
  intro p _
  constructor
  · rintro ⟨k, hk, y, hy, hy', x, hx, hx', rfl⟩
    exact ⟨trivial, k, hk, hx, hx', hy, hy'⟩
  · rintro ⟨-, k, hk, hx, hx', hy, hy'⟩
    exact ⟨k, hk, p.y, hy, hy', p.x, hx, hx', rfl⟩

/-! ## Windows -/

/-- A window as the window manager and its client promise it: with a place on the screen, with
coordinates that do not overflow, and with contents that cover. -/
structure Window.Placed (info : Info) (window : Window) : Prop where
  x_nonneg : 0 ≤ window.rect.coord.x
  x_le : window.rect.coord.x ≤ info.width
  y_nonneg : 0 ≤ window.rect.coord.y
  y_le : window.rect.coord.y ≤ info.height
  width_lt : window.rect.coord.x + window.rect.width < 2 ^ 31
  height_lt : window.rect.coord.y + window.rect.height < 2 ^ 31
  hasBuffer : window.hasBuffer = true
  contents : ∀ i < window.rect.width * window.rect.height, Opaque (window.buffer i)

variable {window : Window}

theorem rectMaxCoord_eq (h : window.Placed wm.info) :
    (rectMaxCoord wm window.rect).x =
        min (window.rect.coord.x + window.rect.width) wm.info.width ∧
      (rectMaxCoord wm window.rect).y =
        min (window.rect.coord.y + window.rect.height) wm.info.height := by
  obtain ⟨h₁, h₂, h₃, h₄, h₅, h₆, -, -⟩ := h
  rw [rectMaxCoord, normalizePoint_x, normalizePoint_y]
  dsimp only
  rw [int32_eq (by omega) (by omega), int32_eq (by omega) (by omega)]
  omega

/-- The corner of a rectangle is cut off at the edge of the screen. -/
theorem lt_rectMaxCoord_iff (h : window.Placed wm.info) (hp : wm.info.OnScreen p) :
    (p.x < (rectMaxCoord wm window.rect).x ↔
        p.x < window.rect.coord.x + window.rect.width) ∧
      (p.y < (rectMaxCoord wm window.rect).y ↔
        p.y < window.rect.coord.y + window.rect.height) := by
  obtain ⟨hx, hx', hy, hy'⟩ := hp
  obtain ⟨hmaxx, hmaxy⟩ := rectMaxCoord_eq h
  omega

/-- The pixels of the contents cover what is below them, also where the index comes around. -/
theorem Window.Placed.pixel_covers (h : window.Placed info) (hp : p ∈ window.rect.area) :
    Opaque (window.pixel p.x p.y) := by
  obtain ⟨hx, hx', hy, hy'⟩ := hp
  obtain ⟨dx, hdx⟩ := Int.eq_ofNat_of_zero_le (sub_nonneg.mpr hx)
  obtain ⟨dy, hdy⟩ := Int.eq_ofNat_of_zero_le (sub_nonneg.mpr hy)
  have hcell : dy * window.rect.width + dx < window.rect.height * window.rect.width :=
    (cell_lt_iff (by omega)).mpr (by omega)
  rw [Window.pixel, if_pos h.hasBuffer, hdx, hdy]
  apply h.contents
  have hindex : ((dy : ℤ) * window.rect.width + dx) % 2 ^ 32 =
      ((dy * window.rect.width + dx) % 2 ^ 32 : ℕ) := by norm_cast
  rw [hindex, Int.toNat_natCast, Nat.mul_comm window.rect.width]
  exact Nat.lt_of_le_of_lt (Nat.mod_le ..) hcell

theorem drawWindowUpdate_paints (wm : Wm) (h : window.Placed wm.info) (up : Update) :
    Paints [⟨window.rect.area ∩ up.area, window.contents.color⟩] wm
      (drawWindowUpdate window up wm) := by
  unfold drawWindowUpdate
  dsimp only
  split
  · apply Paints.of_forall_notMem
    rintro p hp ⟨⟨-, -, hy, hy'⟩, -, -, hup, hup'⟩
    have := (lt_rectMaxCoord_iff h hp).2
    omega
  · split
    · apply Paints.of_forall_notMem
      rintro p hp ⟨⟨hx, hx', -, -⟩, hup, hup', -, -⟩
      have := (lt_rectMaxCoord_iff h hp).1
      omega
    · have hloop {lo hi lo' hi' : ℤ} (hlo : lo = max window.rect.coord.y up.lower.y)
          (hlo' : lo' = max window.rect.coord.x up.lower.x)
          (hhi : hi = min (rectMaxCoord wm window.rect).y up.upper.y)
          (hhi' : hi' = min (rectMaxCoord wm window.rect).x up.upper.x) :
          Paints [⟨window.rect.area ∩ up.area, window.contents.color⟩] wm
            (forRange lo hi (fun y wm => forRange lo' hi' (fun x wm =>
              drawPixel wm x y (window.pixel x y)) wm) wm) := by
        obtain ⟨hmaxx, hmaxy⟩ := rectMaxCoord_eq h
        have hrange : Paints [⟨{p | ∃ y, lo ≤ y ∧ y < hi ∧ p ∈ {p | ∃ x, lo' ≤ x ∧ x < hi' ∧
            p ∈ ({⟨x, y⟩} : Set Point)}}, window.contents.color⟩] wm
            (forRange lo hi (fun y wm => forRange lo' hi' (fun x wm =>
              drawPixel wm x y (window.pixel x y)) wm) wm) := by
          apply Paints.forRange
          intro y hy hy' wm₁ _
          apply Paints.forRange
          intro x hx hx' wm₂ _
          have harea : (⟨x, y⟩ : Point) ∈ window.rect.area := by
            refine ⟨?_, ?_, ?_, ?_⟩ <;> dsimp only <;> omega
          apply (drawPixel_paints wm₂ (h.pixel_covers harea)).congr fun _ _ => Iff.rfl
          rintro p _ rfl
          rfl
        apply hrange.congr _ fun _ _ _ => rfl
        intro p hp
        have hiff := lt_rectMaxCoord_iff h hp
        constructor
        · rintro ⟨y, hy, hy', x, hx, hx', rfl⟩
          dsimp only at hiff
          refine ⟨⟨?_, ?_, ?_, ?_⟩, ?_, ?_, ?_, ?_⟩ <;> dsimp only <;> omega
        · rintro ⟨⟨hx, hx', hy, hy'⟩, hux, hux', huy, huy'⟩
          exact ⟨p.y, by omega, by omega, p.x, by omega, by omega, rfl⟩
      apply hloop
      · split <;> omega
      · split <;> omega
      · rfl
      · rfl

theorem drawWindow_paints (wm : Wm) (h : window.Placed wm.info) :
    Paints [window.contents.clip wm.damage] wm (drawWindow wm window) := by
  have hloop : Paints [⟨{p | ∃ k < wm.numUpdates, p ∈ window.rect.area ∩ (wm.updates k).area},
      window.contents.color⟩] wm (drawWindow wm window) := by
    apply Paints.loop
    intro k _ wm₁ h₁
    rw [h₁.updates_eq]
    apply drawWindowUpdate_paints
    rwa [h₁.info_eq]
  apply hloop.congr _ fun _ _ _ => rfl
  intro p _
  constructor
  · rintro ⟨k, hk, hp, hup⟩
    exact ⟨hp, k, hk, hup⟩
  · rintro ⟨hp, k, hk, hup⟩
    exact ⟨k, hk, hp, hup⟩

theorem word_eq {n : ℕ} (h : n < 2 ^ 32) : word n = n := Nat.mod_eq_of_lt h

/-- The coordinates of a decoration, which do not overflow. -/
theorem decoration_eq (hp : info.OnScreen p) (h : window.Placed info) :
    window.decoration =
      [(⟨⟨window.rect.coord.x - 3, window.rect.coord.y - 25⟩, 25, window.rect.width + 6⟩,
          windowColor),
        (⟨⟨window.rect.coord.x + 2, window.rect.coord.y - 20⟩, 15, window.rect.width / 4⟩,
          0xc0c0c0),
        (⟨⟨window.rect.coord.x - 3, window.rect.coord.y⟩, window.rect.height + 3, 3⟩, windowColor),
        (⟨⟨window.rect.coord.x + window.rect.width, window.rect.coord.y⟩,
          window.rect.height + 3, 3⟩, windowColor),
        (⟨⟨window.rect.coord.x, window.rect.coord.y + window.rect.height⟩, 3, window.rect.width⟩,
          windowColor)] := by
  have hw := hp.width_le
  have hh := hp.height_le
  obtain ⟨h₁, h₂, h₃, h₄, h₅, h₆, -, -⟩ := h
  have hx : int32 (window.rect.coord.x - (3 : ℕ)) = window.rect.coord.x - 3 :=
    int32_eq (by omega) (by omega)
  have hy : int32 (window.rect.coord.y - (25 : ℕ)) = window.rect.coord.y - 25 :=
    int32_eq (by omega) (by omega)
  have hx' : int32 (window.rect.coord.x + 5 - (3 : ℕ)) = window.rect.coord.x + 2 := by
    rw [int32_eq (by omega) (by omega)]
    omega
  have hy' : int32 (window.rect.coord.y - 20) = window.rect.coord.y - 20 :=
    int32_eq (by omega) (by omega)
  have hright : int32 (window.rect.coord.x + window.rect.width) =
      window.rect.coord.x + window.rect.width := int32_eq (by omega) (by omega)
  have hbottom : int32 (window.rect.coord.y + window.rect.height) =
      window.rect.coord.y + window.rect.height := int32_eq (by omega) (by omega)
  have hwidth : word (window.rect.width + 3 * 2) = window.rect.width + 6 := word_eq (by omega)
  have hheight : word (window.rect.height + 3) = window.rect.height + 3 := word_eq (by omega)
  unfold Window.decoration
  dsimp only [borderSize, titlebarSize]
  rw [hx, hy, hx', hy', hright, hbottom, hwidth, hheight]

theorem decoration_fits (hp : info.OnScreen p) (h : window.Placed info) :
    RectsFit window.decoration := by
  have hw := hp.width_le
  have hh := hp.height_le
  rw [decoration_eq hp h]
  obtain ⟨h₁, h₂, h₃, h₄, h₅, h₆, -, -⟩ := h
  have hwindow : Opaque windowColor := by decide
  have htext : Opaque 0xc0c0c0 := by decide
  simp only [RectsFit, List.forall_mem_cons, hwindow, htext, and_true]
  refine ⟨?_, ?_, ?_, ?_, ?_, by simp⟩ <;> constructor <;> dsimp only <;> omega

theorem statusBar_fits (hp : info.OnScreen p) : RectsFit info.statusBar := by
  have hw := hp.width_le
  have hh := hp.height_le
  have hy : int32 (info.height - 25) = info.height - 25 := int32_eq (by omega) (by omega)
  have hy' : int32 (info.height - 20) = info.height - 20 := int32_eq (by omega) (by omega)
  have hx : int32 (info.width - 65) = info.width - 65 := int32_eq (by omega) (by omega)
  have hcovers : Opaque 0xc0c0c0 ∧ Opaque 0x202020 ∧ Opaque 0x808080 := by decide
  unfold Info.statusBar
  dsimp only
  rw [hx, hy, hy']
  simp only [RectsFit, List.forall_mem_cons, hcovers, and_true]
  refine ⟨?_, ?_, ?_, ?_, by simp⟩ <;> constructor <;> dsimp only <;> omega

/-! ## A frame -/

/-- The mouse is on the screen, and its cursor is a small picture. -/
structure Wm.MouseOk (wm : Wm) : Prop where
  x_nonneg : 0 ≤ wm.mouse.x
  x_le : wm.mouse.x ≤ wm.info.width
  y_nonneg : 0 ≤ wm.mouse.y
  y_le : wm.mouse.y ≤ wm.info.height
  width_eq : wm.mouseCursor.width = 16
  height_eq : wm.mouseCursor.height = 20

theorem Redrawn.mouseOk {wm' : Wm} (h : Redrawn wm wm') (hmouse : wm.MouseOk) : wm'.MouseOk := by
  rw [h]
  obtain ⟨h₁, h₂, h₃, h₄, h₅, h₆⟩ := hmouse
  exact ⟨h₁, h₂, h₃, h₄, h₅, h₆⟩

theorem drawMouse_paints (hp : wm.info.OnScreen p) (h : wm.MouseOk) :
    Paints [wm.cursor] wm (drawMouse wm) := by
  have hw := hp.width_le
  have hh := hp.height_le
  obtain ⟨h₁, h₂, h₃, h₄, h₅, h₆⟩ := h
  have hloop : Paints [⟨{p | ∃ y < wm.mouseCursor.height, p ∈ {p | ∃ x < wm.mouseCursor.width,
      p ∈ {p : Point | p = ⟨x + wm.mouse.x, y + wm.mouse.y⟩ ∧
        wm.mouseCursor.pixel x y ≠ 0x00ff00}}}, wm.cursor.color⟩] wm (drawMouse wm) := by
    apply Paints.loop
    intro y hy wm₁ _
    apply Paints.loop
    intro x hx wm₂ _
    have hx' : int32 (x + wm.mouse.x) = x + wm.mouse.x := int32_eq (by omega) (by omega)
    have hy' : int32 (y + wm.mouse.y) = y + wm.mouse.y := int32_eq (by omega) (by omega)
    split
    · exact Paints.of_forall_notMem fun q _ hq => hq.2 ‹_›
    · rename_i hgreen
      rw [hx', hy']
      apply (drawPixel_paints wm₂ (ppmPixel_covers wm.mouseCursor x y)).congr
      · intro q _
        exact (and_iff_left hgreen).symm
      · rintro q _ rfl
        simp only [Wm.cursor, add_sub_cancel_right, Int.toNat_natCast]
  apply hloop.congr _ fun _ _ _ => rfl
  intro q _
  constructor
  · rintro ⟨y, hy, x, hx, rfl, hgreen⟩
    refine ⟨⟨?_, ?_, ?_, ?_⟩, ?_⟩
    · dsimp only
      omega
    · dsimp only
      omega
    · dsimp only
      omega
    · dsimp only
      omega
    · simpa only [add_sub_cancel_right, Int.toNat_natCast] using hgreen
  · rintro ⟨⟨hx, hx', hy, hy'⟩, hgreen⟩
    dsimp only at hx hx' hy hy'
    refine ⟨(q.y - wm.mouse.y).toNat, by omega, (q.x - wm.mouse.x).toNat, by omega, ?_, hgreen⟩
    rw [← Set.mem_singleton_iff, mem_point_iff]
    omega

/-- The windows are painted over each other, in the order of the list. -/
theorem drawWindows_paints (hp : info.OnScreen p) {windows : List Window} (hwm : wm.info = info)
    (h : ∀ window ∈ windows, window.Placed info) :
    Paints (windows.flatMap (Window.layers wm.damage)) wm (windows.foldl
      (fun wm window => drawWindowDecoration (drawWindow wm window) window) wm) := by
  induction windows generalizing wm with
  | nil => exact .nil wm
  | cons window windows ih =>
    obtain ⟨hwindow, hwindows⟩ := List.forall_mem_cons.mp h
    have hcontents := drawWindow_paints wm (hwm ▸ hwindow)
    have hlayers : Paints (window.layers wm.damage) wm
        (drawWindowDecoration (drawWindow wm window) window) :=
      hcontents.append (drawRects_paints _ (decoration_fits hp hwindow))
    have hdamage := hlayers.redrawn.damage_eq
    rw [List.flatMap_cons, List.foldl_cons]
    apply hlayers.append
    rw [← hdamage]
    exact ih (hlayers.redrawn.info_eq.trans hwm) hwindows

/-- All that a frame draws. -/
theorem draw_paints (hp : wm.info.OnScreen p) (h : ∀ window ∈ wm.winlist, window.Placed wm.info)
    (hmouse : wm.MouseOk) :
    Paints (wm.layers wm.damage) wm
      (drawMouse (drawStatusBar (drawWindows (drawBackground wm)))) := by
  have hbackground := drawBackground_paints wm
  generalize drawBackground wm = wm₁ at hbackground
  have hwindows : Paints (wm.winlist.flatMap (Window.layers wm.damage)) wm₁ (drawWindows wm₁) := by
    have hpaints := drawWindows_paints hp hbackground.redrawn.info_eq h
    rw [hbackground.redrawn.damage_eq] at hpaints
    rw [drawWindows, hbackground.redrawn.winlist_eq]
    exact hpaints
  have hredrawn₂ := hbackground.redrawn.trans hwindows.redrawn
  generalize drawWindows wm₁ = wm₂ at hwindows hredrawn₂
  have hbar : Paints (wm.info.statusBar.map rectLayer) wm₂ (drawStatusBar wm₂) := by
    rw [drawStatusBar, hredrawn₂.info_eq]
    exact drawRects_paints wm₂ (statusBar_fits hp)
  have hredrawn₃ := hredrawn₂.trans hbar.redrawn
  generalize drawStatusBar wm₂ = wm₃ at hbar hredrawn₃
  have hcursor : Paints [wm.cursor] wm₃ (drawMouse wm₃) := by
    have hpaints : Paints [wm₃.cursor] wm₃ (drawMouse wm₃) :=
      drawMouse_paints (hredrawn₃.info_eq ▸ hp) (hredrawn₃.mouseOk hmouse)
    rwa [hredrawn₃.cursor_eq] at hpaints
  exact hbackground.append (hwindows.append (hbar.append hcursor))

end C4OS.Stubbywm
