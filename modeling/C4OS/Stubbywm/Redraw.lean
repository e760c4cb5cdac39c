import C4OS.Stubbywm.Updates
import Mathlib.Data.List.Nodup

/-!
# Redrawing a part of the screen

A frame draws anew and copies to the framebuffer what is inside the noted updates (`frame_shown`).
Each step notes an update for all that it changes: the place of a window with its decoration before
and after, and that of the cursor. So the framebuffer shows, outside the updates, what a picture of
the whole state would show (`Inv`), and after a frame it shows this everywhere
(`redraw_incremental`).
-/

namespace C4OS.Stubbywm

open Foundations

variable {info : Info} {p : Point} {wm wm' wm'' : Wm} {window : Window}

/-- The picture of a state, from scratch: the background, the windows with their decorations from
the first to the last, the status bar, and the mouse cursor. -/
noncomputable def Wm.composed (wm : Wm) : Point → ℕ :=
  Layer.compose (wm.layers Set.univ) fun _ => 0

/-! ## The framebuffer -/

/-- A part of the picture in the buffer is copied to the framebuffer. -/
structure Copies (s : Set Point) (wm wm' : Wm) : Prop where
  rest : wm' = { wm with framebuffer := wm'.framebuffer }
  of_mem : ∀ p, wm.info.OnScreen p → p ∈ s → wm'.shown p = wm.picture p
  of_notMem : ∀ p, wm.info.OnScreen p → p ∉ s → wm'.shown p = wm.shown p

namespace Copies

variable {s t : Set Point}

theorem empty (wm : Wm) : Copies ∅ wm wm := ⟨rfl, fun _ _ h => h.elim, fun _ _ _ => rfl⟩

theorem info_eq (h : Copies s wm wm') : wm'.info = wm.info := by rw [h.rest]

theorem updates_eq (h : Copies s wm wm') : wm'.updates = wm.updates := by rw [h.rest]

theorem picture_eq (h : Copies s wm wm') : wm'.picture = wm.picture := by
  rw [h.rest]
  rfl

theorem union (h : Copies s wm wm') (h' : Copies t wm' wm'') : Copies (s ∪ t) wm wm'' := by
  have hscreen {p : Point} (hp : wm.info.OnScreen p) : wm'.info.OnScreen p := by
    rwa [h.info_eq]
  constructor
  · rw [h'.rest, h.rest]
  · intro p hp hst
    by_cases ht : p ∈ t
    · rw [h'.of_mem p (hscreen hp) ht, h.picture_eq]
    · rw [h'.of_notMem p (hscreen hp) ht, h.of_mem p hp (hst.resolve_right ht)]
  · intro p hp hst
    rw [Set.mem_union, not_or] at hst
    rw [h'.of_notMem p (hscreen hp) hst.2, h.of_notMem p hp hst.1]

end Copies

/-- A turn of the inner loop of `draw_framebuffer`. -/
theorem copyPixel_copies {x y : ℤ} (h : wm.info.OnScreen ⟨x, y⟩) : Copies {⟨x, y⟩} wm
    { wm with
      framebuffer := Function.update wm.framebuffer (y * wm.info.width + x).toNat
        (wm.buffer (y * wm.info.width + x).toNat) } := by
  constructor
  · rfl
  · rintro p hp rfl
    exact Function.update_self ..
  · intro p hp hne
    exact Function.update_of_ne (fun heq => hne (hp.index_inj h heq)) ..

theorem drawFramebuffer_copies (h : wm.UpdatesOk) : Copies wm.damage wm (drawFramebuffer wm) := by
  have hloop : Copies {p | ∃ k < wm.numUpdates, p ∈ {p | ∃ y, (wm.updates k).lower.y ≤ y ∧
      y < (wm.updates k).upper.y ∧ p ∈ {p | ∃ x, (wm.updates k).lower.x ≤ x ∧
        x < (wm.updates k).upper.x ∧ p ∈ ({⟨x, y⟩} : Set Point)}}} wm (drawFramebuffer wm) := by
    apply loop_union Copies.empty Copies.union
    intro k hk _ wm₁ h₁
    rw [h₁.updates_eq]
    apply forRange_union Copies.empty Copies.union
    intro y hy hy' _ wm₂ h₂
    apply forRange_union Copies.empty Copies.union
    intro x hx hx' _ wm₃ h₃
    apply copyPixel_copies
    rw [h₃.info_eq, h₂.info_eq, h₁.info_eq]
    exact h _ ⟨k, hk, hx, hx', hy, hy'⟩
  have heq : wm.damage = {p | ∃ k < wm.numUpdates, p ∈ {p | ∃ y, (wm.updates k).lower.y ≤ y ∧
      y < (wm.updates k).upper.y ∧ p ∈ {p | ∃ x, (wm.updates k).lower.x ≤ x ∧
        x < (wm.updates k).upper.x ∧ p ∈ ({⟨x, y⟩} : Set Point)}}} := by
    ext p
    constructor
    · rintro ⟨k, hk, hx, hx', hy, hy'⟩
      exact ⟨k, hk, p.y, hy, hy', p.x, hx, hx', rfl⟩
    · rintro ⟨k, hk, y, hy, hy', x, hx, hx', rfl⟩
      exact ⟨k, hk, hx, hx', hy, hy'⟩
  rwa [heq]

/-! ## What a frame shows -/

/-- Inside the clip areas, two clipped pictures are the same. -/
theorem layers_agree {s t : Set Point} (hs : p ∈ s) (ht : p ∈ t) (f g : Point → ℕ) :
    Layer.compose (wm.layers s) f p = Layer.compose (wm.layers t) g p := by
  have hclip (l : Layer Point ℕ) : Layer.AgreeAt p (l.clip s) (l.clip t) :=
    ⟨by simp [Layer.clip, hs, ht], fun _ => rfl⟩
  have hwindows : List.Forall₂ (Layer.AgreeAt p) (wm.winlist.flatMap (Window.layers s))
      (wm.winlist.flatMap (Window.layers t)) := by
    induction wm.winlist with
    | nil => exact .nil
    | cons window windows ih =>
      apply List.rel_append _ ih
      exact .cons (hclip _) (List.forall₂_same.mpr fun l _ => .refl p l)
  have hbackground {s : Set Point} (hs : p ∈ s) (f : Point → ℕ) :
      (backgroundLayer.clip s).paint f p = backgroundPixel p.x p.y :=
    Layer.paint_of_mem (l := backgroundLayer.clip s) ⟨trivial, hs⟩
  simp only [Wm.layers, Layer.compose_cons]
  apply Layer.compose_congr
  · exact List.rel_append hwindows (List.forall₂_same.mpr fun l _ => .refl p l)
  · rw [hbackground hs, hbackground ht]

section

variable (hp : wm.info.OnScreen p) (h : ∀ window ∈ wm.winlist, window.Placed wm.info)
  (hmouse : wm.MouseOk) (hupdates : wm.UpdatesOk)

include hp h hmouse hupdates

/-- The two parts of a frame. -/
theorem frame_parts : ∃ wm₁ wm₂, Paints (wm.layers wm.damage) wm wm₁ ∧ Copies wm.damage wm₁ wm₂ ∧
    frame wm = resetUpdates wm₂ := by
  have hdraw := draw_paints hp h hmouse
  refine ⟨_, _, hdraw, ?_, rfl⟩
  rw [← hdraw.redrawn.damage_eq]
  apply drawFramebuffer_copies
  rwa [Wm.UpdatesOk, hdraw.redrawn.damage_eq, hdraw.redrawn.info_eq]

/-- A frame changes the buffers and empties the list of updates. -/
theorem frame_eq : frame wm = { wm with
    buffer := (frame wm).buffer, framebuffer := (frame wm).framebuffer, numUpdates := 0 } := by
  obtain ⟨wm₁, wm₂, hdraw, hcopies, heq⟩ := frame_parts hp h hmouse hupdates
  rw [heq, hcopies.rest, hdraw.redrawn]
  rfl

/-- A frame shows the state inside the updates, and leaves the rest of the screen. -/
theorem frame_shown : (p ∈ wm.damage → (frame wm).shown p = wm.composed p) ∧
    (p ∉ wm.damage → (frame wm).shown p = wm.shown p) := by
  obtain ⟨wm₁, wm₂, hdraw, hcopies, heq⟩ := frame_parts hp h hmouse hupdates
  have hp₁ : wm₁.info.OnScreen p := by rwa [hdraw.redrawn.info_eq]
  have hshown : (frame wm).shown p = wm₂.shown p := by
    rw [heq]
    rfl
  constructor
  · intro hmem
    rw [hshown, hcopies.of_mem p hp₁ hmem, hdraw.pixel p hp]
    exact layers_agree hmem (Set.mem_univ p) _ _
  · intro hmem
    rw [hshown, hcopies.of_notMem p hp₁ hmem, hdraw.redrawn]
    rfl

end

/-! ## What a picture of the whole state depends on -/

/-- The layers of a window are at its place. -/
theorem layers_subset_box (hp : info.OnScreen p) (h : window.Placed info) {q : Point}
    (hq : q ∉ window.box) : ∀ l ∈ window.layers Set.univ, q ∉ l.area := by
  have hx := h.x_nonneg
  have hy := h.y_nonneg
  have hout {r : Rect × ℕ} (h₁ : window.rect.coord.x - 3 ≤ r.1.coord.x)
      (h₂ : r.1.coord.x + r.1.width ≤ window.rect.coord.x + window.rect.width + 3)
      (h₃ : window.rect.coord.y - 25 ≤ r.1.coord.y)
      (h₄ : r.1.coord.y + r.1.height ≤ window.rect.coord.y + window.rect.height + 3) :
      q ∉ (rectLayer r).area := by
    rintro ⟨hx, hx', hy, hy'⟩
    apply hq
    refine ⟨?_, ?_, ?_, ?_⟩ <;> omega
  rw [Window.layers, decoration_eq hp h]
  simp only [List.map_cons, List.map_nil, List.forall_mem_cons]
  refine ⟨?_, ?_, ?_, ?_, ?_, ?_, by simp⟩
  · rintro ⟨⟨hx, hx', hy, hy'⟩, -⟩
    apply hq
    refine ⟨?_, ?_, ?_, ?_⟩ <;> omega
  all_goals apply hout <;> dsimp only <;> omega

open Classical in
/-- A picture shows at a point what the windows around the point and the cursor are. -/
theorem composed_congr (hp : wm.info.OnScreen p) (hinfo : wm'.info = wm.info)
    (h : ∀ window ∈ wm.winlist, window.Placed wm.info)
    (h' : ∀ window ∈ wm'.winlist, window.Placed wm.info)
    (hwindows : wm'.winlist.filter (fun window => p ∈ window.box) =
      wm.winlist.filter fun window => p ∈ window.box)
    (hcursor : Layer.AgreeAt p wm'.cursor wm.cursor) : wm'.composed p = wm.composed p := by
  have hfilter {windows : List Window} (hplaced : ∀ window ∈ windows, window.Placed wm.info)
      (f : Point → ℕ) : Layer.compose (windows.flatMap (Window.layers Set.univ)) f p =
        Layer.compose ((windows.filter fun window => p ∈ window.box).flatMap
          (Window.layers Set.univ)) f p := by
    apply Layer.compose_flatMap_filter
    intro window hmem hout
    exact layers_subset_box hp (hplaced window hmem) (of_decide_eq_false hout)
  unfold Wm.composed Wm.layers
  simp only [Layer.compose_cons, Layer.compose_append, hinfo]
  apply Layer.AgreeAt.paint hcursor
  apply Layer.compose_congr_base
  rw [hfilter h', hwindows, hfilter h]

/-! ## The screen -/

section Info

@[simp] theorem drawPixel_info (wm : Wm) (x y : ℤ) (pixel : ℕ) :
    (drawPixel wm x y pixel).info = wm.info := by
  unfold drawPixel
  split_ifs <;> rfl

@[simp] theorem forRange_info (wm : Wm) (lo hi : ℤ) {f : ℤ → Wm → Wm}
    (h : ∀ z wm, (f z wm).info = wm.info) : (forRange lo hi f wm).info = wm.info :=
  loop_fixes fun _ => h _

theorem drawRects_info (wm : Wm) (rects : List (Rect × ℕ)) :
    (drawRects wm rects).info = wm.info := by
  induction rects generalizing wm with
  | nil => rfl
  | cons r rects ih =>
    refine (ih _).trans ?_
    exact loop_fixes fun _ _ => loop_fixes fun _ _ => drawPixel_info ..

theorem drawWindow_info (wm : Wm) (window : Window) : (drawWindow wm window).info = wm.info := by
  apply loop_fixes
  intro k wm
  unfold drawWindowUpdate
  dsimp only
  split_ifs
  all_goals try rfl
  all_goals exact forRange_info _ _ _ fun _ _ => forRange_info _ _ _ fun _ _ => drawPixel_info ..

theorem drawWindows_info (wm : Wm) : (drawWindows wm).info = wm.info := by
  unfold drawWindows
  generalize wm.winlist = windows
  induction windows generalizing wm with
  | nil => rfl
  | cons window windows ih =>
    exact (ih _).trans ((drawRects_info ..).trans (drawWindow_info ..))

theorem drawBackground_info (wm : Wm) : (drawBackground wm).info = wm.info :=
  loop_fixes fun _ _ => forRange_info _ _ _ fun _ _ => forRange_info _ _ _ fun _ _ =>
    drawPixel_info ..

theorem drawMouse_info (wm : Wm) : (drawMouse wm).info = wm.info := by
  apply loop_fixes
  intro y wm
  apply loop_fixes
  intro x wm
  split
  · rfl
  · exact drawPixel_info ..

theorem drawFramebuffer_info (wm : Wm) : (drawFramebuffer wm).info = wm.info :=
  loop_fixes fun _ _ => forRange_info _ _ _ fun _ _ => forRange_info _ _ _ fun _ _ => rfl

theorem frame_info (wm : Wm) : (frame wm).info = wm.info := by
  show (drawFramebuffer _).info = _
  rw [drawFramebuffer_info, drawMouse_info, drawStatusBar, drawRects_info, drawWindows_info,
    drawBackground_info]

theorem mouseLoop_info (ev : MouseEvent) (wm : Wm) (before after : List Window) :
    (mouseLoop ev wm before after).info = wm.info := by
  induction before generalizing after with
  | nil => rfl
  | cons node before ih =>
    unfold mouseLoop
    split_ifs
    · simp only [updateWindowRegion, updateRegion_info]
    · simp only [updateWindowRegion, updateRegion_info]
    · exact ih _
    · exact ih _

/-- No step changes the screen. -/
theorem step_info (wm : Wm) (e : Event) : (step wm e).info = wm.info := by
  cases e with
  | newWindow => simp only [step, serverHandleNewWindow, updateWindowRegion, updateRegion_info]
  | clientUpdate =>
    simp only [step, handleClientUpdate]
    split
    · rfl
    · simp only [updateWindowRegion, updateRegion_info, writeContents]
  | mouse =>
    simp only [step, handleMouse, updateMouseRegion, updateRegion_info, mouseLoop_info]
  | keyboard => rfl
  | frame => exact frame_info wm

end Info

/-! ## Runs -/

/-- What the runs promise: the numbers of the windows are different, coordinates do not overflow,
and contents have no alpha byte. -/
structure Wm.Promised (wm : Wm) : Prop where
  ids : (wm.winlist.map Window.color).Nodup
  width_lt : ∀ window ∈ wm.winlist, window.rect.coord.x + window.rect.width < 2 ^ 31
  height_lt : ∀ window ∈ wm.winlist, window.rect.coord.y + window.rect.height < 2 ^ 31
  contents : ∀ window ∈ wm.winlist, ∀ i < window.rect.width * window.rect.height,
    Opaque (window.buffer i)

/-- The states of the event loop. The windows that are there at its beginning have been created and
not moved. -/
inductive Reaches : Wm → Prop
  | start (wm : Wm) (hmouse : wm.mouse = ⟨0, 0⟩)
      (hcursor : ∃ pixbuf, wm.mouseCursor = cursorDefault pixbuf)
      (hwindows : ∀ window ∈ wm.winlist, window.rect.coord = ⟨0, 0⟩ ∧ window.hasBuffer = true)
      (hp : wm.Promised) : Reaches (eventLoopStart wm)
  | step {wm : Wm} (h : Reaches wm) (e : Event) (hp : (step wm e).Promised) : Reaches (step wm e)

/-- Outside the updates, the framebuffer shows the state. -/
structure Inv (wm : Wm) : Prop where
  placed : ∀ window ∈ wm.winlist, window.Placed wm.info
  mouse : wm.MouseOk
  num_lt : wm.numUpdates < maxUpdates
  updatesOk : wm.UpdatesOk
  shown : ∀ p, wm.info.OnScreen p → p ∉ wm.damage → wm.shown p = wm.composed p

theorem Wm.Promised.congr (h : wm.Promised) (heq : wm'.winlist = wm.winlist) : wm'.Promised := by
  obtain ⟨h₁, h₂, h₃, h₄⟩ := h
  rw [← heq] at h₁ h₂ h₃ h₄
  exact ⟨h₁, h₂, h₃, h₄⟩

/-- A window on the screen keeps the promises. -/
theorem Wm.Promised.placed (h : wm.Promised) (hmem : window ∈ wm.winlist)
    (hx : 0 ≤ window.rect.coord.x ∧ window.rect.coord.x ≤ info.width)
    (hy : 0 ≤ window.rect.coord.y ∧ window.rect.coord.y ≤ info.height)
    (hbuffer : window.hasBuffer = true) : window.Placed info :=
  ⟨hx.1, hx.2, hy.1, hy.2, h.width_lt window hmem, h.height_lt window hmem, hbuffer,
    h.contents window hmem⟩

section Steps

variable {s : Set Point} {wm₁ : Wm}

/-- A change of the state, with an update that covers what it changes outside the updates. -/
theorem Inv.change (h : Inv wm) (hn : Notes s wm₁ wm') (hinfo : wm₁.info = wm.info)
    (hdamage : wm₁.damage = wm.damage) (hshown : wm₁.shown = wm.shown)
    (hplaced : ∀ window ∈ wm₁.winlist, window.Placed wm.info) (hmouse : wm₁.MouseOk)
    (hcomposed : ∀ p, wm.info.OnScreen p → p ∉ wm.damage → p ∉ s →
      wm₁.composed p = wm.composed p) : Inv wm' := by
  have hinfo' : wm'.info = wm.info := hn.info_eq.trans hinfo
  constructor
  · rw [hn.winlist_eq, hinfo']
    exact hplaced
  · rw [hn.rest]
    obtain ⟨h₁, h₂, h₃, h₄, h₅, h₆⟩ := hmouse
    exact ⟨h₁, h₂, h₃, h₄, h₅, h₆⟩
  · exact hn.num_lt
  · apply hn.updatesOk
    rw [Wm.UpdatesOk, hdamage, hinfo]
    exact h.updatesOk
  · intro p hp hout
    rw [hinfo'] at hp
    have hp₁ : wm₁.info.OnScreen p := by rwa [hinfo]
    have hold : p ∉ wm.damage := fun hmem => hout (hn.old p hp₁ (by rwa [hdamage]))
    have hnew : p ∉ s := fun hmem => hout (hn.new p hp₁ hmem)
    calc wm'.shown p = wm.shown p := by rw [hn.shown_eq, hshown]
      _ = wm.composed p := h.shown p hp hold
      _ = wm₁.composed p := (hcomposed p hp hold hnew).symm
      _ = wm'.composed p := by
        rw [hn.rest]
        rfl

/-- An update alone. -/
theorem Inv.notes (h : Inv wm) (hn : Notes s wm wm') : Inv wm' :=
  h.change hn rfl rfl rfl h.placed h.mouse fun _ _ _ _ => rfl

open Classical in
/-- A change of the windows, with an update that covers what it changes outside the updates. -/
theorem Inv.change_windows (h : Inv wm) {windows : List Window}
    (hn : Notes s { wm with winlist := windows } wm')
    (hplaced : ∀ window ∈ windows, window.Placed wm.info)
    (hfilter : ∀ p, wm.info.OnScreen p → p ∉ wm.damage → p ∉ s →
      windows.filter (fun window => p ∈ window.box) =
        wm.winlist.filter fun window => p ∈ window.box) : Inv wm' := by
  apply h.change hn rfl rfl rfl hplaced
  · obtain ⟨h₁, h₂, h₃, h₄, h₅, h₆⟩ := h.mouse
    exact ⟨h₁, h₂, h₃, h₄, h₅, h₆⟩
  · intro p hp hold hnew
    exact composed_congr hp rfl h.placed hplaced (hfilter p hp hold hnew) (.refl p _)

/-- A new window. -/
theorem Inv.newWindow (h : Inv wm) {width height color : ℕ} {buffer : ℕ → ℕ}
    (hp : (serverHandleNewWindow wm width height color buffer).Promised) :
    Inv (serverHandleNewWindow wm width height color buffer) := by
  unfold serverHandleNewWindow at hp ⊢
  generalize hwin : ({ windowCreate width height color with buffer, hasBuffer := true } : Window) =
    newwin at hp ⊢
  have hnum : ({ wm with winlist := wm.winlist ++ [newwin] } : Wm).numUpdates < maxUpdates :=
    h.num_lt
  have hmem : newwin ∈ (updateWindowRegion { wm with winlist := wm.winlist ++ [newwin] }
      newwin).winlist := by
    rw [updateWindowRegion, updateRegion_winlist]
    exact List.mem_append_right _ (List.mem_singleton_self newwin)
  have hplaced : newwin.Placed wm.info := by
    apply hp.placed hmem
    · rw [← hwin]
      exact ⟨le_refl 0, Int.natCast_nonneg _⟩
    · rw [← hwin]
      exact ⟨le_refl 0, Int.natCast_nonneg _⟩
    · rw [← hwin]
  apply h.change_windows (updateWindowRegion_notes hnum hplaced)
  · intro window hwindow
    rcases List.mem_append.mp hwindow with hwindow | hwindow
    · exact h.placed window hwindow
    · rwa [List.mem_singleton.mp hwindow]
  · intro p _ _ hout
    rw [List.filter_append, List.filter_cons_of_neg (by simpa using hout), List.filter_nil,
      List.append_nil]

/-- A window with other contents, if it has the number. -/
def Window.write (id : ℕ) (buffer : ℕ → ℕ) (window : Window) : Window :=
  if id = window.color then { window with buffer := buffer } else window

section Write

variable (id : ℕ) (buffer : ℕ → ℕ) (window : Window)

@[simp] theorem Window.write_color : (window.write id buffer).color = window.color := by
  unfold Window.write
  split <;> rfl

@[simp] theorem Window.write_rect : (window.write id buffer).rect = window.rect := by
  unfold Window.write
  split <;> rfl

@[simp] theorem Window.write_hasBuffer :
    (window.write id buffer).hasBuffer = window.hasBuffer := by
  unfold Window.write
  split <;> rfl

@[simp] theorem Window.write_box : (window.write id buffer).box = window.box := by
  simp only [Window.box, Window.write_rect]

end Write

open Classical in
/-- The contents of one window change. -/
theorem Inv.clientUpdate (h : Inv wm) {id : ℕ} {buffer : ℕ → ℕ}
    (hp : (step wm (.clientUpdate id buffer)).Promised) :
    Inv (step wm (.clientUpdate id buffer)) := by
  have hnum : (writeContents wm id buffer).numUpdates < maxUpdates := h.num_lt
  have hlist : (writeContents wm id buffer).winlist = wm.winlist.map (Window.write id buffer) := rfl
  simp only [step, handleClientUpdate] at hp ⊢
  cases hfind : findClient (writeContents wm id buffer) id with
  | none =>
    -- no window has the number, so that no contents change
    have hne (window : Window) (hmem : window ∈ wm.winlist) : window.write id buffer = window := by
      have hcolor := List.find?_eq_none.mp hfind _ (hlist ▸ List.mem_map_of_mem hmem)
      rw [Window.write_color, decide_eq_true_eq] at hcolor
      exact if_neg hcolor
    have heq : writeContents wm id buffer = wm := by
      have hmap := List.map_congr_left hne
      rw [List.map_id'] at hmap
      rw [writeContents]
      exact congrArg (fun windows => { wm with winlist := windows }) hmap
    rwa [heq]
  | some window =>
    rw [hfind] at hp
    have hpromised : (writeContents wm id buffer).Promised :=
      hp.congr (updateRegion_winlist ..).symm
    have hmem : window ∈ (writeContents wm id buffer).winlist := List.mem_of_find?_eq_some hfind
    have hid : id = window.color := by simpa using List.find?_some hfind
    have hplaced : ∀ window ∈ (writeContents wm id buffer).winlist, window.Placed wm.info := by
      intro window' hmem'
      obtain ⟨old, hold, rfl⟩ := List.mem_map.mp (hlist ▸ hmem')
      have hplaced := h.placed old hold
      apply hpromised.placed hmem'
      · rw [Window.write_rect]
        exact ⟨hplaced.x_nonneg, hplaced.x_le⟩
      · rw [Window.write_rect]
        exact ⟨hplaced.y_nonneg, hplaced.y_le⟩
      · rw [Window.write_hasBuffer]
        exact hplaced.hasBuffer
    apply h.change_windows (updateWindowRegion_notes hnum (hplaced window hmem)) hplaced
    intro p _ _ hout
    -- a window that changes has the number, and so it is the one that is not at the point
    have hsame (old : Window) (hold : old ∈ wm.winlist.filter fun window => p ∈ window.box) :
        old.write id buffer = old := by
      obtain ⟨hold, hbox⟩ := List.mem_filter.mp hold
      apply if_neg
      intro hcolor
      have heq : old.write id buffer = window := by
        apply List.inj_on_of_nodup_map hpromised.ids (hlist ▸ List.mem_map_of_mem hold) hmem
        rw [Window.write_color, ← hcolor, hid]
      apply hout
      rw [← heq, Window.write_box]
      simpa using hbox
    have hcomp : (fun window : Window => decide (p ∈ window.box)) ∘ Window.write id buffer =
        fun window => decide (p ∈ window.box) := by
      funext window
      rw [Function.comp_apply, Window.write_box]
    show (wm.winlist.map (Window.write id buffer)).filter _ = _
    rw [List.filter_map, hcomp, List.map_congr_left hsame, List.map_id']

/-- A later state, with the same mouse, that has lost no update. -/
structure Continues (wm wm' : Wm) : Prop where
  info_eq : wm'.info = wm.info
  mouse_eq : wm'.mouse = wm.mouse
  mouseCursor_eq : wm'.mouseCursor = wm.mouseCursor
  old : ∀ p, wm.info.OnScreen p → p ∈ wm.damage → p ∈ wm'.damage

theorem Notes.continues (h : Notes s wm wm') : Continues wm wm' :=
  ⟨h.info_eq, h.mouse_eq, h.mouseCursor_eq, h.old⟩

theorem Continues.trans (h : Continues wm wm') (h' : Continues wm' wm'') : Continues wm wm'' := by
  constructor
  · exact h'.info_eq.trans h.info_eq
  · exact h'.mouse_eq.trans h.mouse_eq
  · exact h'.mouseCursor_eq.trans h.mouseCursor_eq
  · intro p hp hmem
    exact h'.old p (by rwa [h.info_eq]) (h.old p hp hmem)

/-- A window is put at another place of the list or of the screen. -/
theorem Inv.replace (h : Inv wm) {windows : List Window} {node node' : Window}
    (hnode : node ∈ wm.winlist) (hplaced : ∀ window ∈ windows, window.Placed wm.info)
    (hnode' : node' ∈ windows)
    (hfilter : ∀ q : Window → Bool, q node = false → q node' = false →
      windows.filter q = wm.winlist.filter q) :
    Inv (updateWindowRegion { updateWindowRegion wm node with winlist := windows } node') ∧
      Continues wm
        (updateWindowRegion { updateWindowRegion wm node with winlist := windows } node') := by
  have hn₁ := updateWindowRegion_notes h.num_lt (h.placed node hnode)
  generalize updateWindowRegion wm node = wm₁ at hn₁ ⊢
  have h₁ := h.notes hn₁
  have hnum : ({ wm₁ with winlist := windows } : Wm).numUpdates < maxUpdates := h₁.num_lt
  have hplaced₁ : ∀ window ∈ windows, window.Placed wm₁.info := by rwa [hn₁.info_eq]
  have hn₂ := updateWindowRegion_notes hnum (hplaced₁ node' hnode')
  have hcontinues : Continues wm₁ { wm₁ with winlist := windows } :=
    ⟨rfl, rfl, rfl, fun _ _ hp => hp⟩
  constructor
  · classical
    apply h₁.change_windows hn₂ hplaced₁
    intro p hp hold hnew
    rw [hn₁.winlist_eq]
    apply hfilter
    · exact decide_eq_false fun hbox => hold (hn₁.new p (hn₁.info_eq ▸ hp) hbox)
    · exact decide_eq_false hnew
  · exact (hn₁.continues.trans hcontinues).trans hn₂.continues

/-- A window is moved. -/
theorem Inv.move (h : Inv wm) {before after : List Window} {node : Window} {pt : Point}
    (hlist : wm.winlist = before ++ node :: after) (hx : 0 ≤ pt.x ∧ pt.x ≤ wm.info.width)
    (hy : 0 ≤ pt.y ∧ pt.y ≤ wm.info.height) {wm₂ : Wm}
    (hwm₂ : wm₂ = { updateWindowRegion wm node with
      winlist := before ++ { node with rect.coord := pt } :: after })
    (hp : (updateWindowRegion wm₂ { node with rect.coord := pt }).Promised) :
    Inv (updateWindowRegion wm₂ { node with rect.coord := pt }) ∧
      Continues wm (updateWindowRegion wm₂ { node with rect.coord := pt }) := by
  have hnode : node ∈ wm.winlist := by
    rw [hlist]
    exact List.mem_append_right _ List.mem_cons_self
  have hpromised : wm₂.Promised := hp.congr (updateRegion_winlist ..).symm
  subst hwm₂
  apply h.replace hnode
  · intro window hwindow
    rcases List.mem_append.mp hwindow with hmem | hmem
    · apply h.placed window
      rw [hlist]
      exact List.mem_append_left _ hmem
    · rcases List.mem_cons.mp hmem with rfl | hmem
      · exact hpromised.placed hwindow hx hy (h.placed node hnode).hasBuffer
      · apply h.placed window
        rw [hlist]
        exact List.mem_append_right _ (List.mem_cons_of_mem _ hmem)
  · exact List.mem_append_right _ List.mem_cons_self
  · intro q hq hq'
    rw [hlist]
    simp [List.filter_append, hq, hq']

/-- The mouse raises or moves a window, or does neither. -/
theorem Inv.mouseLoop {ev : MouseEvent} {before after : List Window} (h : Inv wm)
    (hlist : wm.winlist = before.reverse ++ after)
    (hp : (mouseLoop ev wm before after).Promised) :
    Inv (mouseLoop ev wm before after) ∧ Continues wm (mouseLoop ev wm before after) := by
  induction before generalizing after with
  | nil => exact ⟨h, rfl, rfl, rfl, fun _ _ hp => hp⟩
  | cons node before ih =>
    have hlist' : wm.winlist = before.reverse ++ node :: after := by
      rw [hlist, List.reverse_cons, List.append_assoc, List.singleton_append]
    have hnode : node ∈ wm.winlist := by
      rw [hlist']
      exact List.mem_append_right _ List.mem_cons_self
    have hinfo : (updateWindowRegion wm node).info = wm.info :=
      (updateWindowRegion_notes h.num_lt (h.placed node hnode)).info_eq
    unfold Stubbywm.mouseLoop at hp ⊢
    split
    · rename_i hover
      rw [if_pos hover] at hp
      split
      · -- the left button raises the window
        rename_i hleft
        apply h.replace hnode
        · intro window hwindow
          apply h.placed window
          rw [hlist']
          simp only [List.mem_append, List.mem_cons] at hwindow ⊢
          tauto
        · exact List.mem_append_right _ (List.mem_singleton_self node)
        · intro q hq _
          rw [hlist']
          simp [List.filter_append, hq]
      · rename_i hleft
        rw [if_neg hleft] at hp
        split
        · -- the right button moves it
          rename_i hright
          rw [if_pos hright] at hp
          apply h.move hlist' _ _ rfl hp
          · rw [normalizePoint_x, hinfo]
            omega
          · rw [normalizePoint_y, hinfo]
            omega
        · rename_i hright
          rw [if_neg hright] at hp
          exact ih hlist' hp
    · rename_i hover
      rw [if_neg hover] at hp
      exact ih hlist' hp

/-- A mouse event. -/
theorem Inv.handleMouse (h : Inv wm) {ev : MouseEvent} (hp : (handleMouse wm ev).Promised) :
    Inv (handleMouse wm ev) := by
  unfold Stubbywm.handleMouse at hp ⊢
  have hn₁ := updateMouseRegion_notes h.num_lt h.mouse
  have hcursor : ∀ p, wm.info.OnScreen p → p ∈ wm.cursor.area → p ∈ (updateMouseRegion wm).damage :=
    hn₁.new
  have hwm₁ := hn₁.continues
  generalize updateMouseRegion wm = wm₁ at hn₁ hcursor hwm₁ hp ⊢
  have h₁ := h.notes hn₁
  dsimp only at hp ⊢
  have hlist : wm₁.winlist = wm₁.winlist.reverse.reverse ++ [] := by simp
  have hpromised : (Stubbywm.mouseLoop ev wm₁ wm₁.winlist.reverse []).Promised := by
    apply hp.congr
    rw [updateMouseRegion, updateRegion_winlist]
  obtain ⟨h₂, hwm₂⟩ := h₁.mouseLoop hlist hpromised
  generalize Stubbywm.mouseLoop ev wm₁ wm₁.winlist.reverse [] = wm₂ at h₂ hwm₂ ⊢
  have hcontinues := hwm₁.trans hwm₂
  generalize hmouse : normalizePoint wm₂ _ = mouse
  have hmouseOk : ({ wm₂ with mouse := mouse } : Wm).MouseOk := by
    obtain ⟨-, -, -, -, hwidth, hheight⟩ := h₂.mouse
    refine ⟨?_, ?_, ?_, ?_, hwidth, hheight⟩ <;> rw [← hmouse] <;>
      simp only [normalizePoint_x, normalizePoint_y] <;> omega
  have hnum : ({ wm₂ with mouse := mouse } : Wm).numUpdates < maxUpdates := h₂.num_lt
  apply h₂.change (updateMouseRegion_notes hnum hmouseOk) rfl rfl rfl h₂.placed hmouseOk
  intro p hp hold hnew
  -- neither the old cursor nor the new one is at the point
  refine composed_congr hp rfl h₂.placed h₂.placed rfl (.of_notMem hnew ?_)
  intro hmem
  rw [hcontinues.info_eq] at hp
  have hcursor₂ : wm₂.cursor = wm.cursor := by
    simp only [Wm.cursor, hcontinues.mouse_eq, hcontinues.mouseCursor_eq]
  rw [hcursor₂] at hmem
  exact hold (hwm₂.old p (by rwa [hwm₁.info_eq]) (hcursor p hp hmem))

/-- A frame. -/
theorem Inv.frame {q : Point} (h : Inv wm) (hq : wm.info.OnScreen q) : Inv (frame wm) ∧
    ∀ p, wm.info.OnScreen p → (frame wm).shown p = (frame wm).composed p := by
  have heq := frame_eq hq h.placed h.mouse h.updatesOk
  have hinfo : (Stubbywm.frame wm).info = wm.info := by rw [heq]
  have hcomposed : (Stubbywm.frame wm).composed = wm.composed := by
    rw [heq]
    rfl
  have hdamage (p : Point) : p ∉ (Stubbywm.frame wm).damage := by
    rintro ⟨k, hk, -⟩
    rw [heq] at hk
    exact Nat.not_lt_zero k hk
  have hshown : ∀ p, wm.info.OnScreen p →
      (Stubbywm.frame wm).shown p = (Stubbywm.frame wm).composed p := by
    intro p hp
    obtain ⟨hin, hout⟩ := frame_shown hp h.placed h.mouse h.updatesOk
    rw [hcomposed]
    by_cases hmem : p ∈ wm.damage
    · exact hin hmem
    · rw [hout hmem, h.shown p hp hmem]
  refine ⟨⟨?_, ?_, ?_, ?_, ?_⟩, hshown⟩
  · rw [heq]
    exact h.placed
  · rw [heq]
    obtain ⟨h₁, h₂, h₃, h₄, h₅, h₆⟩ := h.mouse
    exact ⟨h₁, h₂, h₃, h₄, h₅, h₆⟩
  · rw [heq]
    exact Nat.lt_of_le_of_lt (Nat.zero_le _) h.num_lt
  · exact fun p hp => absurd hp (hdamage p)
  · rw [hinfo]
    exact fun p hp _ => hshown p hp

/-- Each step keeps the framebuffer right outside the updates. -/
theorem Inv.step {q : Point} (h : Inv wm) (hq : wm.info.OnScreen q) {e : Event}
    (hp : (step wm e).Promised) : Inv (step wm e) := by
  cases e with
  | newWindow width height color buffer => exact h.newWindow hp
  | clientUpdate id buffer => exact h.clientUpdate hp
  | mouse ev => exact h.handleMouse hp
  | keyboard => exact h
  | frame => exact (h.frame hq).1

end Steps

/-- In each state of a run, the framebuffer is right outside the updates, if there are points at
all. -/
theorem Reaches.inv (h : Reaches wm) (hp : wm.info.OnScreen p) : Inv wm := by
  induction h with
  | start wm hmouse hcursor hwindows hpromised =>
    obtain ⟨pixbuf, hcursor⟩ := hcursor
    have hdamage (p : Point) : p ∈ (eventLoopStart wm).damage ↔ wm.info.OnScreen p :=
      mem_damage_eventLoopStart_iff
    rw [eventLoopStart_eq] at hp hdamage ⊢
    constructor
    · intro window hmem
      obtain ⟨hcoord, hbuffer⟩ := hwindows window hmem
      apply hpromised.placed hmem
      · rw [hcoord]
        exact ⟨le_refl 0, Int.natCast_nonneg _⟩
      · rw [hcoord]
        exact ⟨le_refl 0, Int.natCast_nonneg _⟩
      · exact hbuffer
    · refine ⟨?_, ?_, ?_, ?_, ?_, ?_⟩ <;> dsimp only
      · rw [hmouse]
      · rw [hmouse]
        exact Int.natCast_nonneg _
      · rw [hmouse]
      · rw [hmouse]
        exact Int.natCast_nonneg _
      · rw [hcursor]
        rfl
      · rw [hcursor]
        rfl
    · show 1 < 128
      decide
    · exact fun p hp => (hdamage p).mp hp
    · exact fun p hp hout => absurd ((hdamage p).mpr hp) hout
  | step h e hpromised ih =>
    rw [step_info] at hp
    exact (ih hp).step hp hpromised

/-- A frame that begins with an update of the whole screen composes the state from scratch. -/
theorem frame_eventLoopStart_shown (h : Inv wm) (hp : wm.info.OnScreen p) :
    (frame (eventLoopStart wm)).shown p = wm.composed p := by
  have hdamage (p : Point) : p ∈ (eventLoopStart wm).damage ↔ wm.info.OnScreen p :=
    mem_damage_eventLoopStart_iff
  have hcomposed : (eventLoopStart wm).composed = wm.composed := by
    rw [eventLoopStart_eq]
    rfl
  rw [← hcomposed]
  rw [eventLoopStart_eq] at hdamage ⊢
  obtain ⟨h₁, h₂, h₃, h₄, h₅, h₆⟩ := h.mouse
  refine (frame_shown ?_ ?_ ?_ ?_).1 ((hdamage p).mpr hp)
  · exact hp
  · exact h.placed
  · exact ⟨h₁, h₂, h₃, h₄, h₅, h₆⟩
  · exact fun p hp => (hdamage p).mp hp

/-- **Incremental redraw equals full redraw.** In every run of the event loop, after each frame the
framebuffer shows the picture that is composed of the whole state from scratch, which is also what
it would show if the frame drew the whole screen. -/
theorem redraw_incremental (h : Reaches wm) : ∀ p, wm.info.OnScreen p →
    (step wm .frame).shown p = (step wm .frame).composed p ∧
      (step wm .frame).shown p = (frame (eventLoopStart wm)).shown p := by
  intro p hp
  have hinv := h.inv hp
  have hshown := (hinv.frame hp).2 p hp
  have hcomposed : (frame wm).composed = wm.composed := by
    rw [frame_eq hp hinv.placed hinv.mouse hinv.updatesOk]
    rfl
  constructor
  · exact hshown
  · rw [frame_eventLoopStart_shown hinv hp, ← hcomposed]
    exact hshown

/-- A screen of four by three pixels. -/
def smallScreen : Wm where
  winlist := []
  mouse := ⟨0, 0⟩
  mouseCursor := cursorDefault fun _ => 0
  updates := fun _ => ⟨⟨0, 0⟩, ⟨0, 0⟩⟩
  numUpdates := 0
  buffer := fun _ => 0
  framebuffer := fun _ => 0
  info := ⟨4, 3, by decide⟩

/-- A frame after a new window. -/
theorem redraw_incremental_newWindow : ∃ wm, Reaches wm ∧ wm.winlist.length = 1 ∧
    (step wm .frame).shown ⟨1, 1⟩ = (step wm .frame).composed ⟨1, 1⟩ := by
  have h₀ : Reaches (eventLoopStart smallScreen) :=
    .start _ rfl ⟨_, rfl⟩ (by simp [smallScreen]) (by constructor <;> simp [smallScreen])
  have h₁ := h₀.step (.newWindow 1 1 7 fun _ => 0xff) (by
    constructor
    · decide
    · intro window hmem
      obtain rfl := List.eq_of_mem_singleton hmem
      decide
    · intro window hmem
      obtain rfl := List.eq_of_mem_singleton hmem
      decide
    · intro window hmem i _
      obtain rfl := List.eq_of_mem_singleton hmem
      exact show Opaque 0xff by decide)
  exact ⟨_, h₁, rfl, (redraw_incremental h₁ ⟨1, 1⟩ ⟨by decide, by decide, by decide, by decide⟩).1⟩

end C4OS.Stubbywm
