import C4OS.Peripherals.Model
import C4OS.Stubbywm.Updates
import Mathlib.Data.List.Dedup
import Mathlib.Data.List.Induction

/-!
# The order of the windows

The function `handle_keyboard` of `main.c`, and what the order of the list means over whole runs. A
window is activated when it is opened, and when it is the topmost one under the mouse at a left
click. The list of windows is that of the activations, where only the last one of each window is
left (`stacking_order`). So a key goes to the window that was activated last, and no movement, no
update and no frame changes that.
-/

namespace C4OS.Stubbywm

open Foundations Peripherals

/-- `STUBBYWM_KEYBOARD_EVENT`. -/
abbrev stubbywmKeyboardEvent : ℕ := 0xdabad07

/-- `handle_keyboard`, with the window that gets the message. -/
def handleKeyboard (wm : Wm) (ev : KeyboardEvent) : Option (Window × Message) :=
  match wm.winlist.getLast? with
  | none => none
  | some window =>
    if !window.hasBuffer then none
    else some (window,
      { type := .other stubbywmKeyboardEvent
        data := [ev.character, ev.modifiers, ev.scancode, ev.event] })

/-- The windows by their numbers, from the first to the last. -/
def Wm.numbers (wm : Wm) : List ℕ := wm.winlist.map Window.color

/-- The topmost window under the mouse. -/
def Wm.underMouse (wm : Wm) : Option Window := wm.winlist.reverse.find? (mouseOver wm)

/-- The number of the window that a step activates. -/
def activated (wm : Wm) : Event → Option ℕ
  | .newWindow _ _ color _ => some color
  | .mouse ev => if ev.flags &&& mouseFlagLeft ≠ 0 then wm.underMouse.map Window.color else none
  | _ => none

/-- The state after some steps. -/
def afterSteps (wm : Wm) (es : List Event) : Wm := es.foldl step wm

/-- The numbers of the windows that the steps activate, one after the other. -/
def activations : Wm → List Event → List ℕ
  | _, [] => []
  | wm, e :: es => (activated wm e).toList ++ activations (step wm e) es

/-- The numbers of the windows that the steps open. -/
def opened : List Event → List ℕ
  | [] => []
  | .newWindow _ _ color _ :: es => color :: opened es
  | _ :: es => opened es

/-- A number comes to the end of a list. -/
def raise : Option ℕ → List ℕ → List ℕ
  | none, l => l
  | some c, l => l.erase c ++ [c]

theorem raise_concat (c : ℕ) {before after : List ℕ} (h : (before ++ c :: after).Nodup) :
    raise (some c) (before ++ c :: after) = before ++ after ++ [c] := by
  have hnot : c ∉ before := fun hmem =>
    List.disjoint_of_nodup_append h hmem (.head _)
  rw [raise, List.erase_append_right _ hnot, List.erase_cons_head]

theorem raise_new {c : ℕ} {l : List ℕ} (h : c ∉ l) : raise (some c) l = l ++ [c] := by
  rw [raise, List.erase_of_not_mem h]

/-- Where only the last one of each number is left, a new last one comes to the end. -/
theorem dedup_append_toList (l : List ℕ) (c : Option ℕ) :
    (l ++ c.toList).dedup = raise c l.dedup := by
  cases c with
  | none => rw [Option.toList_none, List.append_nil, raise]
  | some c =>
    rw [Option.toList_some, raise]
    induction l with
    | nil => rfl
    | cons a l ih =>
      rw [List.cons_append]
      by_cases hmem : a ∈ l
      · rw [List.dedup_cons_of_mem (List.mem_append_left _ hmem), ih, List.dedup_cons_of_mem hmem]
      · rw [List.dedup_cons_of_notMem hmem]
        by_cases hac : a = c
        · subst hac
          have hmem' : a ∉ l.dedup := by rwa [List.mem_dedup]
          rw [List.dedup_cons_of_mem (List.mem_append_right _ (.head _)), ih,
            List.erase_cons_head, List.erase_of_not_mem hmem']
        · have hmem' : a ∉ l ++ [c] := by simp [hmem, hac]
          rw [List.dedup_cons_of_notMem hmem', ih, List.erase_cons_tail (by simpa using hac),
            List.cons_append]

/-! ## A frame changes no window -/

section Frame

variable {τ : Type*} {g : Wm → τ}

theorem drawPixel_keeps (hbuffer : ∀ wm buffer, g { wm with buffer := buffer } = g wm) (wm : Wm)
    (x y : ℤ) (pixel : ℕ) : g (drawPixel wm x y pixel) = g wm := by
  unfold drawPixel
  split_ifs
  · rfl
  · rfl
  · exact hbuffer ..

theorem forRange_keeps {f : ℤ → Wm → Wm} (h : ∀ z wm, g (f z wm) = g wm) (wm : Wm) (lo hi : ℤ) :
    g (forRange lo hi f wm) = g wm :=
  loop_fixes fun _ => h _

theorem drawRects_keeps (hbuffer : ∀ wm buffer, g { wm with buffer := buffer } = g wm) (wm : Wm)
    (rects : List (Rect × ℕ)) : g (drawRects wm rects) = g wm := by
  induction rects generalizing wm with
  | nil => rfl
  | cons r rects ih =>
    refine (ih _).trans ?_
    exact loop_fixes fun _ _ => loop_fixes fun _ _ => drawPixel_keeps hbuffer ..

theorem drawWindow_keeps (hbuffer : ∀ wm buffer, g { wm with buffer := buffer } = g wm) (wm : Wm)
    (window : Window) : g (drawWindow wm window) = g wm := by
  apply loop_fixes
  intro k wm
  unfold drawWindowUpdate
  dsimp only
  split_ifs
  · rfl
  · rfl
  all_goals
    exact forRange_keeps (fun _ _ => forRange_keeps (fun _ _ => drawPixel_keeps hbuffer ..) ..) ..

theorem drawWindows_keeps (hbuffer : ∀ wm buffer, g { wm with buffer := buffer } = g wm)
    (wm : Wm) : g (drawWindows wm) = g wm := by
  unfold drawWindows
  generalize wm.winlist = windows
  induction windows generalizing wm with
  | nil => rfl
  | cons window windows ih =>
    exact (ih _).trans ((drawRects_keeps hbuffer ..).trans (drawWindow_keeps hbuffer ..))

/-- A frame writes into the two buffers, and it sets the number of updates. -/
theorem frame_keeps (hbuffer : ∀ wm buffer, g { wm with buffer := buffer } = g wm)
    (hframebuffer : ∀ wm framebuffer, g { wm with framebuffer := framebuffer } = g wm)
    (hnum : ∀ wm n, g { wm with numUpdates := n } = g wm) (wm : Wm) : g (frame wm) = g wm := by
  have hbackground : g (drawBackground wm) = g wm :=
    loop_fixes fun _ _ =>
      forRange_keeps (fun _ _ => forRange_keeps (fun _ _ => drawPixel_keeps hbuffer ..) ..) ..
  have hmouse (wm : Wm) : g (drawMouse wm) = g wm := by
    apply loop_fixes
    intro y wm
    apply loop_fixes
    intro x wm
    split
    · rfl
    · exact drawPixel_keeps hbuffer ..
  have hdraw (wm : Wm) : g (drawFramebuffer wm) = g wm :=
    loop_fixes fun _ _ =>
      forRange_keeps (fun _ _ => forRange_keeps (fun _ _ => hframebuffer ..) ..) ..
  rw [frame, resetUpdates, hnum, hdraw, hmouse, drawStatusBar, drawRects_keeps hbuffer,
    drawWindows_keeps hbuffer, hbackground]

end Frame

/-! ## Steps -/

section Steps

variable {wm : Wm} {before after : List Window} {node : Window}

theorem updateWindowRegion_winlist (wm : Wm) (window : Window) :
    (updateWindowRegion wm window).winlist = wm.winlist := updateRegion_winlist ..

theorem updateMouseRegion_winlist (wm : Wm) : (updateMouseRegion wm).winlist = wm.winlist :=
  updateRegion_winlist ..

/-- The updates do not matter for what is under the mouse. -/
theorem mouseOver_updateMouseRegion (wm : Wm) :
    mouseOver (updateMouseRegion wm) = mouseOver wm := by
  have hrest : updateMouseRegion wm = { wm with
      updates := (updateMouseRegion wm).updates
      numUpdates := (updateMouseRegion wm).numUpdates } := by
    rw [updateMouseRegion, updateRegion_eq, noteUpdate_rest]
  rw [hrest]
  rfl

/-- The loop activates the first window under the mouse, and no window is lost. -/
theorem mouseLoop_numbers (ev : MouseEvent) (hlist : wm.winlist = before.reverse ++ after)
    (hnd : wm.numbers.Nodup) :
    (mouseLoop ev wm before after).numbers = raise
      (if ev.flags &&& mouseFlagLeft ≠ 0 then
        (before.find? (mouseOver wm)).map Window.color
      else none) wm.numbers := by
  induction before generalizing after with
  | nil => simp [mouseLoop, raise]
  | cons node before ih =>
    have hlist' : wm.winlist = before.reverse ++ node :: after := by
      rw [hlist, List.reverse_cons, List.append_assoc, List.singleton_append]
    have hnumbers : wm.numbers =
        before.reverse.map Window.color ++ node.color :: after.map Window.color := by
      rw [Wm.numbers, hlist', List.map_append, List.map_cons]
    rw [mouseLoop]
    by_cases hover : mouseOver wm node = true
    · rw [if_pos hover, List.find?_cons_of_pos hover]
      split
      · rw [Option.map_some, Wm.numbers, updateWindowRegion_winlist, hnumbers,
          raise_concat _ (hnumbers ▸ hnd)]
        simp only [List.map_append, List.map_cons, List.map_nil]
      · split
        · -- a window that is moved keeps its place
          rw [Wm.numbers, updateWindowRegion_winlist, hnumbers, raise]
          simp only [List.map_append, List.map_cons]
        · next hleft hright =>
          have hskip := ih hlist'
          rw [if_neg hleft] at hskip
          exact hskip
    · rw [if_neg hover, List.find?_cons_of_neg hover]
      exact ih hlist'

theorem mouseLoop_hasBuffer (ev : MouseEvent) (h : ∀ window ∈ wm.winlist, window.hasBuffer = true)
    (hlist : wm.winlist = before.reverse ++ after) :
    ∀ window ∈ (mouseLoop ev wm before after).winlist, window.hasBuffer = true := by
  induction before generalizing after with
  | nil => exact h
  | cons node before ih =>
    have hlist' : wm.winlist = before.reverse ++ node :: after := by
      rw [hlist, List.reverse_cons, List.append_assoc, List.singleton_append]
    have hbuffer := h
    rw [hlist'] at hbuffer
    simp only [List.mem_append, List.mem_cons] at hbuffer
    have hnode := hbuffer node (.inr (.inl rfl))
    rw [mouseLoop]
    split_ifs
    · rw [updateWindowRegion_winlist]
      simp only [List.mem_append, List.mem_singleton]
      rintro window ((hmem | hmem) | rfl)
      · exact hbuffer window (.inl hmem)
      · exact hbuffer window (.inr (.inr hmem))
      · exact hnode
    · rw [updateWindowRegion_winlist]
      simp only [List.mem_append, List.mem_cons]
      rintro window (hmem | rfl | hmem)
      · exact hbuffer window (.inl hmem)
      · exact hnode
      · exact hbuffer window (.inr (.inr hmem))
    · exact ih hlist'
    · exact ih hlist'

/-- **A step raises the window that it activates.** -/
theorem step_numbers (e : Event) (hnd : wm.numbers.Nodup)
    (hnew : ∀ c ∈ opened [e], c ∉ wm.numbers) :
    (step wm e).numbers = raise (activated wm e) wm.numbers := by
  cases e with
  | newWindow width height color buffer =>
    have hcolor : color ∉ wm.numbers := hnew color (.head _)
    rw [activated, raise_new hcolor]
    show (updateWindowRegion _ _).winlist.map Window.color = _
    rw [updateWindowRegion_winlist, List.map_append]
    rfl
  | clientUpdate id buffer =>
    have hwrite : (writeContents wm id buffer).numbers = wm.numbers := by
      simp only [Wm.numbers, writeContents, List.map_map]
      apply List.map_congr_left
      intro window hmem
      simp only [Function.comp_apply]
      split <;> rfl
    show _ = wm.numbers
    refine Eq.trans ?_ hwrite
    simp only [step, handleClientUpdate]
    split
    · rfl
    · exact congrArg (List.map Window.color) (updateWindowRegion_winlist ..)
  | mouse ev =>
    have hnumbers : (updateMouseRegion wm).numbers = wm.numbers :=
      congrArg (List.map Window.color) (updateMouseRegion_winlist wm)
    have hlist : (updateMouseRegion wm).winlist = wm.winlist.reverse.reverse ++ [] := by
      rw [updateMouseRegion_winlist, List.reverse_reverse, List.append_nil]
    have hloop := mouseLoop_numbers ev hlist (hnumbers ▸ hnd)
    rw [hnumbers, mouseOver_updateMouseRegion] at hloop
    rw [activated, Wm.underMouse, ← hloop]
    simp only [step, handleMouse, Wm.numbers, updateMouseRegion_winlist]
  | keyboard => rfl
  | frame =>
    exact congrArg (List.map Window.color)
      (frame_keeps (g := Wm.winlist) (fun _ _ => rfl) (fun _ _ => rfl) (fun _ _ => rfl) wm)

theorem step_hasBuffer (e : Event) (h : ∀ window ∈ wm.winlist, window.hasBuffer = true) :
    ∀ window ∈ (step wm e).winlist, window.hasBuffer = true := by
  cases e with
  | newWindow width height color buffer =>
    show ∀ window ∈ (updateWindowRegion _ _).winlist, window.hasBuffer = true
    rw [updateWindowRegion_winlist]
    simp only [List.mem_append, List.mem_singleton]
    rintro window (hmem | rfl)
    · exact h window hmem
    · rfl
  | clientUpdate id buffer =>
    have hwrite : ∀ window ∈ (writeContents wm id buffer).winlist, window.hasBuffer = true := by
      intro window hmem
      obtain ⟨window', hmem', rfl⟩ := List.mem_map.1 hmem
      have hbuffer := h window' hmem'
      split
      · exact hbuffer
      · exact hbuffer
    simp only [step, handleClientUpdate]
    split
    · exact hwrite
    · rw [updateWindowRegion_winlist]
      exact hwrite
  | mouse ev =>
    have hbuffer : ∀ window ∈ (updateMouseRegion wm).winlist, window.hasBuffer = true := by
      rwa [updateMouseRegion_winlist]
    have hlist : (updateMouseRegion wm).winlist = wm.winlist.reverse.reverse ++ [] := by
      rw [updateMouseRegion_winlist, List.reverse_reverse, List.append_nil]
    simp only [step, handleMouse, updateMouseRegion_winlist]
    exact mouseLoop_hasBuffer ev hbuffer hlist
  | keyboard => exact h
  | frame =>
    have hwinlist : (step wm .frame).winlist = wm.winlist :=
      frame_keeps (g := Wm.winlist) (fun _ _ => rfl) (fun _ _ => rfl) (fun _ _ => rfl) wm
    rwa [hwinlist]

/-- The windows of a state are those of the activations so far. -/
structure Stacked (wm : Wm) (acts : List ℕ) : Prop where
  numbers : wm.numbers = acts.dedup
  hasBuffer : ∀ window ∈ wm.winlist, window.hasBuffer = true

theorem Stacked.step {acts : List ℕ} (h : Stacked wm acts) (e : Event)
    (hnew : ∀ c ∈ opened [e], c ∉ acts) :
    Stacked (step wm e) (acts ++ (activated wm e).toList) := by
  have hnd : wm.numbers.Nodup := h.numbers ▸ List.nodup_dedup acts
  constructor
  · rw [dedup_append_toList, ← h.numbers]
    apply step_numbers e hnd
    rw [h.numbers]
    simpa using hnew
  · exact step_hasBuffer e h.hasBuffer

/-- Only windows that are open, or that it opens, are activated by a step. -/
theorem activated_mem {e : Event} {c : ℕ} (h : activated wm e = some c) :
    c ∈ wm.numbers ∨ c ∈ opened [e] := by
  cases e with
  | newWindow width height color buffer =>
    obtain rfl : color = c := Option.some.inj h
    exact .inr (.head _)
  | mouse ev =>
    rw [activated] at h
    split at h
    · obtain ⟨window, hfind, rfl⟩ := Option.map_eq_some_iff.1 h
      exact .inl (List.mem_map_of_mem (List.mem_reverse.1 (List.mem_of_find?_eq_some hfind)))
    · cases h
  | clientUpdate => cases h
  | keyboard => cases h
  | frame => cases h

theorem opened_cons (e : Event) (es : List Event) : opened (e :: es) = opened [e] ++ opened es := by
  cases e <;> rfl

/-- The steps keep to the order of the activations. -/
theorem Stacked.run {acts : List ℕ} (h : Stacked wm acts) (es : List Event)
    (hnd : (opened es).Nodup) (hnew : ∀ c ∈ opened es, c ∉ acts) :
    Stacked (afterSteps wm es) (acts ++ activations wm es) := by
  induction es generalizing wm acts with
  | nil => rwa [activations, List.append_nil]
  | cons e es ih =>
    rw [opened_cons] at hnd hnew
    have hstep := h.step e fun c hc => hnew c (List.mem_append_left _ hc)
    rw [activations, ← List.append_assoc]
    refine ih hstep hnd.of_append_right fun c hc hmem => ?_
    rcases List.mem_append.1 hmem with hmem | hmem
    · exact hnew c (List.mem_append_right _ hc) hmem
    · rcases activated_mem (Option.mem_toList.1 hmem) with hmem | hmem
      · rw [h.numbers, List.mem_dedup] at hmem
        exact hnew c (List.mem_append_right _ hc) hmem
      · exact List.disjoint_of_nodup_append hnd hmem hc

end Steps

theorem getLast?_dedup (l : List ℕ) : l.dedup.getLast? = l.getLast? := by
  induction l using List.reverseRecOn with
  | nil => rfl
  | append_singleton l c ih =>
    have hdedup := dedup_append_toList l (some c)
    rw [Option.toList_some] at hdedup
    rw [hdedup, raise, List.getLast?_concat, List.getLast?_concat]

/-- A key goes to the window that was activated last. -/
theorem Stacked.handleKeyboard {wm : Wm} {acts : List ℕ} (h : Stacked wm acts)
    (ev : KeyboardEvent) :
    (handleKeyboard wm ev).map (fun sent => (sent.1.color, sent.2)) =
      acts.getLast?.map fun c =>
        (c, { keyboardMessage ev with type := .other stubbywmKeyboardEvent }) := by
  rw [← getLast?_dedup, ← h.numbers, Wm.numbers, List.getLast?_map, Stubbywm.handleKeyboard]
  cases hlast : wm.winlist.getLast? with
  | none => rfl
  | some window =>
    simp only [h.hasBuffer window (List.mem_of_getLast? hlast), Option.map_some]
    rfl

theorem stacked_nil {wm : Wm} (h₀ : wm.winlist = []) : Stacked wm [] := by
  constructor
  · rw [Wm.numbers, h₀]
    rfl
  · rw [h₀]
    exact fun window hmem => absurd hmem List.not_mem_nil

/-- **The windows lie in the order of their last activations, and keys go to the last one.** Over
every order of steps, where the numbers of the windows that are opened are different. -/
theorem stacking_order (wm : Wm) (h₀ : wm.winlist = []) (es : List Event)
    (hnd : (opened es).Nodup) :
    (afterSteps wm es).numbers = (activations wm es).dedup ∧
      ∀ ev, (handleKeyboard (afterSteps wm es) ev).map (fun sent => (sent.1.color, sent.2)) =
        (activations wm es).getLast?.map fun c =>
          (c, { keyboardMessage ev with type := .other stubbywmKeyboardEvent }) := by
  have hstacked := (stacked_nil h₀).run es hnd fun c _ => List.not_mem_nil
  rw [List.nil_append] at hstacked
  exact ⟨hstacked.numbers, hstacked.handleKeyboard⟩

/-- A screen of eight by eight pixels. -/
def squareScreen : Wm where
  winlist := []
  mouse := ⟨0, 0⟩
  mouseCursor := cursorDefault fun _ => 0
  updates := fun _ => ⟨⟨0, 0⟩, ⟨0, 0⟩⟩
  numUpdates := 0
  buffer := fun _ => 0
  framebuffer := fun _ => 0
  info := ⟨8, 8, by decide⟩

/-- Two windows are opened, and the first one is clicked where the second one does not cover it. -/
def twoWindows : List Event :=
  [.newWindow 4 4 7 fun _ => 0, .newWindow 2 2 9 fun _ => 0, .mouse ⟨0, 3, -3⟩,
    .mouse ⟨mouseFlagLeft, 0, 0⟩]

theorem stacking_order_twoWindows : (afterSteps squareScreen twoWindows).numbers = [9, 7] := by
  have hacts : activations squareScreen twoWindows = [7, 9, 7] := by decide +kernel
  have horder := (stacking_order squareScreen rfl twoWindows (by decide)).1
  rwa [hacts] at horder

end C4OS.Stubbywm
