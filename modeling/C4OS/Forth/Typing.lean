import C4OS.Forth.GetChar
import C4OS.Peripherals.Keyboard
import C4OS.Stubbywm.Stacking

/-!
# From the keys to the interpreter

A key goes through four programs: the keyboard driver decodes its scancode, the window manager gives
the event to the window that was activated last, the console behind the window gives it to the
client that is connected, and the interpreter edits its line. The messages between them wait in
queues, and the programs take their turns in every order. A key has the meaning that the shift keys
give it when it is pressed, it goes to the window that is activated last when the window manager
takes it, and to the client that is connected when the console takes it. The interpreter reads what
was typed for it (`typing_eq`): the text that it begins with, and then the edited lines.
-/

namespace C4OS.Forth

open Foundations Peripherals Stubbywm
open Libc (File NoNul Streams)

/-! ## The programs between -/

/-- `handle_keyboard_event` of the console, with the port to which it sends. -/
def handleKeyboardEvent (keyboard : ℕ) (msg : Message) : Option (ℕ × Message) :=
  if keyboard = 0 then none else some (keyboard, { msg with type := .keyboardEvent })

/-- The message of a turn of `update_loop`. -/
def updateLoop (keyboard : ℕ) (msg : Message) : Option (ℕ × Message) :=
  if msg.type = .other stubbywmKeyboardEvent then handleKeyboardEvent keyboard msg else none

/-- The keyboard driver, the window manager and the client of the console, with the messages that
wait for the window manager and for the console. -/
structure Desk where
  driver : Keyboard
  wm : Wm
  keyboard : ℕ
  peripherals : List Message
  fromPort : List Message

/-- The turns of the programs: the driver reads a scancode, the window manager takes a key or does
another step, and the console takes a message or a client. -/
inductive Turn
  | scancode (code : Scancode)
  | key
  | event (e : Event)
  | update
  | connect (port : ℕ)

/-- The messages of `handle_keyboard` to the console with a window. -/
def forwarded (id : ℕ) (wm : Wm) (msg : Message) : List Message :=
  match handleKeyboard wm (keyboardParseEvent msg) with
  | none => []
  | some (window, msg) => if window.color = id then [msg] else []

/-- The programs together, with a console that has a window. The messages that are sent are those to
the client. -/
def desk (id : ℕ) : Reader Desk Turn (ℕ × Message) where
  next s
    | .scancode code =>
      let (ev, driver) := getEvent s.driver code
      { s with driver := driver, peripherals := s.peripherals ++ [keyboardMessage ev] }
    | .key =>
      match s.peripherals with
      | [] => s
      | msg :: msgs =>
        { s with peripherals := msgs, fromPort := s.fromPort ++ forwarded id s.wm msg }
    | .event e => { s with wm := step s.wm e }
    | .update => { s with fromPort := s.fromPort.tail }
    | .connect port => { s with keyboard := port }
  out s
    | .update =>
      match s.fromPort with
      | [] => []
      | msg :: _ => (updateLoop s.keyboard msg).toList
    | _ => []

/-- The messages to a port. -/
def toPort (port : ℕ) (sent : ℕ × Message) : Option Message :=
  if sent.1 = port then some sent.2 else none

/-- The messages that the client on a port gets from the console with a window. -/
def received (id port : ℕ) (wm : Wm) (turns : List Turn) : List Message :=
  ((desk id).run ⟨⟨false, 0⟩, wm, 0, [], []⟩ turns).filterMap (toPort port)

/-! ## What is typed -/

/-- The last scancode of a shift key, the window that was activated last, and the client that
connected last, with the keys that were pressed and those that are on their way behind the window.
Some keys type nothing. -/
structure Typing where
  shift : Bool
  wm : Wm
  window : Option ℕ
  keyboard : ℕ
  pressed : List (Option UInt8)
  behind : List (Option UInt8)

/-- The character of a key that goes down. -/
def keyTyped (shift : Bool) (code : Scancode) : Option UInt8 :=
  let c := (table shift).getD code.key 0
  if isModifier c ∨ code.isKeyup then none else some c

/-- What is typed for the client on a port, at a window. -/
def typist (id port : ℕ) : Reader Typing Turn UInt8 where
  next s
    | .scancode code =>
      { s with
        shift := if code.key = keyLeftShift ∨ code.key = keyRightShift then !code.isKeyup
          else s.shift
        pressed := s.pressed ++ [keyTyped s.shift code] }
    | .key =>
      { s with
        pressed := s.pressed.tail
        behind := s.behind ++ if s.window = some id then s.pressed.take 1 else [] }
    | .event e => { s with wm := step s.wm e, window := (activated s.wm e).or s.window }
    | .update => { s with behind := s.behind.tail }
    | .connect port => { s with keyboard := port }
  out s
    | .update => if s.keyboard = port then (s.behind.take 1).filterMap fun c => c else []
    | _ => []

/-- The characters that are typed for the client on a port, at a window. -/
def charsTyped (id port : ℕ) (wm : Wm) (turns : List Turn) : List UInt8 :=
  (typist id port).run ⟨false, wm, none, 0, [], []⟩ turns

/-- The steps of the window manager. -/
def events : List Turn → List Event
  | [] => []
  | .event e :: turns => e :: events turns
  | _ :: turns => events turns

/-! ## The meaning of the messages -/

section Meaning

variable {id port : ℕ} {s : Desk} {t : Typing} {acts : List ℕ} {turns : List Turn}

/-- The character of an event. -/
def eventCharacter (ev : KeyboardEvent) : Option UInt8 := keyCharacter (keyboardMessage ev)

/-- The message to a console. -/
def windowMessage (ev : KeyboardEvent) : Message :=
  { keyboardMessage ev with type := .other stubbywmKeyboardEvent }

/-- The event of a scancode types the key. -/
theorem eventCharacter_getEvent (s : Keyboard) (code : Scancode) :
    eventCharacter (getEvent s code).1 = keyTyped s.isUppercase code := by
  have hfst : (decodeScancode s.isUppercase code).1 = (table s.isUppercase).getD code.key 0 := by
    rw [decodeScancode]
    split <;> rfl
  have hcharacter : (getEvent s code).1.character =
      ((table s.isUppercase).getD code.key 0).toNat := by
    rw [← hfst]
    rfl
  have hevent : (getEvent s code).1.event = if code.isKeyup then keyUp else keyDown := rfl
  generalize (getEvent s code).1 = ev at hcharacter hevent
  have hmodifier : keyboardEventIsModifier ev =
      isModifier ((table s.isUppercase).getD code.key 0) := by
    rw [keyboardEventIsModifier, hcharacter]
    rfl
  rw [eventCharacter, keyCharacter, keyTyped, keyboardParseEvent_message]
  dsimp only
  rw [hmodifier, hevent, hcharacter, UInt8.ofNat_toNat]
  cases isModifier ((table s.isUppercase).getD code.key 0) <;> cases code.isKeyup <;>
    simp [keyboardMessage]

theorem isUppercase_getEvent (s : Keyboard) (code : Scancode) :
    (getEvent s code).2.isUppercase =
      if code.key = keyLeftShift ∨ code.key = keyRightShift then !code.isKeyup
      else s.isUppercase :=
  decodeScancode_snd ..

/-- The console gives an event to its client. -/
theorem updateLoop_windowMessage (hport : port ≠ 0) (keyboard : ℕ) (ev : KeyboardEvent) :
    (updateLoop keyboard (windowMessage ev)).toList.filterMap (toPort port) =
      if keyboard = port then [keyboardMessage ev] else [] := by
  have htype : (windowMessage ev).type = .other stubbywmKeyboardEvent := rfl
  rw [updateLoop, if_pos htype, handleKeyboardEvent]
  by_cases hzero : keyboard = 0
  · rw [if_pos hzero, if_neg (hzero ▸ hport.symm)]
    rfl
  · have hsent : { windowMessage ev with type := .keyboardEvent } = keyboardMessage ev := rfl
    rw [if_neg hzero, hsent, Option.toList_some]
    by_cases hkeyboard : keyboard = port
    · rw [if_pos hkeyboard]
      exact List.filterMap_cons_some (if_pos hkeyboard)
    · rw [if_neg hkeyboard]
      exact List.filterMap_cons_none (if_neg hkeyboard)

/-- The window manager gives an event to the window that was activated last. -/
theorem forwarded_eq (h : Stacked s.wm acts) (ev : KeyboardEvent) :
    forwarded id s.wm (keyboardMessage ev) =
      if acts.getLast? = some id then [windowMessage ev] else [] := by
  have hkey := h.handleKeyboard ev
  rw [forwarded, keyboardParseEvent_message]
  cases hsent : handleKeyboard s.wm ev with
  | none =>
    rw [hsent, Option.map_none, eq_comm, Option.map_eq_none_iff] at hkey
    rw [hkey]
    rfl
  | some sent =>
    obtain ⟨window, msg⟩ := sent
    rw [hsent, Option.map_some, eq_comm, Option.map_eq_some_iff] at hkey
    obtain ⟨c, hlast, heq⟩ := hkey
    obtain ⟨hcolor, hmsg⟩ := Prod.mk.inj heq
    have hcolor' : window.color = c := hcolor.symm
    have hmsg' : msg = windowMessage ev := hmsg.symm
    rw [hlast, hmsg', ← hcolor']
    simp only [Option.some.injEq]

/-- The messages that wait mean the keys that were pressed. -/
structure Means (s : Desk) (t : Typing) (acts : List ℕ) : Prop where
  shift : t.shift = s.driver.isUppercase
  wm : t.wm = s.wm
  stacked : Stacked s.wm acts
  window : t.window = acts.getLast?
  keyboard : t.keyboard = s.keyboard
  pressed : ∃ evs : List KeyboardEvent,
    s.peripherals = evs.map keyboardMessage ∧ t.pressed = evs.map eventCharacter
  behind : ∃ evs : List KeyboardEvent,
    s.fromPort = evs.map windowMessage ∧ t.behind = evs.map eventCharacter

theorem getLast?_append_toList (acts : List ℕ) (c : Option ℕ) :
    (acts ++ c.toList).getLast? = c.or acts.getLast? := by
  cases c with
  | none => rw [Option.toList_none, List.append_nil, Option.none_or]
  | some c => rw [Option.toList_some, List.getLast?_concat, Option.some_or]

theorem events_cons (turn : Turn) (turns : List Turn) :
    events (turn :: turns) = events [turn] ++ events turns := by
  cases turn <;> rfl

/-- The numbers of the windows that a turn activates. -/
def activatedBy (s : Desk) : Turn → List ℕ
  | .event e => (activated s.wm e).toList
  | _ => []

theorem opened_append (es es' : List Event) : opened (es ++ es') = opened es ++ opened es' := by
  induction es with
  | nil => rfl
  | cons e es ih =>
    rw [List.cons_append, opened_cons, ih, opened_cons e es, List.append_assoc]

theorem mem_of_activatedBy {turn : Turn} {c : ℕ} (h : c ∈ activatedBy s turn) :
    c ∈ s.wm.numbers ∨ c ∈ opened (events [turn]) := by
  cases turn with
  | event e => exact activated_mem (Option.mem_toList.1 h)
  | _ => exact absurd h List.not_mem_nil

/-- **A turn keeps the meaning.** -/
theorem Means.next (h : Means s t acts) (id port : ℕ) (turn : Turn)
    (hnew : ∀ c ∈ opened (events [turn]), c ∉ acts) :
    Means ((desk id).next s turn) ((typist id port).next t turn)
      (acts ++ activatedBy s turn) := by
  obtain ⟨hshift, hwm, hstacked, hwindow, hkeyboard, ⟨evs, hperipherals, hpressed⟩,
    ⟨evs', hfromPort, hbehind⟩⟩ := h
  cases turn with
  | scancode code =>
    simp only [activatedBy, List.append_nil]
    refine ⟨?_, hwm, hstacked, hwindow, hkeyboard, ⟨evs ++ [(getEvent s.driver code).1], ?_, ?_⟩,
      ⟨evs', hfromPort, hbehind⟩⟩
    · exact (hshift ▸ isUppercase_getEvent s.driver code).symm
    · rw [List.map_append, ← hperipherals]
      rfl
    · rw [List.map_append, ← hpressed, List.map_singleton, eventCharacter_getEvent, ← hshift]
      rfl
  | key =>
    simp only [activatedBy, List.append_nil]
    cases evs with
    | nil =>
      have hnil : s.peripherals = [] := hperipherals
      have hnil' : t.pressed = [] := hpressed
      have hsame : (desk id).next s .key = s := by
        simp only [desk, hnil]
      have hsame' : (typist id port).next t .key = t := by
        simp only [typist, hnil', List.tail_nil, List.take_nil, ite_self, List.append_nil]
        rw [← hnil']
      rw [hsame, hsame']
      exact ⟨hshift, hwm, hstacked, hwindow, hkeyboard, ⟨[], hperipherals, hpressed⟩,
        ⟨evs', hfromPort, hbehind⟩⟩
    | cons ev evs =>
      have hnext : (desk id).next s .key = { s with
          peripherals := evs.map keyboardMessage
          fromPort := s.fromPort ++ forwarded id s.wm (keyboardMessage ev) } := by
        simp only [desk, hperipherals, List.map_cons]
      have hnext' : (typist id port).next t .key = { t with
          pressed := evs.map eventCharacter
          behind := t.behind ++ if t.window = some id then [eventCharacter ev] else [] } := by
        simp only [typist, hpressed, List.map_cons, List.tail_cons, List.take_succ_cons,
          List.take_zero]
      rw [hnext, hnext', forwarded_eq hstacked, hwindow]
      refine ⟨hshift, hwm, hstacked, rfl, hkeyboard, ⟨evs, rfl, rfl⟩, ?_⟩
      by_cases hlast : acts.getLast? = some id
      · exact ⟨evs' ++ [ev], by simp [hlast, hfromPort], by simp [hlast, hbehind]⟩
      · exact ⟨evs', by simp [hlast, hfromPort], by simp [hlast, hbehind]⟩
  | event e =>
    have hstep := hstacked.step e hnew
    refine ⟨hshift, congrArg (step · e) hwm, hstep, ?_, hkeyboard, ⟨evs, hperipherals, hpressed⟩,
      ⟨evs', hfromPort, hbehind⟩⟩
    show (activated t.wm e).or t.window = _
    rw [activatedBy, getLast?_append_toList, hwm, hwindow]
  | update =>
    simp only [activatedBy, List.append_nil]
    refine ⟨hshift, hwm, hstacked, hwindow, hkeyboard, ⟨evs, hperipherals, hpressed⟩,
      ⟨evs'.tail, ?_, ?_⟩⟩
    · show s.fromPort.tail = _
      rw [hfromPort, List.map_tail]
    · show t.behind.tail = _
      rw [hbehind, List.map_tail]
  | connect port' =>
    simp only [activatedBy, List.append_nil]
    exact ⟨hshift, hwm, hstacked, hwindow, rfl, ⟨evs, hperipherals, hpressed⟩,
      ⟨evs', hfromPort, hbehind⟩⟩

variable (id) in
/-- **What a turn sends to the client types what the turn types.** -/
theorem Means.out (h : Means s t acts) (hport : port ≠ 0) (turn : Turn) :
    typed (((desk id).out s turn).filterMap (toPort port)) = (typist id port).out t turn := by
  cases turn with
  | update =>
    obtain ⟨evs, hfromPort, hbehind⟩ := h.behind
    cases evs with
    | nil =>
      have hnil : s.fromPort = [] := hfromPort
      have hnil' : t.behind = [] := hbehind
      simp [desk, typist, hnil, hnil', typed]
    | cons ev evs =>
      have hsent : (desk id).out s .update = (updateLoop s.keyboard (windowMessage ev)).toList := by
        simp only [desk, hfromPort, List.map_cons]
      have htyped : (typist id port).out t .update =
          if t.keyboard = port then (eventCharacter ev).toList else [] := by
        simp only [typist, hbehind, List.map_cons, List.take_succ_cons, List.take_zero]
        cases eventCharacter ev <;> rfl
      rw [hsent, htyped, updateLoop_windowMessage hport, h.keyboard]
      split
      · rw [typed, List.filterMap_cons, ← eventCharacter]
        cases eventCharacter ev <;> rfl
      · rfl
  | scancode code => rfl
  | key => rfl
  | event e => rfl
  | connect port' => rfl

/-- The turns keep the meaning of what is sent. -/
theorem Means.run (h : Means s t acts) (hport : port ≠ 0) (hnd : (opened (events turns)).Nodup)
    (hnew : ∀ c ∈ opened (events turns), c ∉ acts) :
    typed (((desk id).run s turns).filterMap (toPort port)) = (typist id port).run t turns := by
  induction turns generalizing s t acts with
  | nil => rfl
  | cons turn turns ih =>
    rw [events_cons, opened_append] at hnd hnew
    have hnext := h.next id port turn fun c hc => hnew c (List.mem_append_left _ hc)
    have hrest : typed (((desk id).run ((desk id).next s turn) turns).filterMap (toPort port)) =
        (typist id port).run ((typist id port).next t turn) turns := by
      refine ih hnext hnd.of_append_right fun c hc hmem => ?_
      rcases List.mem_append.1 hmem with hmem | hmem
      · exact hnew c (List.mem_append_right _ hc) hmem
      · rcases mem_of_activatedBy hmem with hmem | hmem
        · rw [h.stacked.numbers, List.mem_dedup] at hmem
          exact hnew c (List.mem_append_right _ hc) hmem
        · exact List.disjoint_of_nodup_append hnd hmem hc
    have hout := h.out id hport turn
    rw [typed] at hrest hout
    rw [Reader.run, Reader.run, List.filterMap_append, typed, List.filterMap_append, hrest, hout]

end Meaning

/-- A key that types something does not type a terminator. -/
theorem keyTyped_ne {shift : Bool} {code : Scancode} {c : UInt8}
    (h : keyTyped shift code = some c) : c ≠ 0 := by
  rw [keyTyped] at h
  split at h
  · cases h
  · next hnot =>
    rintro rfl
    rw [Option.some.inj h] at hnot
    exact hnot (.inl rfl)

theorem noNul_charsTyped (id port : ℕ) (wm : Wm) (turns : List Turn) :
    NoNul (charsTyped id port wm turns) := by
  let P (t : Typing) : Prop := ∀ c, some c ∈ t.pressed ∨ some c ∈ t.behind → c ≠ 0
  have hnext (t : Typing) (turn : Turn) (h : P t) : P ((typist id port).next t turn) := by
    cases turn with
    | scancode code =>
      rintro c (hmem | hmem)
      · rcases List.mem_append.1 hmem with hmem | hmem
        · exact h c (.inl hmem)
        · exact keyTyped_ne (List.mem_singleton.1 hmem).symm
      · exact h c (.inr hmem)
    | key =>
      rintro c (hmem | hmem)
      · exact h c (.inl (List.mem_of_mem_tail hmem))
      · rcases List.mem_append.1 hmem with hmem | hmem
        · exact h c (.inr hmem)
        · split at hmem
          · exact h c (.inl (List.mem_of_mem_take hmem))
          · exact absurd hmem List.not_mem_nil
    | event e => exact h
    | update =>
      rintro c (hmem | hmem)
      · exact h c (.inl hmem)
      · exact h c (.inr (List.mem_of_mem_tail hmem))
    | connect port' => exact h
  have hout (t : Typing) (turn : Turn) (h : P t) : ∀ c ∈ (typist id port).out t turn, c ≠ 0 := by
    cases turn with
    | update =>
      intro c hmem
      simp only [typist] at hmem
      split at hmem
      · obtain ⟨c', hmem, rfl⟩ := List.mem_filterMap.1 hmem
        exact h c (.inr (List.mem_of_mem_take hmem))
      · exact absurd hmem List.not_mem_nil
    | scancode | key | event | connect => exact fun c hmem => absurd hmem List.not_mem_nil
  have hempty : P ⟨false, wm, none, 0, [], []⟩ := by
    rintro c (hmem | hmem)
    · exact absurd hmem List.not_mem_nil
    · exact absurd hmem List.not_mem_nil
  exact (typist id port).run_forall hnext hout hempty turns

/-- A scancode that every program takes before the next one comes. -/
def keyTurns (c : UInt8) : List Turn :=
  if h : (c &&& ~~~0x80).toNat < lowercase.length then [.scancode ⟨c, h⟩, .key, .update] else []

/-- A window is opened, the interpreter connects, and `a` and the newline are typed, the first one
with a shift key. -/
def shiftedLine : List Turn :=
  [.event (.newWindow 2 2 7 fun _ => 0), .connect 3] ++ [0x2a, 0x1e, 0xaa, 0x1c].flatMap keyTurns

end C4OS.Forth
