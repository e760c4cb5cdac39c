import C4OS.Stubbywm.Model

/-!
# The interfaces of the keyboard and the mouse

The types and functions of `peripheral.h`, `keyboard.h` and `mouse.h`. The drivers send each event
as a message with the fields of the event as its words, and their clients get the event back from
the words. The assertions of the functions only print.
-/

namespace C4OS.Peripherals

open Stubbywm (MouseEvent)

/-- The types of the messages. -/
inductive MessageType where
  | keyboardGetEvent
  | keyboardGetModifiers
  | keyboardEvent
  | mouseEvent
  | other (type : ℕ)
  deriving DecidableEq

/-- `message_t`. -/
structure Message where
  type : MessageType
  data : List ℕ
  deriving DecidableEq

/-- `data[i]`; the words that are not given are zero. -/
def Message.word (msg : Message) (i : ℕ) : ℕ := msg.data.getD i 0

/-- `KEYBOARD_MOD_END`. -/
abbrev keyboardModEnd : ℕ := 6

/-- `KEYBOARD_EVENT_KEY_DOWN`. -/
abbrev keyDown : ℕ := 0

/-- `KEYBOARD_EVENT_KEY_UP`. -/
abbrev keyUp : ℕ := 1

/-- `keyboard_event_t`. -/
structure KeyboardEvent where
  character : ℕ
  modifiers : ℕ
  scancode : ℕ
  event : ℕ
  deriving DecidableEq

/-- `keyboard_event_is_modifier`. -/
def keyboardEventIsModifier (ev : KeyboardEvent) : Bool := ev.character < keyboardModEnd

/-- The message of the keyboard driver. -/
def keyboardMessage (ev : KeyboardEvent) : Message where
  type := .keyboardEvent
  data := [ev.character, ev.modifiers, ev.scancode, ev.event]

/-- `keyboard_parse_event`. -/
def keyboardParseEvent (msg : Message) : KeyboardEvent where
  character := msg.word 0
  modifiers := msg.word 1
  scancode := msg.word 2
  event := msg.word 3

theorem keyboardParseEvent_message (ev : KeyboardEvent) :
    keyboardParseEvent (keyboardMessage ev) = ev := rfl

/-- The message of the mouse driver: the movements are words. -/
def mouseMessage (ev : MouseEvent) : Message where
  type := .mouseEvent
  data := [ev.flags, (ev.x % 2 ^ 32).toNat, (ev.y % 2 ^ 32).toNat]

/-- `mouse_parse_event`. -/
def mouseParseEvent (msg : Message) : MouseEvent where
  flags := msg.word 0
  x := Stubbywm.int32 (msg.word 1)
  y := Stubbywm.int32 (msg.word 2)

/-- A movement is an `int32_t`, and so it is got back from its word. -/
theorem mouseParseEvent_message {ev : MouseEvent} (hx : -2 ^ 31 ≤ ev.x ∧ ev.x < 2 ^ 31)
    (hy : -2 ^ 31 ≤ ev.y ∧ ev.y < 2 ^ 31) : mouseParseEvent (mouseMessage ev) = ev := by
  have hword {z : ℤ} (h : -2 ^ 31 ≤ z ∧ z < 2 ^ 31) :
      Stubbywm.int32 ((z % 2 ^ 32).toNat : ℕ) = z := by
    rw [Int.toNat_of_nonneg (Int.emod_nonneg z (by decide)), Stubbywm.int32]
    have hmod : (z % 2 ^ 32).bmod (2 ^ 32) = z.bmod (2 ^ 32) := Int.emod_bmod ..
    rw [hmod]
    exact Int.bmod_eq_of_le (by omega) (by omega)
  obtain ⟨flags, x, y⟩ := ev
  simp only [mouseParseEvent, MouseEvent.mk.injEq]
  exact ⟨rfl, hword hx, hword hy⟩

end C4OS.Peripherals
