import C4OS.Foundations.Readers
import C4OS.Peripherals.Model

/-!
# The packets of the mouse

The functions of `ps2mouse.c`. The thread of the driver collects the bytes that it reads, over the
interrupts in which they come, and takes each three of them for a packet. So the packets are those
that the mouse sent (`eventThread_packets`), but a movement with a sign is one too large in the
event (`packetEvent_eq`), and so the events are right exactly when no packet has a sign
(`decoded_iff`). The sums of the movements drift by the number of signs (`drift`).
-/

namespace C4OS.Peripherals

open Foundations
open Stubbywm (MouseEvent)

/-! ## The driver -/

/-- `MOUSE_STATUS_CAN_READ`. -/
abbrev mouseStatusCanRead : UInt8 := 0x01

/-- `MOUSE_STATUS_IS_MOUSE`. -/
abbrev mouseStatusIsMouse : UInt8 := 0x20

/-- There is a byte to read. -/
def canRead (status : UInt8) : Bool := status &&& mouseStatusCanRead ≠ 0

/-- The event of `dispatch`. -/
def packetEvent (packet : ℕ → UInt8) : Option MouseEvent :=
  if packet 0 &&& 0x40 ≠ 0 ∨ packet 0 &&& 0x80 ≠ 0 then none
  else some {
    flags := (packet 0 &&& 0x7).toNat
    x := if packet 0 &&& 0x10 ≠ 0 then -(255 - (packet 1).toNat) else (packet 1).toNat
    y := if packet 0 &&& 0x20 ≠ 0 then -(255 - (packet 2).toNat) else (packet 2).toNat }

/-- `dispatch`: the messages that are sent, with their clients. -/
def dispatch (clients : List ℕ) (packet : ℕ → UInt8) : List (ℕ × Message) :=
  match packetEvent packet with
  | none => []
  | some ev => clients.map fun client => (client, mouseMessage ev)

/-- The variables of `event_thread`. -/
structure Locals where
  things : ℕ → UInt8
  counter : ℕ

/-- A turn of the inner loop of `event_thread`, with the byte that it reads. -/
def readByte (m : Locals) (byte : UInt8) : Locals × List MouseEvent :=
  let things := Function.update m.things m.counter byte
  let counter := m.counter + 1
  if counter = 3 then (⟨things, 0⟩, (packetEvent things).toList)
  else (⟨things, counter⟩, [])

/-- The inner loop of `event_thread`, with what the ports give in its turns: the status, and the
byte. -/
def readLoop : Locals → List (UInt8 × UInt8) → Locals × List MouseEvent
  | m, [] => (m, [])
  | m, (status, byte) :: ports =>
    if canRead status then
      let (m, evs) := readByte m byte
      let (m, evs') := readLoop m ports
      (m, evs ++ evs')
    else (m, [])

/-- What the ports give after an interrupt: the status, and then the status and the byte of each
turn of the inner loop. -/
structure Interrupt where
  status : UInt8
  ports : List (UInt8 × UInt8)

/-- A turn of `event_thread`. -/
def handleInterrupt (m : Locals) (i : Interrupt) : Locals × List MouseEvent :=
  if i.status &&& mouseStatusIsMouse = 0 then (m, []) else readLoop m i.ports

/-- `event_thread`: the events that it dispatches. -/
def eventThread : Reader Locals Interrupt MouseEvent where
  next m i := (handleInterrupt m i).1
  out m i := (handleInterrupt m i).2

/-- The bytes that the inner loop reads. -/
def readBytes (ports : List (UInt8 × UInt8)) : List UInt8 :=
  (ports.takeWhile fun port => canRead port.1).map Prod.snd

/-- The bytes that are read after an interrupt. -/
def Interrupt.bytes (i : Interrupt) : List UInt8 :=
  if i.status &&& mouseStatusIsMouse = 0 then [] else readBytes i.ports

/-! ## The packets -/

/-- What the mouse sends for a movement. -/
structure Packet where
  head : UInt8
  x : UInt8
  y : UInt8

namespace Packet

variable (packet : Packet)

/-- The bytes of a packet, in order. -/
def bytes : List UInt8 := [packet.head, packet.x, packet.y]

/-- One of the overflow bits is set. -/
def overflow : Bool := packet.head &&& 0x40 ≠ 0 ∨ packet.head &&& 0x80 ≠ 0

/-- The sign of the movement to the right. -/
def signX : Bool := packet.head &&& 0x10 ≠ 0

/-- The sign of the movement up. -/
def signY : Bool := packet.head &&& 0x20 ≠ 0

/-- The buttons and the movement that the packet stands for. The movements have nine bits, in two's
complement. -/
def movement : MouseEvent where
  flags := (packet.head &&& 0x7).toNat
  x := packet.x.toNat - 256 * packet.signX.toNat
  y := packet.y.toNat - 256 * packet.signY.toNat

/-- The event that is dispatched for a packet with no overflow. -/
def event : MouseEvent where
  flags := (packet.head &&& 0x7).toNat
  x := packet.movement.x + packet.signX.toNat
  y := packet.movement.y + packet.signY.toNat

end Packet

/-- The events are those of the packets with no overflow, in order, and the movements have the right
sums. -/
structure Decoded (packets : List Packet) (events : List MouseEvent) : Prop where
  events_eq : events = (packets.filter fun packet => !packet.overflow).map Packet.movement
  sum_x : (events.map MouseEvent.x).sum =
    ((packets.filter fun packet => !packet.overflow).map fun packet => packet.movement.x).sum
  sum_y : (events.map MouseEvent.y).sum =
    ((packets.filter fun packet => !packet.overflow).map fun packet => packet.movement.y).sum

/-- The inner loop, with a byte for each turn. -/
def byteReader : Reader Locals UInt8 MouseEvent where
  next m byte := (readByte m byte).1
  out m byte := (readByte m byte).2

theorem readBytes_cons (port : UInt8 × UInt8) (ports : List (UInt8 × UInt8)) :
    readBytes (port :: ports) = if canRead port.1 then port.2 :: readBytes ports else [] := by
  rw [readBytes, List.takeWhile_cons]
  split <;> rfl

theorem readLoop_eq (m : Locals) (ports : List (UInt8 × UInt8)) : readLoop m ports =
    (byteReader.after m (readBytes ports), byteReader.run m (readBytes ports)) := by
  induction ports generalizing m with
  | nil => rfl
  | cons port ports ih =>
    rw [readLoop, readBytes_cons]
    split
    · simp only [ih]
      rfl
    · rfl

theorem handleInterrupt_eq (m : Locals) (i : Interrupt) :
    handleInterrupt m i = (byteReader.after m i.bytes, byteReader.run m i.bytes) := by
  rw [handleInterrupt, Interrupt.bytes]
  split
  · rfl
  · exact readLoop_eq m i.ports

/-- The events do not depend on the interrupts in which the bytes come. -/
theorem eventThread_run (m : Locals) (interrupts : List Interrupt) :
    eventThread.run m interrupts = byteReader.run m (interrupts.flatMap Interrupt.bytes) := by
  apply byteReader.run_parts
  · exact fun m i => congrArg Prod.fst (handleInterrupt_eq m i)
  · exact fun m i => congrArg Prod.snd (handleInterrupt_eq m i)

/-! ## Frames -/

/-- The index of a byte is in the array. -/
theorem readByte_counter {m : Locals} (h : m.counter < 3) (byte : UInt8) :
    (readByte m byte).1.counter < 3 := by
  rw [readByte]
  split
  · exact Nat.zero_lt_succ 2
  · show m.counter + 1 < 3
    omega

theorem byteReader_counter {m : Locals} (h : m.counter < 3) (bytes : List UInt8) :
    (byteReader.after m bytes).counter < 3 :=
  byteReader.after_induction (fun _ m => m.counter < 3) h
    (fun _ byte _ hm => readByte_counter hm byte) bytes

/-- A movement with a sign is one too large in the event. -/
theorem packetEvent_eq {things : ℕ → UInt8} (packet : Packet) (hhead : things 0 = packet.head)
    (hx : things 1 = packet.x) (hy : things 2 = packet.y) :
    packetEvent things = if packet.overflow then none else some packet.event := by
  have hmovement (byte : UInt8) (sign : Bool) :
      (if sign = true then -(255 - (byte.toNat : ℤ)) else byte.toNat) =
        byte.toNat - 256 * (sign.toNat : ℤ) + sign.toNat := by
    cases sign
    · simp
    · rw [if_pos rfl, Bool.toNat_true]
      omega
  simp only [packetEvent, hhead, hx, hy, Packet.overflow, Packet.event, Packet.movement,
    ← hmovement, Packet.signX, Packet.signY, decide_eq_true_eq]

/-- Three bytes are one packet. -/
theorem readPacket {m : Locals} (h : m.counter = 0) (packet : Packet) :
    (byteReader.after m packet.bytes).counter = 0 ∧
      byteReader.run m packet.bytes = if packet.overflow then [] else [packet.event] := by
  obtain ⟨things, counter⟩ := m
  obtain rfl : counter = 0 := h
  refine ⟨rfl, ?_⟩
  have hrun : byteReader.run ⟨things, 0⟩ packet.bytes =
      (packetEvent (Function.update (Function.update (Function.update things 0 packet.head) 1
        packet.x) 2 packet.y)).toList ++ [] := rfl
  rw [hrun, packetEvent_eq packet rfl rfl rfl, List.append_nil]
  split <;> rfl

/-- **The events are those of the packets**, however the bytes of the packets come. -/
theorem eventThread_packets (things : ℕ → UInt8) {packets : List Packet}
    {interrupts : List Interrupt}
    (h : interrupts.flatMap Interrupt.bytes = packets.flatMap Packet.bytes) :
    eventThread.run ⟨things, 0⟩ interrupts =
      (packets.filter fun packet => !packet.overflow).map Packet.event := by
  rw [eventThread_run, h]
  have hframes := byteReader.run_frames (fun m => m.counter = 0)
    (fun _ packet hm => (readPacket hm packet).1) (fun _ packet hm => (readPacket hm packet).2)
    (show (⟨things, 0⟩ : Locals).counter = 0 from rfl) packets
  rw [hframes]
  clear h hframes
  induction packets with
  | nil => rfl
  | cons packet packets ih =>
    rw [List.flatMap_cons, ih, List.filter_cons]
    cases packet.overflow <;> rfl

/-- What the events have too much: one for each sign. -/
theorem drift (packets : List Packet) :
    (((packets.map Packet.event).map MouseEvent.x).sum =
        (packets.map fun packet => packet.movement.x).sum + packets.countP Packet.signX) ∧
      ((packets.map Packet.event).map MouseEvent.y).sum =
        (packets.map fun packet => packet.movement.y).sum + packets.countP Packet.signY := by
  induction packets with
  | nil => exact ⟨rfl, rfl⟩
  | cons packet packets ih =>
    obtain ⟨hx, hy⟩ := ih
    have hcount (sign : Bool) : ((if sign = true then 1 else 0 : ℕ) : ℤ) = sign.toNat := by
      cases sign <;> rfl
    simp only [List.map_cons, List.sum_cons, List.countP_cons, hx, hy, Packet.event]
    push_cast [hcount]
    constructor <;> omega

/-- The event is in the message that is sent to each client. -/
theorem dispatch_parse {clients : List ℕ} {packet : ℕ → UInt8} {sent : ℕ × Message}
    (h : sent ∈ dispatch clients packet) :
    sent.1 ∈ clients ∧ packetEvent packet = some (mouseParseEvent sent.2) := by
  rw [dispatch] at h
  split at h
  · cases h
  · rename_i ev hev
    obtain ⟨client, hclient, rfl⟩ := List.mem_map.mp h
    refine ⟨hclient, ?_⟩
    have hx := (packet 1).toNat_lt
    have hy := (packet 2).toNat_lt
    rw [packetEvent] at hev
    split at hev
    · cases hev
    · obtain rfl := Option.some.inj hev
      rw [packetEvent, if_neg (by assumption), mouseParseEvent_message]
      · dsimp only
        split <;> omega
      · dsimp only
        split <;> omega

/-- **Mouse packets are decoded exactly** when no packet without overflow has a sign. -/
theorem decoded_iff (things : ℕ → UInt8) {packets : List Packet} {interrupts : List Interrupt}
    (h : interrupts.flatMap Interrupt.bytes = packets.flatMap Packet.bytes) :
    Decoded packets (eventThread.run ⟨things, 0⟩ interrupts) ↔
      ∀ packet ∈ packets, packet.overflow = false →
        packet.signX = false ∧ packet.signY = false := by
  rw [eventThread_packets things h]
  have hmem {packet : Packet} : packet ∈ packets.filter (fun packet => !packet.overflow) ↔
      packet ∈ packets ∧ packet.overflow = false := by
    rw [List.mem_filter, Bool.not_eq_true']
  constructor
  · intro hdecoded packet hpacket hoverflow
    have heq := List.map_inj_left.mp hdecoded.events_eq packet (hmem.mpr ⟨hpacket, hoverflow⟩)
    have hx : packet.movement.x + packet.signX.toNat = packet.movement.x :=
      congrArg MouseEvent.x heq
    have hy : packet.movement.y + packet.signY.toNat = packet.movement.y :=
      congrArg MouseEvent.y heq
    have hsign {z : ℤ} {sign : Bool} (h : z + sign.toNat = z) : sign = false := by
      cases sign with
      | false => rfl
      | true =>
        rw [Bool.toNat_true] at h
        omega
    exact ⟨hsign hx, hsign hy⟩
  · intro hsigns
    have heq : (packets.filter fun packet => !packet.overflow).map Packet.event =
        (packets.filter fun packet => !packet.overflow).map Packet.movement := by
      apply List.map_congr_left
      intro packet hpacket
      obtain ⟨hpacket, hoverflow⟩ := hmem.mp hpacket
      obtain ⟨hx, hy⟩ := hsigns packet hpacket hoverflow
      simp only [Packet.event, hx, hy, Bool.toNat_false, Nat.cast_zero, add_zero]
      rfl
    refine ⟨heq, ?_, ?_⟩
    · rw [heq, List.map_map]
      rfl
    · rw [heq, List.map_map]
      rfl

/-- A packet whose bytes come in two interrupts. -/
theorem decoded_iff_split : Decoded [⟨0x09, 0x05, 0x03⟩] (eventThread.run ⟨fun _ => 0, 0⟩
    [⟨0x21, [(0x21, 0x09), (0x00, 0x00)]⟩, ⟨0x21, [(0x21, 0x05), (0x21, 0x03)]⟩]) :=
  (decoded_iff (fun _ => 0) (by decide)).mpr (by decide)

/-- The mouse moves one step to the left, and the event has no movement. -/
theorem decoded_left : ¬∀ (things : ℕ → UInt8) (packets : List Packet)
    (interrupts : List Interrupt),
    interrupts.flatMap Interrupt.bytes = packets.flatMap Packet.bytes →
      Decoded packets (eventThread.run ⟨things, 0⟩ interrupts) := by
  intro h
  have hsum := (h (fun _ => 0) [⟨0x18, 0xff, 0x00⟩]
    [⟨0x21, [(0x21, 0x18), (0x21, 0xff), (0x21, 0x00)]⟩] (by decide)).sum_x
  revert hsum
  decide

end C4OS.Peripherals
