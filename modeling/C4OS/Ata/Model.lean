import C4OS.Foundations.Histories
import Mathlib.Algebra.Order.Ring.Int
import Mathlib.Logic.Function.Basic

/-!
# The driver of the disks

The functions of `main.c` that carry out a request. The driver moves bytes and words through ports,
and the time is the number of accesses so far. A `Drive` gives what an access at some time reads, so
that it may do anything between any two accesses. The two loops that wait for a drive have a bound
on their turns; a run that comes to the bound has no result, but it keeps the accesses that it made.
-/

namespace C4OS.Ata

open Foundations

/-- The number of values of a word. -/
abbrev wordSize : ℕ := 2 ^ 32

/-- An access of a port. -/
inductive Access
  | inByte (port : ℕ)
  | outByte (port : ℕ) (value : UInt8)
  | inWord (port : ℕ)
  | outWord (port : ℕ) (value : UInt16)
  deriving DecidableEq

/-- What a read at a time gives. -/
abbrev Drive := ℕ → ℕ → UInt16

/-- The accesses so far, the latest one first, the times at which `ide_channel_poll` ran, and the
buffer of the request. -/
structure Bus where
  accesses : List Access
  polled : List ℕ
  buffer : ℕ → UInt16

/-- The number of accesses so far. -/
def Bus.time (s : Bus) : ℕ := s.accesses.length

/-- Code that accesses ports. -/
abbrev Io := Code Bus

/-- The code makes an access. -/
def access (a : Access) : Io Unit := modify fun s => { s with accesses := a :: s.accesses }

/-- The times from the first access of some code to its end are noted as those of
`ide_channel_poll`. -/
def polling {α : Type} (m : Io α) : Io α := fun s =>
  let (r, s') := m s
  (r, { s' with polled := s'.polled ++ List.range' s.time (s'.time + 1 - s.time) })

/-- The turns `0, …, n - 1` of a loop. -/
def turns (f : ℕ → Io Unit) : ℕ → Io Unit
  | 0 => pure ()
  | n + 1 => do
    turns f n
    f n

/-! ## Registers -/

/-- `ATA_REG_…`, the registers that are accessed. -/
abbrev ataRegSecCount0 : ℕ := 0x02

@[inherit_doc ataRegSecCount0]
abbrev ataRegLba0 : ℕ := 0x03

@[inherit_doc ataRegSecCount0]
abbrev ataRegLba1 : ℕ := 0x04

@[inherit_doc ataRegSecCount0]
abbrev ataRegLba2 : ℕ := 0x05

@[inherit_doc ataRegSecCount0]
abbrev ataRegHdDevSelect : ℕ := 0x06

@[inherit_doc ataRegSecCount0]
abbrev ataRegAltStatus : ℕ := 0x06

@[inherit_doc ataRegSecCount0]
abbrev ataRegError : ℕ := 0x01

@[inherit_doc ataRegSecCount0]
abbrev ataRegCommand : ℕ := 0x07

@[inherit_doc ataRegSecCount0]
abbrev ataRegStatus : ℕ := 0x07

/-- `ATA_STATUS_…`, the bits of the status register. -/
abbrev ataStatusError : UInt8 := 0x01

@[inherit_doc ataStatusError]
abbrev ataStatusDrq : UInt8 := 0x08

@[inherit_doc ataStatusError]
abbrev ataStatusDf : UInt8 := 0x20

@[inherit_doc ataStatusError]
abbrev ataStatusBusy : UInt8 := 0x80

/-- `ATA_CMD_…`, the commands. -/
abbrev ataCmdReadPio : UInt8 := 0x20

@[inherit_doc ataCmdReadPio]
abbrev ataCmdWritePio : UInt8 := 0x30

@[inherit_doc ataCmdReadPio]
abbrev ataCmdCacheFlush : UInt8 := 0xe7

/-- The fields of an `ide_channel_t` that are used. -/
structure IdeChannel where
  base : ℕ

/-- The fields of an `ide_device_t` that are used. -/
structure IdeDevice where
  exists' : Bool
  channel : ℕ
  drive : ℕ

/-- An `ide_control_t`. -/
structure IdeControl where
  channels : ℕ → IdeChannel
  devices : ℕ → IdeDevice

/-- The status has no `ATA_STATUS_BUSY`, or it has `ATA_STATUS_DRQ`. -/
def statusReady (status : UInt8) : Bool :=
  status &&& ataStatusBusy = 0 ∨ status &&& ataStatusDrq ≠ 0

/-- The status has `ATA_STATUS_ERROR` or `ATA_STATUS_DF`. -/
def statusHasError (status : UInt8) : Bool :=
  status &&& ataStatusError ≠ 0 ∨ status &&& ataStatusDf ≠ 0

section

variable (drive : Drive)

/-- `ide_reg_read`. -/
def ideRegRead (channel : IdeChannel) (reg : ℕ) : Io UInt8 := do
  let s ← get
  access (.inByte (channel.base + reg))
  return (drive s.time (channel.base + reg)).toUInt8

/-- `ide_reg_write`. -/
def ideRegWrite (channel : IdeChannel) (reg : ℕ) (data : UInt8) : Io Unit :=
  access (.outByte (channel.base + reg) data)

/-- `ide_define_access`. -/
def ideDefineAccess (channel : IdeChannel) (location count : ℕ) : Io Unit := do
  ideRegWrite channel ataRegSecCount0 count.toUInt8
  ideRegWrite channel ataRegLba0 (location &&& 0xff).toUInt8
  ideRegWrite channel ataRegLba1 ((location >>> 8) &&& 0xff).toUInt8
  ideRegWrite channel ataRegLba2 ((location >>> 16) &&& 0xff).toUInt8

/-- `ide_channel_ready`. -/
def ideChannelReady (channel : IdeChannel) : Io Bool := do
  let status ← ideRegRead drive channel ataRegStatus
  return statusReady status

/-- `ide_channel_has_error`. -/
def ideChannelHasError (channel : IdeChannel) : Io Bool := do
  let status ← ideRegRead drive channel ataRegStatus
  return statusHasError status

/-- The loop of `ide_channel_poll`. -/
def pollLoop (channel : IdeChannel) : ℕ → Io Unit
  | 0 => failure
  | fuel + 1 => do
    if ← ideChannelReady drive channel then return ()
    if ← ideChannelHasError drive channel then
      -- the register is only printed
      let _ ← ideRegRead drive channel ataRegError
      return ()
    pollLoop channel fuel

/-- `ide_channel_poll`. The message queue of the interrupts is left out. -/
def ideChannelPoll (fuel : ℕ) (channel : IdeChannel) : Io Unit := polling do
  turns (fun _ => do let _ ← ideRegRead drive channel ataRegAltStatus) 4
  pollLoop drive channel fuel

/-- The first loop of `ide_start_access`. -/
def readyLoop (channel : IdeChannel) : ℕ → Io Unit
  | 0 => failure
  | fuel + 1 => do
    if ← ideChannelReady drive channel then return ()
    readyLoop channel fuel

/-- `ide_start_access`. -/
def ideStartAccess (fuel : ℕ) (ctrl : IdeControl) (device : IdeDevice) (location count : ℕ)
    (command : UInt8) : Io Unit := do
  let channel := ctrl.channels device.channel
  readyLoop drive channel fuel
  ideRegWrite channel ataRegHdDevSelect
    (0xe0 ||| (device.drive <<< 4) ||| ((location >>> 24) &&& 0xf)).toUInt8
  ideDefineAccess channel location count
  ideRegWrite channel ataRegCommand command
  ideChannelPoll drive fuel channel

/-- A turn of the inner loop of `ide_pio_read`. -/
def readWord (channel : IdeChannel) (sector i : ℕ) : Io Unit := do
  let index := (sector * 256 + i) % wordSize
  let s ← get
  access (.inWord channel.base)
  modify fun s' =>
    { s' with buffer := Function.update s'.buffer index (drive s.time channel.base) }

/-- `ide_pio_read`. -/
def idePioRead (fuel : ℕ) (ctrl : IdeControl) (device : IdeDevice) (location count : ℕ) :
    Io Unit := do
  let channel := ctrl.channels device.channel
  ideStartAccess drive fuel ctrl device location count ataCmdReadPio
  turns (fun sector => do
    turns (readWord drive channel sector) 256
    ideChannelPoll drive fuel channel) count

/-- A turn of the inner loop of `ide_pio_write`. -/
def writeWord (channel : IdeChannel) (sector i : ℕ) : Io Unit := do
  let index := (sector * 256 + i) % wordSize
  let s ← get
  access (.outWord channel.base (s.buffer index))

/-- `ide_pio_write`. -/
def idePioWrite (fuel : ℕ) (ctrl : IdeControl) (device : IdeDevice) (location count : ℕ) :
    Io Unit := do
  let channel := ctrl.channels device.channel
  ideStartAccess drive fuel ctrl device location count ataCmdWritePio
  turns (fun sector => do
    turns (writeWord channel sector) 256
    ideChannelPoll drive fuel channel) count
  ideRegWrite channel ataRegCommand ataCmdCacheFlush

end

/-! ## Requests -/

/-- The type of a request: `BLOCK_MSG_READ` or `BLOCK_MSG_WRITE`. -/
inductive RequestType
  | read
  | write

/-- A request, with the words of its message. -/
structure Request where
  type : RequestType
  device : ℕ
  location : ℕ
  sectors : ℕ

/-- The reply to a request: `BLOCK_MSG_ERROR` or `BLOCK_MSG_COMPLETED`. -/
inductive Reply
  | error
  | completed
  deriving DecidableEq

/-- `ata_handle_access`, with the message that it sends. -/
def ataHandleAccess (drive : Drive) (fuel : ℕ) (ctrl : IdeControl) (request : Request) :
    Io Reply := do
  let device := ctrl.devices request.device
  if ¬ device.exists' then return .error
  match request.type with
  | .read => idePioRead drive fuel ctrl device request.location request.sectors
  | .write => idePioWrite drive fuel ctrl device request.location request.sectors
  return .completed

/-- The run of a request, over a buffer. -/
def run (drive : Drive) (fuel : ℕ) (ctrl : IdeControl) (buffer : ℕ → UInt16) (request : Request) :
    Option Reply × Bus :=
  ataHandleAccess drive fuel ctrl request ⟨[], [], buffer⟩

end C4OS.Ata
