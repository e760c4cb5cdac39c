import C4OS.Foundations.Bytes

/-!
# The ring buffer of the C4 runtime

The operations of `ringbuffer.c`, on the header of a `c4_ringbuf_t` and the bytes behind it.
All header fields are 32-bit unsigned, so the sums and differences of the source are taken
modulo `2 ^ 32`. The bytes `data[]` are followed by memory that does not belong to the buffer:
`extent` is the number of bytes that do, and an access at or past it has no result, as has a
reduction modulo a zero `size`, which traps on the machine. Addresses are 32-bit as well, so that
the last twelve indices lead back to the bytes of the header, which stands in front of `data[]`.
-/

namespace C4OS.Ringbuffer

open Foundations

/-- The number of values of a 32-bit word. -/
abbrev wordSize : ℕ := 2 ^ 32

/-- `sizeof(c4_ringbuf_t)`: three 32-bit words. -/
def sizeofRingbuf : ℕ := 12

/-- A `c4_ringbuf_t` and the memory of its `data[]`. -/
structure C4Ringbuf where
  readIndex : ℕ
  writeIndex : ℕ
  size : ℕ
  /-- The number of bytes of memory behind `data`. -/
  extent : ℕ
  data : ℕ → UInt8

/-- The first index whose address wraps around to the header. -/
abbrev headerStart : ℕ := wordSize - sizeofRingbuf

namespace C4Ringbuf

/-- The bytes of the header. -/
def header (buf : C4Ringbuf) : ℕ → UInt8 :=
  writeLE 4 (writeLE 4 (writeLE 4 (fun _ => 0) 0 buf.readIndex) 4 buf.writeIndex) 8 buf.size

/-- The buffer with other bytes in the header. -/
def setHeader (buf : C4Ringbuf) (bytes : ℕ → UInt8) : C4Ringbuf :=
  { buf with
    readIndex := readLE 4 bytes 0
    writeIndex := readLE 4 bytes 4
    size := readLE 4 bytes 8 }

/-- `data[i]`, read. -/
def load (buf : C4Ringbuf) (i : ℕ) : Option UInt8 :=
  if i < buf.extent then some (buf.data i)
  else if headerStart ≤ i ∧ i < wordSize then some (buf.header (i - headerStart))
  else none

/-- `data[i] = byte`. -/
def store (buf : C4Ringbuf) (i : ℕ) (byte : UInt8) : Option C4Ringbuf :=
  if i < buf.extent then some { buf with data := Function.update buf.data i byte }
  else if headerStart ≤ i ∧ i < wordSize then
    some (buf.setHeader (Function.update buf.header (i - headerStart) byte))
  else none

end C4Ringbuf

/-- `value % buf->size`; the machine traps on a zero size. -/
def mask (buf : C4Ringbuf) (value : ℕ) : Option ℕ :=
  if buf.size = 0 then none else some (value % buf.size)

/-- The index after `value`. -/
def increment (buf : C4Ringbuf) (value : ℕ) : Option ℕ :=
  mask buf ((value + 1) % wordSize)

/-- `c4_ringbuf_init`: the header of a buffer in `size` bytes of memory, and whether the size
was accepted. -/
def c4RingbufInit (buf : C4Ringbuf) (size : ℕ) : C4Ringbuf × Bool :=
  if size > sizeofRingbuf + 1 then
    ({ buf with readIndex := 0, writeIndex := 0, size := size - sizeofRingbuf }, true)
  else (buf, false)

/-- `c4_ringbuf_full`. -/
def c4RingbufFull (buf : C4Ringbuf) : Option Bool := do
  let next ← increment buf buf.writeIndex
  return next == buf.readIndex

/-- `c4_ringbuf_empty`. -/
def c4RingbufEmpty (buf : C4Ringbuf) : Bool := buf.readIndex == buf.writeIndex

/-- `c4_ringbuf_available`: the difference of the indices is reduced modulo `2 ^ 32` first and
modulo the size of the buffer then. -/
def c4RingbufAvailable (buf : C4Ringbuf) : Option ℕ := do
  let used ← mask buf ((buf.writeIndex + (wordSize - buf.readIndex)) % wordSize)
  return (buf.size + (wordSize - used)) % wordSize

/-- `c4_ringbuf_can_write`. -/
def c4RingbufCanWrite (buf : C4Ringbuf) (size : ℕ) : Option Bool := do
  let available ← c4RingbufAvailable buf
  return decide (size < available)

/-- `c4_ringbuf_can_read`. -/
def c4RingbufCanRead (buf : C4Ringbuf) (size : ℕ) : Option Bool := do
  let available ← c4RingbufAvailable buf
  return decide (size ≤ (buf.size + (wordSize - available)) % wordSize)

/-- `c4_ringbuf_put_byte`. -/
def c4RingbufPutByte (buf : C4Ringbuf) (byte : UInt8) : Option (C4Ringbuf × Bool) := do
  if ← c4RingbufFull buf then
    return (buf, false)
  else
    let buf ← buf.store buf.writeIndex byte
    let next ← increment buf buf.writeIndex
    return ({ buf with writeIndex := next }, true)

/-- `c4_ringbuf_get_byte`: the byte read, or nothing when the call returns false. -/
def c4RingbufGetByte (buf : C4Ringbuf) : Option (C4Ringbuf × Option UInt8) := do
  if c4RingbufEmpty buf then
    return (buf, none)
  else
    let byte ← buf.load buf.readIndex
    let next ← increment buf buf.readIndex
    return ({ buf with readIndex := next }, some byte)

/-- `c4_ringbuf_write`: puts the bytes one by one and stops at the first refusal; the result is
the number of bytes written. -/
def c4RingbufWrite (buf : C4Ringbuf) : List UInt8 → Option (C4Ringbuf × ℕ)
  | [] => some (buf, 0)
  | byte :: data => do
    let (buf, written) ← c4RingbufPutByte buf byte
    if written then
      let (buf, wrote) ← c4RingbufWrite buf data
      return (buf, wrote + 1)
    else
      return (buf, 0)

/-- `c4_ringbuf_read`: gets up to `size` bytes and stops when the buffer is empty; the result is
the bytes stored at the caller's pointer. -/
def c4RingbufRead (buf : C4Ringbuf) : ℕ → Option (C4Ringbuf × List UInt8)
  | 0 => some (buf, [])
  | size + 1 => do
    let (buf, byte) ← c4RingbufGetByte buf
    match byte with
    | none => return (buf, [])
    | some byte =>
      let (buf, bytes) ← c4RingbufRead buf size
      return (buf, byte :: bytes)

/-! ## Runs -/

/-- The calls that move bytes. -/
inductive Op
  | putByte (byte : UInt8)
  | getByte
  | write (data : List UInt8)
  | read (size : ℕ)

/-- A buffer with the history of its calls. -/
structure Trace where
  buf : C4Ringbuf
  /-- The bytes accepted by the writing calls, in order. -/
  accepted : List UInt8
  /-- The bytes returned by the reading calls, in order. -/
  returned : List UInt8

namespace Trace

/-- The number of bytes written and not yet read. -/
def queued (t : Trace) : ℕ := t.accepted.length - t.returned.length

/-- One call. -/
def step (t : Trace) : Op → Option Trace
  | .putByte byte => do
    let (buf, written) ← c4RingbufPutByte t.buf byte
    return ⟨buf, t.accepted ++ if written then [byte] else [], t.returned⟩
  | .getByte => do
    let (buf, byte) ← c4RingbufGetByte t.buf
    return ⟨buf, t.accepted, t.returned ++ byte.toList⟩
  | .write data => do
    let (buf, wrote) ← c4RingbufWrite t.buf data
    return ⟨buf, t.accepted ++ data.take wrote, t.returned⟩
  | .read size => do
    let (buf, bytes) ← c4RingbufRead t.buf size
    return ⟨buf, t.accepted, t.returned ++ bytes⟩

end Trace

/-- The traces of a buffer that `c4_ringbuf_init` set up in `size` bytes of memory. -/
inductive Reachable (size : ℕ) : Trace → Prop
  | init (raw : C4Ringbuf) {buf : C4Ringbuf} (hsize : size < wordSize)
      (hmem : raw.extent + sizeofRingbuf = size) (h : c4RingbufInit raw size = (buf, true)) :
      Reachable size ⟨buf, [], []⟩
  | step {t t' : Trace} (op : Op) (ht : Reachable size t) (h : t.step op = some t') :
      Reachable size t'

end C4OS.Ringbuffer
