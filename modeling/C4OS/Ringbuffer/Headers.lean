import C4OS.Ringbuffer.Model
import Mathlib.Tactic.IntervalCases

/-!
# Foreign headers

A server shares the page of a ring buffer with its client, and works on the header that it finds
there. The buffer fills the page behind the header, so `extent` is the number of bytes there, and an
operation has no result when it divides by zero or leaves the page. `OpsSafe` says that all
operations of the server have results, for requests of any length.

`opsSafe_iff` says which headers are safe (`HeaderFits`). The operations check nothing, so these are
those that `c4_ringbuf_init` could have left behind and few others: `size` must not be zero and must
not reach out of the page by more than one byte, and both indices must be in the page. The bytes of
the header are in the page too. To read them is harmless, but a byte that is written there changes a
field before the write index goes on (`WrapFits`).
-/

namespace C4OS.Ringbuffer

open Foundations

variable {buf buf' : C4Ringbuf}

theorem wordSize_eq : wordSize = 4294967296 := rfl

theorem headerStart_eq : headerStart = 4294967284 := rfl

/-- The operations of a server on the buffer have results, whatever their lengths.
`c4_ringbuf_empty` compares two fields of the header and always has one. -/
structure OpsSafe (buf : C4Ringbuf) : Prop where
  canRead : ∀ n < wordSize, (c4RingbufCanRead buf n).isSome
  canWrite : ∀ n < wordSize, (c4RingbufCanWrite buf n).isSome
  read : ∀ n < wordSize, (c4RingbufRead buf n).isSome
  write : ∀ data : List UInt8, data.length < wordSize → (c4RingbufWrite buf data).isSome

/-- The fields of the header are words. -/
structure Words (buf : C4Ringbuf) : Prop where
  readIndex : buf.readIndex < wordSize
  writeIndex : buf.writeIndex < wordSize
  size : buf.size < wordSize

/-- The index of a byte in the page, behind the header or of the header. -/
def InPage (extent i : ℕ) : Prop := i < extent ∨ (headerStart ≤ i ∧ i < wordSize)

/-- The index after `i` in a buffer of `size` bytes. -/
abbrev nextIndex (size i : ℕ) : ℕ := (i + 1) % wordSize % size

/-- The write index leads to a byte of the header that may be overwritten: one of the indices, or
the lowest or the highest byte of `size`. A size that has become longer than the page has to be met
by the read index. -/
def WrapFits (buf : C4Ringbuf) : Prop :=
  (headerStart ≤ buf.writeIndex ∧ buf.writeIndex < headerStart + 8) ∨
  -- sizes up to 4095 can follow those from 3840 on, and the write index comes to 2378 at most
  (buf.writeIndex = headerStart + 8 ∧ 256 ≤ buf.size ∧
    (buf.size < 3840 ∨ (2378 < buf.readIndex ∧ buf.readIndex < buf.extent))) ∨
  (buf.writeIndex = headerStart + 11 ∧ 0 < buf.readIndex ∧ buf.readIndex < buf.extent)

/-- The header describes a buffer inside the page. Where the write index is not behind the header,
the buffer has to look full, or the header may be overwritten. One byte more than the page has is
harmless while the read index is zero: the write index stops in front of it. -/
def HeaderFits (buf : C4Ringbuf) : Prop :=
  (0 < buf.size ∧ buf.size ≤ buf.extent ∧ InPage buf.extent buf.readIndex ∧
    (buf.writeIndex < buf.extent ∨ nextIndex buf.size buf.writeIndex = buf.readIndex ∨
      WrapFits buf)) ∨
  (buf.size = buf.extent + 1 ∧ buf.readIndex = 0 ∧ buf.writeIndex ≤ buf.extent)

/-! ## One byte -/

theorem nextIndex_eq {size i : ℕ} (hlt : i + 1 < wordSize) (hi : i + 1 < size) :
    nextIndex size i = i + 1 := by
  rw [nextIndex, Nat.mod_eq_of_lt hlt, Nat.mod_eq_of_lt hi]

theorem nextIndex_of_lt {size i : ℕ} (hlt : size < wordSize) (hi : i + 1 < size) :
    nextIndex size i = i + 1 :=
  nextIndex_eq (Nat.lt_trans hi hlt) hi

theorem nextIndex_last {size i : ℕ} (hlt : i + 1 < wordSize) (hi : i + 1 = size) :
    nextIndex size i = 0 := by
  rw [nextIndex, Nat.mod_eq_of_lt hlt, hi, Nat.mod_self]

theorem increment_of_pos (h : 0 < buf.size) (i : ℕ) :
    increment buf i = some (nextIndex buf.size i) := by
  rw [increment, mask, if_neg (Nat.ne_of_gt h)]

theorem full_eq_of_pos (h : 0 < buf.size) : c4RingbufFull buf =
    some (decide (nextIndex buf.size buf.writeIndex = buf.readIndex)) := by
  rw [c4RingbufFull, increment_of_pos h]
  rfl

theorem putByte_of_full (h : 0 < buf.size) (byte : UInt8)
    (hfull : nextIndex buf.size buf.writeIndex = buf.readIndex) :
    c4RingbufPutByte buf byte = some (buf, false) := by
  rw [c4RingbufPutByte, full_eq_of_pos h, decide_eq_true hfull]
  rfl

/-- What `c4_ringbuf_put_byte` does after it has stored the byte. -/
theorem putByte_of_store (h : 0 < buf.size) {byte : UInt8}
    (hfull : nextIndex buf.size buf.writeIndex ≠ buf.readIndex)
    (hstore : buf.store buf.writeIndex byte = some buf') (hpos : 0 < buf'.size) :
    c4RingbufPutByte buf byte =
      some ({ buf' with writeIndex := nextIndex buf'.size buf'.writeIndex }, true) := by
  rw [c4RingbufPutByte, full_eq_of_pos h, decide_eq_false hfull]
  simp only [Option.bind_eq_bind, Option.bind_some, Bool.false_eq_true, if_false, hstore,
    increment_of_pos hpos, Option.pure_def]

theorem putByte_of_data (h : 0 < buf.size) (byte : UInt8)
    (hfull : nextIndex buf.size buf.writeIndex ≠ buf.readIndex)
    (hw : buf.writeIndex < buf.extent) :
    c4RingbufPutByte buf byte = some ({ buf with
      data := Function.update buf.data buf.writeIndex byte
      writeIndex := nextIndex buf.size buf.writeIndex }, true) :=
  putByte_of_store h hfull (if_pos hw) h

theorem putByte_eq_none (h : 0 < buf.size) (byte : UInt8)
    (hfull : nextIndex buf.size buf.writeIndex ≠ buf.readIndex)
    (hw : ¬ InPage buf.extent buf.writeIndex) : c4RingbufPutByte buf byte = none := by
  rw [InPage, not_or] at hw
  rw [c4RingbufPutByte, full_eq_of_pos h, decide_eq_false hfull]
  simp only [Option.bind_eq_bind, Option.bind_some, Bool.false_eq_true, if_false,
    C4Ringbuf.store, if_neg hw.1, if_neg hw.2, Option.bind_none]

theorem getByte_of_empty (h : buf.readIndex = buf.writeIndex) :
    c4RingbufGetByte buf = some (buf, none) := by
  rw [c4RingbufGetByte, c4RingbufEmpty, h, beq_self_eq_true, if_pos rfl]
  rfl

theorem getByte_of_ne (h : 0 < buf.size) (hne : buf.readIndex ≠ buf.writeIndex)
    (hr : InPage buf.extent buf.readIndex) : ∃ byte, c4RingbufGetByte buf =
      some ({ buf with readIndex := nextIndex buf.size buf.readIndex }, some byte) := by
  obtain ⟨byte, hload⟩ : ∃ byte, buf.load buf.readIndex = some byte := by
    rw [C4Ringbuf.load]
    by_cases hdata : buf.readIndex < buf.extent
    · exact ⟨_, if_pos hdata⟩
    · rw [if_neg hdata, if_pos (hr.resolve_left hdata)]
      exact ⟨_, rfl⟩
  refine ⟨byte, ?_⟩
  rw [c4RingbufGetByte, c4RingbufEmpty, beq_false_of_ne hne, if_neg Bool.false_ne_true, hload]
  simp only [Option.bind_eq_bind, Option.bind_some, increment_of_pos h, Option.pure_def]

theorem getByte_eq_none (hne : buf.readIndex ≠ buf.writeIndex)
    (hr : ¬ InPage buf.extent buf.readIndex) : c4RingbufGetByte buf = none := by
  rw [InPage, not_or] at hr
  rw [c4RingbufGetByte, c4RingbufEmpty, beq_false_of_ne hne, if_neg Bool.false_ne_true,
    C4Ringbuf.load, if_neg hr.1, if_neg hr.2]
  rfl

/-! ## The loops -/

theorem write_of_full {byte : UInt8} (h : c4RingbufPutByte buf byte = some (buf, false))
    (data : List UInt8) : (c4RingbufWrite buf (byte :: data)).isSome := by
  rw [c4RingbufWrite, h]
  rfl

theorem write_of_put {byte : UInt8} (h : c4RingbufPutByte buf byte = some (buf', true))
    (data : List UInt8) :
    (c4RingbufWrite buf (byte :: data)).isSome = (c4RingbufWrite buf' data).isSome := by
  rw [c4RingbufWrite, h]
  cases hrest : c4RingbufWrite buf' data <;> simp [hrest]

theorem write_eq_none_of_put {byte : UInt8} (h : c4RingbufPutByte buf byte = some (buf', true))
    {data : List UInt8} (hrest : c4RingbufWrite buf' data = none) :
    c4RingbufWrite buf (byte :: data) = none := by
  rw [← Option.not_isSome_iff_eq_none, write_of_put h, hrest]
  simp

theorem write_eq_none_of_none {byte : UInt8} (h : c4RingbufPutByte buf byte = none)
    (data : List UInt8) : c4RingbufWrite buf (byte :: data) = none := by
  rw [c4RingbufWrite, h]
  rfl

theorem read_of_get {byte : UInt8} (h : c4RingbufGetByte buf = some (buf', some byte)) (n : ℕ) :
    (c4RingbufRead buf (n + 1)).isSome = (c4RingbufRead buf' n).isSome := by
  rw [c4RingbufRead, h]
  cases hrest : c4RingbufRead buf' n <;> simp [hrest]

theorem read_eq_none_of_get {byte : UInt8} (h : c4RingbufGetByte buf = some (buf', some byte))
    {n : ℕ} (hrest : c4RingbufRead buf' n = none) : c4RingbufRead buf (n + 1) = none := by
  rw [← Option.not_isSome_iff_eq_none, read_of_get h, hrest]
  simp

theorem read_eq_none_of_none (h : c4RingbufGetByte buf = none) (n : ℕ) :
    c4RingbufRead buf (n + 1) = none := by
  rw [c4RingbufRead, h]
  rfl

/-! ## Bytes over the header -/

/-- The buffer after a byte was stored at a write index that leads to the header. -/
def C4Ringbuf.over (buf : C4Ringbuf) (byte : UInt8) : C4Ringbuf :=
  buf.setHeader (Function.update buf.header (buf.writeIndex - headerStart) byte)

theorem C4Ringbuf.over_extent (buf : C4Ringbuf) (byte : UInt8) :
    (buf.over byte).extent = buf.extent := by
  rw [C4Ringbuf.over, C4Ringbuf.setHeader]

theorem store_over (hext : buf.extent ≤ headerStart) (h : headerStart ≤ buf.writeIndex)
    (hlt : buf.writeIndex < wordSize) (byte : UInt8) :
    buf.store buf.writeIndex byte = some (buf.over byte) := by
  rw [C4Ringbuf.store, if_neg (by omega), if_pos ⟨h, hlt⟩, C4Ringbuf.over]

namespace Words

/-- The fields as numbers in the bytes of the header. -/
theorem readLE_header (h : Words buf) : readLE 4 buf.header 0 = buf.readIndex ∧
    readLE 4 buf.header 4 = buf.writeIndex ∧ readLE 4 buf.header 8 = buf.size := by
  have hword : 256 ^ 4 = wordSize := by decide
  refine ⟨?_, ?_, ?_⟩
  · rw [C4Ringbuf.header, readLE_writeLE_of_disjoint (by omega),
      readLE_writeLE_of_disjoint (by omega), readLE_writeLE_of_lt (hword ▸ h.readIndex)]
  · rw [C4Ringbuf.header, readLE_writeLE_of_disjoint (by omega),
      readLE_writeLE_of_lt (hword ▸ h.writeIndex)]
  · rw [C4Ringbuf.header, readLE_writeLE_of_lt (hword ▸ h.size)]

/-- Over the indices the size does not change. -/
theorem over_size (h : Words buf) (hw : buf.writeIndex < headerStart + 8) (byte : UInt8) :
    (buf.over byte).size = buf.size := by
  show readLE 4 (Function.update _ _ _) 8 = _
  rw [readLE_update_of_notMem (by omega)]
  exact h.readLE_header.2.2

/-- Over a byte of the size the indices do not change. -/
theorem over_byte (h : Words buf) {i : ℕ} (hi : i < 4) (hw : buf.writeIndex = headerStart + 8 + i)
    (byte : UInt8) : (buf.over byte).readIndex = buf.readIndex ∧
      (buf.over byte).writeIndex = buf.writeIndex ∧
      (buf.over byte).size + buf.size / 256 ^ i % 256 * 256 ^ i =
        buf.size + byte.toNat * 256 ^ i := by
  have hindex : buf.writeIndex - headerStart = 8 + i := by omega
  have hbyte : (buf.header (8 + i)).toNat = buf.size / 256 ^ i % 256 := by
    rw [C4Ringbuf.header, writeLE, if_pos (by omega), Nat.add_sub_cancel_left, UInt8.toNat_ofNat']
  obtain ⟨hr, hwrite, hsize⟩ := h.readLE_header
  refine ⟨?_, ?_, ?_⟩
  · show readLE 4 (Function.update _ _ _) 0 = _
    rw [hindex, readLE_update_of_notMem (by omega), hr]
  · show readLE 4 (Function.update _ _ _) 4 = _
    rw [hindex, readLE_update_of_notMem (by omega), hwrite]
  · have hupdate := readLE_update (f := buf.header) (a := 8) hi byte
    rw [hbyte, hsize] at hupdate
    rw [← hupdate, C4Ringbuf.over, hindex]
    rfl

/-- The byte that is there can be stored again. -/
theorem over_self (h : Words buf) : buf.over (buf.header (buf.writeIndex - headerStart)) = buf := by
  obtain ⟨hr, hw, hsize⟩ := h.readLE_header
  rw [C4Ringbuf.over, Function.update_eq_self, C4Ringbuf.setHeader, hr, hw, hsize]

end Words

/-! ## Headers that fit -/

/-- The write index stays behind the header and in the page: it goes round there, or stops in front
of the read index. -/
def Settled (buf : C4Ringbuf) : Prop :=
  (0 < buf.size ∧ buf.size ≤ buf.extent ∧ buf.writeIndex < buf.extent) ∨
  (buf.extent < buf.size ∧ buf.writeIndex < buf.readIndex ∧ buf.readIndex ≤ buf.extent) ∨
  (buf.size = buf.extent + 1 ∧ buf.readIndex = 0 ∧ buf.writeIndex ≤ buf.extent)

namespace Settled

theorem pos (h : Settled buf) : 0 < buf.size := by
  rcases h with h | h | h <;> omega

/-- The write index goes on in a buffer that ends in the page. -/
theorem of_short (hpos : 0 < buf.size) (hle : buf.size ≤ buf.extent) :
    Settled { buf with writeIndex := nextIndex buf.size buf.writeIndex } :=
  .inl ⟨hpos, hle, Nat.lt_of_lt_of_le (Nat.mod_lt _ hpos) hle⟩

/-- The write index goes on in a longer buffer, and has the read index before it. -/
theorem of_long (hlong : buf.extent < buf.size)
    (hnext : nextIndex buf.size buf.writeIndex < buf.readIndex) (hr : buf.readIndex ≤ buf.extent) :
    Settled { buf with writeIndex := nextIndex buf.size buf.writeIndex } :=
  .inr (.inl ⟨hlong, hnext, hr⟩)

/-- A byte that is written leaves the write index settled. -/
theorem pushed (h : Settled buf) (hlt : buf.extent + 1 < wordSize)
    (hfull : nextIndex buf.size buf.writeIndex ≠ buf.readIndex) (data : ℕ → UInt8) :
    buf.writeIndex < buf.extent ∧
      Settled { buf with data, writeIndex := nextIndex buf.size buf.writeIndex } := by
  rcases h with ⟨hpos, hle, hw⟩ | ⟨hsize, hw, hr⟩ | ⟨hsize, hr, hw⟩
  · exact ⟨hw, @of_short { buf with data } hpos hle⟩
  · have hnext : nextIndex buf.size buf.writeIndex = buf.writeIndex + 1 :=
      nextIndex_eq (by omega) (by omega)
    have hbefore : nextIndex buf.size buf.writeIndex < buf.readIndex := by omega
    exact ⟨by omega, @of_long { buf with data } hsize hbefore hr⟩
  · -- the write index has not reached the byte behind the page, where the buffer is full
    have hne : buf.writeIndex ≠ buf.extent := fun he =>
      hfull ((nextIndex_last (by omega) (by omega)).trans hr.symm)
    have hnext : nextIndex buf.size buf.writeIndex = buf.writeIndex + 1 :=
      nextIndex_eq (by omega) (by omega)
    refine ⟨by omega, .inr (.inr ⟨hsize, hr, ?_⟩)⟩
    show nextIndex buf.size buf.writeIndex ≤ buf.extent
    omega

theorem write (data : List UInt8) (h : Settled buf) (hlt : buf.extent + 1 < wordSize) :
    (c4RingbufWrite buf data).isSome := by
  induction data generalizing buf with
  | nil => rfl
  | cons byte data ih =>
    by_cases hfull : nextIndex buf.size buf.writeIndex = buf.readIndex
    · exact write_of_full (putByte_of_full h.pos byte hfull) data
    · obtain ⟨hw, hnext⟩ := h.pushed hlt hfull (Function.update buf.data buf.writeIndex byte)
      rw [write_of_put (putByte_of_data h.pos byte hfull hw)]
      exact ih hnext hlt

end Settled

/-- A byte over the header leaves the write index settled. -/
theorem WrapFits.settled (h : WrapFits buf) (hwords : Words buf) (hext : buf.extent = 4084)
    (hpos : 0 < buf.size) (hle : buf.size ≤ buf.extent) (byte : UInt8) :
    0 < (buf.over byte).size ∧ Settled { buf.over byte with
      writeIndex := nextIndex (buf.over byte).size (buf.over byte).writeIndex } := by
  have hbyte := byte.toNat_lt
  have hext' := buf.over_extent byte
  rcases h with ⟨-, hw⟩ | ⟨hw, hlow, hr⟩ | ⟨hw, hr⟩
  · -- the size is that of a buffer in the page
    have hsize := hwords.over_size hw byte
    exact ⟨by omega, .of_short (by omega) (by omega)⟩
  · -- the write index goes on to the same places in all sizes that are too long
    obtain ⟨hread, hwrite, hsize⟩ := hwords.over_byte (i := 0) (by decide) hw byte
    rw [Nat.pow_zero, Nat.div_one, Nat.mul_one, Nat.mul_one] at hsize
    refine ⟨by omega, ?_⟩
    rcases Nat.lt_or_ge (buf.over byte).extent (buf.over byte).size with hlong | hshort
    · have hlast : ∀ size, 4084 < size → size < 4096 → nextIndex size (headerStart + 8) ≤ 2378 := by
        intro size h₁ h₂
        interval_cases size <;> decide
      have hnext := hlast (buf.over byte).size (by omega) (by omega)
      rw [← hw, ← hwrite] at hnext
      exact .of_long hlong (by omega) (by omega)
    · exact .of_short (by omega) hshort
  · -- the write index goes on to the first byte
    obtain ⟨hread, hwrite, hsize⟩ := hwords.over_byte (i := 3) (by decide) hw byte
    have hnext : nextIndex (buf.over byte).size (buf.over byte).writeIndex = 0 := by
      rw [hwrite, hw]
      exact Nat.zero_mod _
    have hhigh : buf.size / 256 ^ 3 = 0 := Nat.div_eq_of_lt (by omega)
    rw [hhigh] at hsize
    refine ⟨by omega, ?_⟩
    rcases Nat.lt_or_ge (buf.over byte).extent (buf.over byte).size with hlong | hshort
    · exact .of_long hlong (by omega) (by omega)
    · exact .of_short (by omega) hshort

theorem HeaderFits.pos (h : HeaderFits buf) : 0 < buf.size := by
  rcases h with h | h <;> omega

theorem HeaderFits.write (h : HeaderFits buf) (hwords : Words buf) (hext : buf.extent = 4084)
    (data : List UInt8) : (c4RingbufWrite buf data).isSome := by
  have hstart := headerStart_eq
  have hlt : buf.extent + 1 < wordSize := by
    rw [wordSize_eq]
    omega
  rcases h with ⟨hpos, hle, -, hw | hfull | hwrap⟩ | ⟨hsize, hr, hw⟩
  · exact Settled.write data (.inl ⟨hpos, hle, hw⟩) hlt
  · cases data with
    | nil => rfl
    | cons byte data => exact write_of_full (putByte_of_full hpos byte hfull) data
  · cases data with
    | nil => rfl
    | cons byte data =>
      by_cases hfull : nextIndex buf.size buf.writeIndex = buf.readIndex
      · exact write_of_full (putByte_of_full hpos byte hfull) data
      · have hw : headerStart ≤ buf.writeIndex := by
          rcases hwrap with h | h | h <;> omega
        obtain ⟨hpos', hsettled⟩ := hwrap.settled hwords hext hpos hle byte
        have hstore := store_over (by omega) hw hwords.writeIndex byte
        rw [write_of_put (putByte_of_store hpos hfull hstore hpos')]
        apply hsettled.write
        simpa only [C4Ringbuf.over_extent] using hlt
  · exact Settled.write data (.inr (.inr ⟨hsize, hr, hw⟩)) hlt

/-- The part of `HeaderFits` that reading needs, and keeps. -/
def ReadFits (buf : C4Ringbuf) : Prop :=
  (0 < buf.size ∧ buf.size ≤ buf.extent ∧ InPage buf.extent buf.readIndex) ∨
  (buf.size = buf.extent + 1 ∧ buf.readIndex ≤ buf.writeIndex ∧ buf.writeIndex ≤ buf.extent)

theorem HeaderFits.readFits (h : HeaderFits buf) : ReadFits buf := by
  rcases h with ⟨hpos, hle, hr, -⟩ | ⟨hsize, hr, hw⟩
  · exact .inl ⟨hpos, hle, hr⟩
  · exact .inr ⟨hsize, by omega, hw⟩

namespace ReadFits

/-- A byte that is read leaves a header that fits. -/
theorem popped (h : ReadFits buf) (hlt : buf.extent + 1 < wordSize)
    (hne : buf.readIndex ≠ buf.writeIndex) :
    0 < buf.size ∧ InPage buf.extent buf.readIndex ∧
      ReadFits { buf with readIndex := nextIndex buf.size buf.readIndex } := by
  rcases h with ⟨hpos, hle, hr⟩ | ⟨hsize, hr, hw⟩
  · have hnext : nextIndex buf.size buf.readIndex < buf.size := Nat.mod_lt _ hpos
    exact ⟨hpos, hr, .inl ⟨hpos, hle, .inl (Nat.lt_of_lt_of_le hnext hle)⟩⟩
  · have hnext : nextIndex buf.size buf.readIndex = buf.readIndex + 1 :=
      nextIndex_eq (by omega) (by omega)
    refine ⟨by omega, .inl (by omega), .inr ⟨hsize, ?_, hw⟩⟩
    show nextIndex buf.size buf.readIndex ≤ buf.writeIndex
    omega

theorem read (n : ℕ) (h : ReadFits buf) (hlt : buf.extent + 1 < wordSize) :
    (c4RingbufRead buf n).isSome := by
  induction n generalizing buf with
  | zero => rfl
  | succ n ih =>
    by_cases hne : buf.readIndex = buf.writeIndex
    · rw [c4RingbufRead, getByte_of_empty hne]
      rfl
    · obtain ⟨hpos, hr, hnext⟩ := h.popped hlt hne
      obtain ⟨byte, hget⟩ := getByte_of_ne hpos hne hr
      rw [read_of_get hget]
      exact ih hnext hlt

end ReadFits

theorem available_isSome (h : 0 < buf.size) : ∃ n, c4RingbufAvailable buf = some n := by
  rw [c4RingbufAvailable, mask, if_neg (Nat.ne_of_gt h)]
  exact ⟨_, rfl⟩

/-- Headers that fit are safe. -/
theorem HeaderFits.opsSafe (h : HeaderFits buf) (hwords : Words buf) (hext : buf.extent = 4084) :
    OpsSafe buf := by
  obtain ⟨available, hav⟩ := available_isSome h.pos
  constructor
  · intro n _
    rw [c4RingbufCanRead, hav]
    rfl
  · intro n _
    rw [c4RingbufCanWrite, hav]
    rfl
  · exact fun n _ => h.readFits.read n (by rw [wordSize_eq]; omega)
  · exact fun data _ => h.write hwords hext data

/-! ## Headers that do not fit -/

/-- The index after the last one of the buffer, or one behind it, is not in the header. -/
theorem nextIndex_of_ge {size i : ℕ} (hsize : 4084 < size) (hi : size ≤ i + 1)
    (hlt : i < wordSize) : nextIndex size i + 1 < headerStart := by
  have hword := wordSize_eq
  have hstart := headerStart_eq
  have hle : (i + 1) % wordSize ≤ i + 1 := Nat.mod_le _ _
  rcases Nat.lt_or_ge ((i + 1) % wordSize) size with h | h
  · have hzero : i + 1 = wordSize := by
      by_contra hne
      rw [Nat.mod_eq_of_lt (by omega)] at h
      omega
    rw [nextIndex, hzero, Nat.mod_self, Nat.zero_mod]
    decide
  · have hsub : nextIndex size i ≤ (i + 1) % wordSize - size := by
      rw [nextIndex, Nat.mod_eq_sub_mod h]
      exact Nat.mod_le _ _
    have hmod := Nat.mod_lt (i + 1) (show 0 < wordSize by decide)
    omega

theorem not_inPage {i : ℕ} (h : buf.extent ≤ i) (hi : i < headerStart) :
    ¬ InPage buf.extent i := by
  rw [InPage]
  omega

/-- Behind the write index the buffer goes on past the end of the page. -/
theorem read_eq_none {k : ℕ} (hext : buf.extent = 4084) (hsize : buf.extent < buf.size)
    (hlt : buf.size < wordSize) (hr : buf.readIndex + k = buf.extent)
    (hw : buf.writeIndex < buf.readIndex ∨ buf.extent < buf.writeIndex) :
    c4RingbufRead buf (k + 1) = none := by
  have hstart := headerStart_eq
  induction k generalizing buf with
  | zero =>
    apply read_eq_none_of_none
    exact getByte_eq_none (by omega) (not_inPage (by omega) (by omega))
  | succ k ih =>
    have hpos : 0 < buf.size := by omega
    have hnext : nextIndex buf.size buf.readIndex = buf.readIndex + 1 :=
      nextIndex_of_lt hlt (by omega)
    obtain ⟨byte, hget⟩ := getByte_of_ne hpos (by omega) (.inl (by omega))
    rw [hnext] at hget
    apply read_eq_none_of_get hget
    exact ih hext hsize hlt (by show buf.readIndex + 1 + k = buf.extent; omega)
      (by show buf.writeIndex < buf.readIndex + 1 ∨ buf.extent < buf.writeIndex; omega)

/-- With the read index behind it, or in the header, the write index goes on past the end of the
page. -/
theorem write_eq_none {k : ℕ} (hext : buf.extent = 4084) (hsize : buf.extent < buf.size)
    (hlt : buf.size < wordSize) (hw : buf.writeIndex + k = buf.extent)
    (hr : buf.readIndex ≤ buf.writeIndex ∨ buf.extent + 1 < buf.readIndex)
    (hend : ¬ (buf.size = buf.extent + 1 ∧ buf.readIndex = 0)) :
    c4RingbufWrite buf (List.replicate (k + 1) 0) = none := by
  have hstart := headerStart_eq
  induction k generalizing buf with
  | zero =>
    have hfull : nextIndex buf.size buf.writeIndex ≠ buf.readIndex := by
      rcases Nat.lt_or_eq_of_le (show buf.writeIndex + 1 ≤ buf.size by omega) with h | h
      · rw [nextIndex_of_lt hlt h]
        omega
      · rw [nextIndex_last (h ▸ hlt) h]
        omega
    rw [List.replicate_succ]
    apply write_eq_none_of_none
    exact putByte_eq_none (by omega) 0 hfull (not_inPage (by omega) (by omega))
  | succ k ih =>
    have hpos : 0 < buf.size := by omega
    have hnext : nextIndex buf.size buf.writeIndex = buf.writeIndex + 1 :=
      nextIndex_of_lt hlt (by omega)
    have hput := putByte_of_data hpos 0 (by omega) (by omega)
    rw [hnext] at hput
    rw [List.replicate_succ]
    apply write_eq_none_of_put hput
    exact ih hext hsize hlt (by show buf.writeIndex + 1 + k = buf.extent; omega)
      (by show buf.readIndex ≤ buf.writeIndex + 1 ∨ buf.extent + 1 < buf.readIndex; omega) hend

/-! ## Sizes that are overwritten -/

theorem putByte_of_zero (h : 0 < buf.size) {byte : UInt8}
    (hfull : nextIndex buf.size buf.writeIndex ≠ buf.readIndex)
    (hstore : buf.store buf.writeIndex byte = some buf') (hzero : buf'.size = 0) :
    c4RingbufPutByte buf byte = none := by
  rw [c4RingbufPutByte, full_eq_of_pos h, decide_eq_false hfull]
  simp only [Option.bind_eq_bind, Option.bind_some, Bool.false_eq_true, if_false, hstore,
    increment, mask, if_pos hzero, Option.bind_none]

/-- A write index over the size, in a buffer inside the page that does not look full. -/
structure OverSize (buf : C4Ringbuf) (i : ℕ) : Prop where
  words : Words buf
  extent : buf.extent = 4084
  pos : 0 < buf.size
  size_le : buf.size ≤ 4084
  inPage : InPage buf.extent buf.readIndex
  not_full : nextIndex buf.size buf.writeIndex ≠ buf.readIndex
  byte_lt : i < 4
  writeIndex : buf.writeIndex = headerStart + 8 + i

namespace OverSize

variable {i : ℕ}

/-- What is stored there makes a size of zero, or one for which the rest is not written. -/
theorem write_eq_none (h : OverSize buf i) (byte : UInt8) {data : List UInt8}
    (hrest : ∀ b : C4Ringbuf, b.extent = 4084 → b.readIndex = buf.readIndex → 0 < b.size →
      b.size + buf.size / 256 ^ i % 256 * 256 ^ i = buf.size + byte.toNat * 256 ^ i →
      b.writeIndex = nextIndex b.size (headerStart + 8 + i) → c4RingbufWrite b data = none) :
    c4RingbufWrite buf (byte :: data) = none := by
  have hw := h.writeIndex
  have hstart := headerStart_eq
  have hext := h.extent
  have hstore := store_over (by omega) (by omega) h.words.writeIndex byte
  obtain ⟨hread, hwrite, hsize⟩ := h.words.over_byte h.byte_lt hw byte
  rcases Nat.eq_zero_or_pos (buf.over byte).size with hzero | hpos
  · exact write_eq_none_of_none (putByte_of_zero h.pos h.not_full hstore hzero) data
  · apply write_eq_none_of_put (putByte_of_store h.pos h.not_full hstore hpos)
    refine hrest _ ?_ hread hpos hsize ?_
    · simpa only [C4Ringbuf.over_extent] using hext
    · rw [hwrite, hw]

/-- The lowest byte, with a size of one byte only, or with one that can come to lie behind the
page. -/
theorem lowest (h : OverSize buf 0) (hfit : ¬ (256 ≤ buf.size ∧ (buf.size < 3840 ∨
      (2378 < buf.readIndex ∧ buf.readIndex < buf.extent)))) :
    ∃ data, data.length < wordSize ∧ c4RingbufWrite buf data = none := by
  have hext := h.extent
  have hle := h.size_le
  have hword := wordSize_eq
  have hstart := headerStart_eq
  have hr : buf.readIndex < buf.extent ∨ headerStart ≤ buf.readIndex :=
    h.inPage.imp_right And.left
  rcases Nat.lt_or_ge buf.size 256 with hlow | hhigh
  · refine ⟨[0], by decide, h.write_eq_none 0 fun b _ _ hpos hsize _ => ?_⟩
    have hbyte : (0 : UInt8).toNat = 0 := rfl
    omega
  · -- with a size of 4085 or 4086 the write index does not meet the read index
    obtain ⟨byte, hbyte, hnext, hend⟩ : ∃ byte : UInt8, 245 ≤ byte.toNat ∧
        (nextIndex (3840 + byte.toNat) (headerStart + 8) ≤ 2378 ∧
          (buf.readIndex ≤ nextIndex (3840 + byte.toNat) (headerStart + 8) ∨
            buf.extent + 1 < buf.readIndex)) ∧
        ¬ (byte.toNat = 245 ∧ buf.readIndex = 0) := by
      rcases Nat.eq_zero_or_pos buf.readIndex with hzero | hpos
      · exact ⟨246, by decide, ⟨by decide, .inl (by omega)⟩, fun h => absurd h.1 (by decide)⟩
      · have hplace : nextIndex (3840 + (245 : UInt8).toNat) (headerStart + 8) = 2378 := by decide
        exact ⟨245, by decide, ⟨by omega, by omega⟩, by omega⟩
    refine ⟨byte :: List.replicate
      (4084 - nextIndex (3840 + byte.toNat) (headerStart + 8) + 1) 0, ?_, ?_⟩
    · rw [List.length_cons, List.length_replicate]
      omega
    · apply h.write_eq_none
      intro b hbext hbread hpos hsize hplace
      have hbsize : b.size = 3840 + byte.toNat := by omega
      have hlt := byte.toNat_lt
      rw [Nat.add_zero, hbsize] at hplace
      rw [← hplace] at hnext ⊢
      apply Ringbuffer.write_eq_none <;> omega

/-- With each lowest byte other than zero, one of two second bytes leads behind the page. -/
theorem exists_second : ∀ low < 256, 0 < low → ∃ byte ∈ [34, 244],
    4084 ≤ nextIndex (low + 256 * byte) (headerStart + 9) ∧
      4084 ≤ nextIndex (low + 256 * byte)
        (nextIndex (low + 256 * byte) (headerStart + 9)) := by
  decide +kernel

/-- Behind the page the write index does not go on. -/
theorem write_single {b : C4Ringbuf} (hext : b.extent = 4084) (hpos : 0 < b.size)
    (hr : InPage b.extent b.readIndex) (hw : 4084 ≤ b.writeIndex)
    (hwlt : b.writeIndex < headerStart) (hnext : 4084 ≤ nextIndex b.size b.writeIndex)
    (hlt : nextIndex b.size b.writeIndex < headerStart) : c4RingbufWrite b [0] = none := by
  apply write_eq_none_of_none
  apply putByte_eq_none hpos 0
  · rw [InPage] at hr
    omega
  · exact not_inPage (by omega) hwlt

theorem second (h : OverSize buf 1) :
    ∃ data, data.length < wordSize ∧ c4RingbufWrite buf data = none := by
  have hle := h.size_le
  have hword := wordSize_eq
  have hstart := headerStart_eq
  rcases Nat.eq_zero_or_pos (buf.size % 256) with hzero | hpos
  · refine ⟨[0], by decide, h.write_eq_none 0 fun b _ _ hpos hsize _ => ?_⟩
    have hbyte : (0 : UInt8).toNat = 0 := rfl
    omega
  · obtain ⟨byte, hbyte, hnext, hnext'⟩ := exists_second (buf.size % 256) (by omega) hpos
    have htoNat : (UInt8.ofNat byte).toNat = byte := by
      simp only [List.mem_cons, List.not_mem_nil, or_false] at hbyte
      rcases hbyte with rfl | rfl <;> rfl
    have hbyte := (UInt8.ofNat byte).toNat_lt
    refine ⟨[.ofNat byte, 0], show 2 < wordSize by decide, h.write_eq_none _ ?_⟩
    intro b hbext hbread hbpos hsize hplace
    have hbsize : b.size = buf.size % 256 + 256 * byte := by omega
    rw [← hbsize] at hnext hnext'
    have hlt : nextIndex b.size (headerStart + 9) < b.size := Nat.mod_lt _ hbpos
    have hlt' : nextIndex b.size b.writeIndex < b.size := Nat.mod_lt _ hbpos
    rw [← hplace] at hnext hnext' hlt
    exact write_single hbext hbpos (by rw [hbext, hbread, ← h.extent]; exact h.inPage) hnext
      (by omega) hnext' (by omega)

theorem third (h : OverSize buf 2) :
    ∃ data, data.length < wordSize ∧ c4RingbufWrite buf data = none := by
  have hle := h.size_le
  have hword := wordSize_eq
  have hstart := headerStart_eq
  refine ⟨[128, 0], by decide, h.write_eq_none 128 fun b hbext hbread hbpos hsize hplace => ?_⟩
  have hbyte : (128 : UInt8).toNat = 128 := rfl
  have hhigh : buf.size / 256 ^ 2 = 0 := Nat.div_eq_of_lt (by omega)
  rw [hhigh, hbyte] at hsize
  have hbsize : b.size = buf.size + 8388608 := by omega
  have hpos := h.pos
  have hlast : b.writeIndex = 8388607 - 511 * buf.size := by
    have hsplit : 4294967295 = 8388607 - 511 * buf.size + 511 * b.size := by omega
    rw [hplace]
    show 4294967295 % b.size = _
    rw [hsplit, Nat.add_mul_mod_self_right, Nat.mod_eq_of_lt (by omega)]
  have hnext : nextIndex b.size b.writeIndex = b.writeIndex + 1 :=
    nextIndex_of_lt (by omega) (by omega)
  exact write_single hbext hbpos (by rw [hbext, hbread, ← h.extent]; exact h.inPage) (by omega)
    (by omega) (by omega) (by omega)

/-- The highest byte, with the read index in the header. -/
theorem highest (h : OverSize buf 3)
    (hfit : ¬ (0 < buf.readIndex ∧ buf.readIndex < buf.extent)) :
    ∃ data, data.length < wordSize ∧ c4RingbufWrite buf data = none := by
  have hext := h.extent
  have hle := h.size_le
  have hword := wordSize_eq
  have hstart := headerStart_eq
  have hr : buf.readIndex < buf.extent ∨ headerStart ≤ buf.readIndex :=
    h.inPage.imp_right And.left
  have hne : buf.readIndex ≠ 0 := by
    have hfull := h.not_full
    rw [h.writeIndex] at hfull
    exact fun hzero => hfull (hzero ▸ Nat.zero_mod _)
  refine ⟨1 :: List.replicate 4085 0, ?_, ?_⟩
  · rw [List.length_cons, List.length_replicate]
    omega
  · apply h.write_eq_none
    intro b hbext hbread hbpos hsize hplace
    have hbyte : (1 : UInt8).toNat = 1 := rfl
    have hzero : b.writeIndex = 0 := hplace.trans (Nat.zero_mod _)
    apply Ringbuffer.write_eq_none <;> omega

end OverSize

/-! ## Buffers longer than the page -/

/-- The read index leaves the header, for the data or for a place behind the page. -/
theorem read_left (hext : buf.extent = 4084) (hsize : buf.extent < buf.size)
    (hsize_lt : buf.size < wordSize) (hr : buf.readIndex < wordSize)
    (hstart : headerStart ≤ buf.readIndex) (hw : headerStart ≤ buf.writeIndex + 1)
    (hne : buf.readIndex ≠ buf.writeIndex) (hnext : buf.size ≤ buf.readIndex + 1) :
    ∃ n ≤ 4086, c4RingbufRead buf n = none := by
  have hstart_eq := headerStart_eq
  obtain ⟨byte, hget⟩ := getByte_of_ne (by omega) hne (.inr ⟨hstart, hr⟩)
  have hplace := nextIndex_of_ge (by omega) hnext hr
  generalize nextIndex buf.size buf.readIndex = next at hget hplace
  rcases Nat.lt_or_ge next buf.extent with hdata | hout
  · refine ⟨buf.extent - next + 1 + 1, by omega, read_eq_none_of_get hget ?_⟩
    have hplaced : next + (buf.extent - next) = buf.extent := by omega
    have hbehind : buf.extent < buf.writeIndex := by omega
    exact @read_eq_none { buf with readIndex := next } _ hext hsize hsize_lt hplaced (.inr hbehind)
  · refine ⟨0 + 1 + 1, by omega, read_eq_none_of_get hget (read_eq_none_of_none ?_ 0)⟩
    have hne' : next ≠ buf.writeIndex := by omega
    have hplace' : next < headerStart := by omega
    exact @getByte_eq_none { buf with readIndex := next } hne' (not_inPage hout hplace')

/-- From the header the read index goes on to the data and past the end of the page, if the write
index is in front of it. -/
theorem read_wrapped {d : ℕ} (hext : buf.extent = 4084) (hsize : buf.extent < buf.size)
    (hsize_lt : buf.size < wordSize) (hr : buf.readIndex + d + 1 = wordSize)
    (hstart : headerStart ≤ buf.readIndex) (hw : headerStart ≤ buf.writeIndex + 1)
    (hlt : buf.writeIndex < buf.readIndex) :
    ∃ n ≤ d + 4086, c4RingbufRead buf n = none := by
  induction d generalizing buf with
  | zero =>
    rw [Nat.zero_add]
    exact read_left hext hsize hsize_lt (by omega) hstart hw (Nat.ne_of_gt hlt) (by omega)
  | succ d ih =>
    rcases Nat.lt_or_ge (buf.readIndex + 1) buf.size with hnext | hnext
    · -- the next byte is in the header again
      obtain ⟨byte, hget⟩ := getByte_of_ne (by omega) (Nat.ne_of_gt hlt) (.inr ⟨hstart, by omega⟩)
      rw [nextIndex_of_lt hsize_lt hnext] at hget
      have hr' : buf.readIndex + 1 + d + 1 = wordSize := by omega
      obtain ⟨n, hn, hnone⟩ := @ih { buf with readIndex := buf.readIndex + 1 } hext hsize hsize_lt
        hr' (Nat.le_succ_of_le hstart) hw (Nat.lt_succ_of_lt hlt)
      exact ⟨n + 1, by omega, read_eq_none_of_get hget hnone⟩
    · obtain ⟨n, hn, hnone⟩ := read_left hext hsize hsize_lt (by omega) hstart hw
        (Nat.ne_of_gt hlt) hnext
      exact ⟨n, by omega, hnone⟩

/-- A byte that is in the header already is stored there again. -/
theorem putByte_of_words (hwords : Words buf) (hext : buf.extent = 4084) (hpos : 0 < buf.size)
    (hw : headerStart ≤ buf.writeIndex)
    (hfull : nextIndex buf.size buf.writeIndex ≠ buf.readIndex) :
    c4RingbufPutByte buf (buf.header (buf.writeIndex - headerStart)) =
      some ({ buf with writeIndex := nextIndex buf.size buf.writeIndex }, true) := by
  have hstart_eq := headerStart_eq
  have hstore := store_over (by omega) hw hwords.writeIndex
    (buf.header (buf.writeIndex - headerStart))
  rw [hwords.over_self] at hstore
  exact putByte_of_store hpos hfull hstore hpos

/-- The write index leaves the header, for the data or for a place behind the page. -/
theorem write_left (hwords : Words buf) (hext : buf.extent = 4084)
    (hsize : buf.extent < buf.size) (hw : headerStart ≤ buf.writeIndex)
    (hstart : headerStart ≤ buf.readIndex) (hnext : buf.size ≤ buf.writeIndex + 1) :
    ∃ data, data.length ≤ 4086 ∧ c4RingbufWrite buf data = none := by
  have hstart_eq := headerStart_eq
  have hpos : 0 < buf.size := by omega
  have hplace := nextIndex_of_ge (by omega) hnext hwords.writeIndex
  have hput := putByte_of_words hwords hext hpos hw (by omega)
  generalize nextIndex buf.size buf.writeIndex = next at hput hplace
  rcases Nat.lt_or_ge buf.extent next with hout | hdata
  · refine ⟨[_, 0], by simp, write_eq_none_of_put hput (write_eq_none_of_none ?_ [])⟩
    have hnext' : nextIndex buf.size next ≠ buf.readIndex := by
      have hmod := Nat.mod_le ((next + 1) % wordSize) buf.size
      have hmod' := Nat.mod_le (next + 1) wordSize
      rw [nextIndex]
      omega
    have hplace' : next < headerStart := by omega
    exact @putByte_eq_none { buf with writeIndex := next } hpos 0 hnext'
      (not_inPage (Nat.le_of_lt hout) hplace')
  · refine ⟨_ :: List.replicate (buf.extent - next + 1) 0, ?_, write_eq_none_of_put hput ?_⟩
    · rw [List.length_cons, List.length_replicate]
      omega
    · have hplaced : next + (buf.extent - next) = buf.extent := by omega
      have hbehind : buf.extent + 1 < buf.readIndex := by omega
      exact @write_eq_none { buf with writeIndex := next } _ hext hsize hwords.size hplaced
        (.inr hbehind) fun hend => absurd hend.2 (show buf.readIndex ≠ 0 by omega)

/-- From the header the write index goes on to the data and past the end of the page, if the read
index is not in front of it. The bytes written over the header are those that are there. -/
theorem write_wrapped {d : ℕ} (hwords : Words buf) (hext : buf.extent = 4084)
    (hsize : buf.extent < buf.size) (hw : buf.writeIndex + d + 1 = wordSize)
    (hstart : headerStart ≤ buf.readIndex) (hle : buf.readIndex ≤ buf.writeIndex) :
    ∃ data, data.length ≤ d + 4086 ∧ c4RingbufWrite buf data = none := by
  have hsize_lt := hwords.size
  induction d generalizing buf with
  | zero =>
    rw [Nat.zero_add]
    exact write_left hwords hext hsize (Nat.le_trans hstart hle) hstart (by omega)
  | succ d ih =>
    rcases Nat.lt_or_ge (buf.writeIndex + 1) buf.size with hnext | hnext
    · -- the next byte is in the header again
      have hnext_eq := nextIndex_of_lt hsize_lt hnext
      have hput := putByte_of_words hwords hext (by omega) (Nat.le_trans hstart hle) (by omega)
      rw [hnext_eq] at hput
      have hwords' : Words { buf with writeIndex := buf.writeIndex + 1 } :=
        ⟨hwords.readIndex, Nat.lt_trans hnext hsize_lt, hsize_lt⟩
      have hw' : buf.writeIndex + 1 + d + 1 = wordSize := by omega
      obtain ⟨data, hlen, hnone⟩ := @ih { buf with writeIndex := buf.writeIndex + 1 } hwords' hext
        hsize hw' hstart (Nat.le_succ_of_le hle) hsize_lt
      refine ⟨_ :: data, ?_, write_eq_none_of_put hput hnone⟩
      rw [List.length_cons]
      omega
    · obtain ⟨data, hlen, hnone⟩ := write_left hwords hext hsize (Nat.le_trans hstart hle) hstart
        hnext
      exact ⟨data, by omega, hnone⟩

/-! ## Safe headers -/

namespace OpsSafe

theorem pos (h : OpsSafe buf) : 0 < buf.size := by
  by_contra hzero
  have hcan := h.canRead 0 (by decide)
  rw [c4RingbufCanRead, c4RingbufAvailable, mask, if_pos (by omega)] at hcan
  cases hcan

theorem not_read (h : OpsSafe buf) {n : ℕ} (hn : n < wordSize) : c4RingbufRead buf n ≠ none := by
  intro hnone
  have hsome := h.read n hn
  rw [hnone] at hsome
  cases hsome

theorem not_write (h : OpsSafe buf) {data : List UInt8} (hlen : data.length < wordSize) :
    c4RingbufWrite buf data ≠ none := by
  intro hnone
  have hsome := h.write data hlen
  rw [hnone] at hsome
  cases hsome

/-- What one byte read needs. -/
theorem read_one (h : OpsSafe buf) :
    buf.readIndex = buf.writeIndex ∨ InPage buf.extent buf.readIndex := by
  by_contra hor
  rw [not_or] at hor
  exact h.not_read (n := 1) (by decide) (read_eq_none_of_none (getByte_eq_none hor.1 hor.2) 0)

/-- What one byte written needs. -/
theorem write_one (h : OpsSafe buf) :
    nextIndex buf.size buf.writeIndex = buf.readIndex ∨ InPage buf.extent buf.writeIndex := by
  by_contra hor
  rw [not_or] at hor
  have hput := putByte_eq_none h.pos 0 hor.1 hor.2
  exact h.not_write (show [0].length < wordSize by decide) (write_eq_none_of_none hput [])

/-- The read index is in the page. -/
theorem readIndex_inPage (h : OpsSafe buf) (hwords : Words buf) (hext : buf.extent = 4084) :
    InPage buf.extent buf.readIndex := by
  rcases h.read_one with he | hr
  · rcases h.write_one with hfull | hw
    · -- an empty buffer does not look full, unless it has a single byte
      have hlt : buf.writeIndex < buf.size := by
        rw [← he, ← hfull]
        exact Nat.mod_lt _ h.pos
      have hsize := hwords.size
      rcases Nat.lt_or_eq_of_le (Nat.succ_le_of_lt hlt) with hnext | hnext
      · rw [nextIndex_of_lt hsize hnext] at hfull
        omega
      · rw [nextIndex_last (hnext.trans_lt hsize) hnext] at hfull
        exact .inl (by omega)
    · rwa [he]
  · exact hr

/-- In a buffer inside the page a write over the header fits. -/
theorem wrapFits (h : OpsSafe buf) (hwords : Words buf) (hext : buf.extent = 4084)
    (hle : buf.size ≤ 4084) (hfull : nextIndex buf.size buf.writeIndex ≠ buf.readIndex)
    (hw : headerStart ≤ buf.writeIndex) : WrapFits buf := by
  have hword := wordSize_eq
  have hstart := headerStart_eq
  have hwlt := hwords.writeIndex
  have hr := h.readIndex_inPage hwords hext
  have hsafe : ¬ ∃ data, data.length < wordSize ∧ c4RingbufWrite buf data = none := by
    rintro ⟨data, hlen, hnone⟩
    exact h.not_write hlen hnone
  have hover {i : ℕ} (hi : i < 4) (hat : buf.writeIndex = headerStart + 8 + i) : OverSize buf i :=
    ⟨hwords, hext, h.pos, hle, hr, hfull, hi, hat⟩
  rcases Nat.lt_or_ge buf.writeIndex (headerStart + 8) with hindex | hsize
  · exact .inl ⟨hw, hindex⟩
  obtain ⟨i, hi⟩ := Nat.exists_eq_add_of_le hsize
  have hi4 : i < 4 := by omega
  have hat := hover hi4 hi
  interval_cases i
  · refine .inr (.inl ⟨hi, ?_⟩)
    by_contra hfit
    exact hsafe (hat.lowest hfit)
  · exact absurd hat.second hsafe
  · exact absurd hat.third hsafe
  · refine .inr (.inr ⟨hi, ?_⟩)
    by_contra hfit
    exact hsafe (hat.highest hfit)

/-- A buffer longer than the page has one byte more, and its read index is zero. -/
theorem of_long (h : OpsSafe buf) (hwords : Words buf) (hext : buf.extent = 4084)
    (hlong : buf.extent < buf.size) :
    buf.size = buf.extent + 1 ∧ buf.readIndex = 0 ∧ buf.writeIndex ≤ buf.extent := by
  have hword := wordSize_eq
  have hstart := headerStart_eq
  have hsize := hwords.size
  have hrlt := hwords.readIndex
  have hwlt := hwords.writeIndex
  have hwrite (hle : buf.writeIndex ≤ buf.extent)
      (hr : buf.readIndex ≤ buf.writeIndex ∨ buf.extent + 1 < buf.readIndex) :
      buf.size = buf.extent + 1 ∧ buf.readIndex = 0 := by
    by_contra hend
    refine h.not_write ?_ (write_eq_none (k := buf.extent - buf.writeIndex) hext hlong hsize
      (by omega) hr hend)
    rw [List.length_replicate]
    omega
  rcases h.readIndex_inPage hwords hext with hr | ⟨hr, -⟩
  · -- reading has to meet the write index in the page
    have hin : buf.readIndex ≤ buf.writeIndex ∧ buf.writeIndex ≤ buf.extent := by
      by_contra hout
      exact h.not_read (by omega) (read_eq_none (k := buf.extent - buf.readIndex) hext hlong hsize
        (by omega) (by omega))
    obtain ⟨hend, hzero⟩ := hwrite hin.2 (.inl hin.1)
    exact ⟨hend, hzero, hin.2⟩
  · exfalso
    rcases Nat.lt_or_ge buf.extent buf.writeIndex with hout | hin
    · rcases Nat.lt_or_ge buf.writeIndex buf.readIndex with hlt | hle
      · -- the write index is in front of the read index, and at most one place before the header
        have hw : headerStart ≤ buf.writeIndex + 1 := by
          rcases h.write_one with hfull | hw
          · have hmod := Nat.mod_le ((buf.writeIndex + 1) % wordSize) buf.size
            have hmod' := Nat.mod_le (buf.writeIndex + 1) wordSize
            rw [nextIndex] at hfull
            omega
          · rw [InPage] at hw
            omega
        obtain ⟨d, hd⟩ := Nat.exists_eq_add_of_lt hrlt
        obtain ⟨n, hn, hnone⟩ := read_wrapped hext hlong hsize hd.symm hr hw hlt
        exact h.not_read (by omega) hnone
      · obtain ⟨d, hd⟩ := Nat.exists_eq_add_of_lt hwlt
        obtain ⟨data, hlen, hnone⟩ := write_wrapped hwords hext hlong hd.symm hr hle
        exact h.not_write (by omega) hnone
    · have hend := (hwrite hin (.inr (by omega))).2
      omega

/-- Safe headers fit. -/
theorem headerFits (h : OpsSafe buf) (hwords : Words buf) (hext : buf.extent = 4084) :
    HeaderFits buf := by
  rcases Nat.lt_or_ge buf.extent buf.size with hlong | hshort
  · exact .inr (h.of_long hwords hext hlong)
  · refine .inl ⟨h.pos, hshort, h.readIndex_inPage hwords hext, ?_⟩
    by_cases hfull : nextIndex buf.size buf.writeIndex = buf.readIndex
    · exact .inr (.inl hfull)
    · rcases h.write_one.resolve_left hfull with hw | ⟨hw, -⟩
      · exact .inl hw
      · exact .inr (.inr (h.wrapFits hwords hext (by omega) hfull hw))

end OpsSafe

/-- `PAGE_SIZE`. -/
abbrev pageSize : ℕ := 4096

/-- **The operations of a server are safe exactly for the headers that fit.** -/
theorem opsSafe_iff (hpage : buf.extent + sizeofRingbuf = pageSize) (hwords : Words buf) :
    OpsSafe buf ↔ HeaderFits buf := by
  have hext : buf.extent = 4084 := by
    have hextent : buf.extent + 12 = 4096 := hpage
    omega
  constructor
  · exact fun h => h.headerFits hwords hext
  · exact fun h => h.opsSafe hwords hext

/-- A page of zeros behind a header. -/
def pageWith (readIndex writeIndex size : ℕ) : C4Ringbuf where
  readIndex := readIndex
  writeIndex := writeIndex
  size := size
  extent := pageSize - sizeofRingbuf
  data := fun _ => 0

/-- The header that `c4_ringbuf_init` leaves behind, and one with its write index at the first byte
of the header. -/
theorem opsSafe_pageWith : OpsSafe (pageWith 0 0 4084) ∧ OpsSafe (pageWith 0 headerStart 4084) := by
  constructor
  · apply (opsSafe_iff rfl ⟨by decide, by decide, by decide⟩).2
    exact .inl ⟨by decide, by decide, .inl (by decide), .inl (by decide)⟩
  · apply (opsSafe_iff rfl ⟨by decide, by decide, by decide⟩).2
    exact .inl ⟨by decide, by decide, .inl (by decide), .inr (.inr (.inl (by decide)))⟩

/-- A zero size makes the server divide by zero, and an index behind the page makes it write
there. -/
theorem pageWith_not_opsSafe : ¬ OpsSafe (pageWith 0 0 0) ∧
    c4RingbufCanRead (pageWith 0 0 0) 24 = none ∧
    ¬ OpsSafe (pageWith 0 5000 4084) ∧ c4RingbufWrite (pageWith 0 5000 4084) [1] = none := by
  have hcan : c4RingbufCanRead (pageWith 0 0 0) 24 = none := rfl
  have hwrite : c4RingbufWrite (pageWith 0 5000 4084) [1] = none := by
    apply write_eq_none_of_none
    exact putByte_eq_none (by decide) 1 (by decide) (not_inPage (by decide) (by decide))
  refine ⟨fun h => ?_, hcan, fun h => h.not_write (by decide) hwrite, hwrite⟩
  exact absurd h.pos (by decide)

end C4OS.Ringbuffer
