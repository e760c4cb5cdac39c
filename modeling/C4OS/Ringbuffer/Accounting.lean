import C4OS.Ringbuffer.Queue

/-!
# What the ring buffer says about its fill level

`c4_ringbuf_available` reduces the difference of the indices modulo `2 ^ 32` and then modulo the
size of the buffer. The two reductions agree with the number of queued bytes when the write index
has not wrapped below the read index, or when the size divides `2 ^ 32`; in the other states
`c4_ringbuf_available`, `c4_ringbuf_can_read` and `c4_ringbuf_can_write` are wrong.

* `Reachable.accounting_iff`: in a state of a run the accounting is exact if and only if the
  indices are in order or the size divides `2 ^ 32`;
* `exists_wrapped`: every buffer reaches a state in which the indices are out of order, so
  the accounting of a buffer is exact in all its runs only for sizes that divide `2 ^ 32`.
-/

namespace C4OS.Ringbuffer

open Foundations

/-- The fill level as the code computes it. -/
def C4Ringbuf.used (buf : C4Ringbuf) : ℕ :=
  (buf.writeIndex + (wordSize - buf.readIndex)) % wordSize % buf.size

/-- Exact accounting: the free space, and the answers of `c4_ringbuf_can_read` and
`c4_ringbuf_can_write`, are those of a buffer with `queued` bytes in it. -/
def Accounting (t : Trace) : Prop :=
  c4RingbufAvailable t.buf = some (t.buf.size - t.queued) ∧
    (∀ n < wordSize, c4RingbufCanRead t.buf n = some (decide (n ≤ t.queued))) ∧
    ∀ data : List UInt8, data.length < wordSize →
      (c4RingbufCanWrite t.buf data.length = some true ↔
        ∃ buf', c4RingbufWrite t.buf data = some (buf', data.length))

/-! ## The predicates in terms of the computed fill level -/

namespace Wf

variable {n : ℕ} {buf : C4Ringbuf}

theorem used_lt (h : Wf n buf) : buf.used < n := by
  have := h.two_le
  rw [C4Ringbuf.used, h.size_eq]
  exact Nat.mod_lt _ (by omega)

theorem available_eq (h : Wf n buf) : c4RingbufAvailable buf = some (n - buf.used) := by
  have hlt := h.used_lt; have := h.lt_word
  have hu : (buf.writeIndex + (wordSize - buf.readIndex)) % wordSize % n = buf.used := by
    rw [C4Ringbuf.used, h.size_eq]
  simp only [c4RingbufAvailable, h.mask_eq, hu, h.size_eq, Option.bind_eq_bind, Option.bind_some,
    Option.pure_def, Option.some.injEq]
  rw [Nat.mod_eq_sub_mod (by omega), Nat.mod_eq_of_lt (by omega)]
  omega

theorem canRead_eq (h : Wf n buf) (k : ℕ) :
    c4RingbufCanRead buf k = some (decide (k ≤ buf.used)) := by
  have hlt := h.used_lt; have := h.lt_word
  have e : (n + (wordSize - (n - buf.used))) % wordSize = buf.used := by
    rw [Nat.mod_eq_sub_mod (by omega), Nat.mod_eq_of_lt (by omega)]
    omega
  simp only [c4RingbufCanRead, h.available_eq, h.size_eq, Option.bind_eq_bind, Option.bind_some,
    Option.pure_def, e]

theorem canWrite_eq (h : Wf n buf) (k : ℕ) :
    c4RingbufCanWrite buf k = some (decide (k < n - buf.used)) := by
  simp only [c4RingbufCanWrite, h.available_eq, Option.bind_eq_bind, Option.bind_some,
    Option.pure_def]

/-- The computed fill level is the real one when the indices are in order. -/
theorem used_eq_of_le (h : Wf n buf) (hle : buf.readIndex ≤ buf.writeIndex) :
    buf.used = buf.fill := by
  have := h.read_lt; have := h.write_lt; have := h.lt_word
  have e : buf.writeIndex + (wordSize - buf.readIndex) =
      buf.writeIndex - buf.readIndex + wordSize := by omega
  rw [C4Ringbuf.used, C4Ringbuf.fill, if_pos hle, h.size_eq, e, Nat.add_mod_right,
    Nat.mod_eq_of_lt (by omega : _ < wordSize), Nat.mod_eq_of_lt (by omega)]

/-- When the write index has wrapped below the read index, the computed fill level is off by
`2 ^ 32` modulo the size. -/
theorem used_eq_of_lt (h : Wf n buf) (hlt : buf.writeIndex < buf.readIndex) :
    buf.used = (buf.fill + wordSize) % n := by
  have := h.read_lt; have := h.write_lt; have := h.lt_word
  rw [C4Ringbuf.used, C4Ringbuf.fill, if_neg (by omega), h.size_eq,
    Nat.mod_eq_of_lt (by omega : _ < wordSize)]
  have e : buf.writeIndex + n - buf.readIndex + wordSize =
      buf.writeIndex + (wordSize - buf.readIndex) + n := by omega
  rw [e, Nat.add_mod_right]

/-- The computed fill level is the real one exactly when the indices are in order or the size
divides `2 ^ 32`. -/
theorem used_eq_iff (h : Wf n buf) :
    buf.used = buf.fill ↔ buf.readIndex ≤ buf.writeIndex ∨ n ∣ wordSize := by
  rcases Nat.lt_or_ge buf.writeIndex buf.readIndex with hlt | hle
  · rw [h.used_eq_of_lt hlt]
    constructor
    · intro e
      right
      have hmod : buf.fill + wordSize ≡ buf.fill + 0 [MOD n] := by
        rw [Nat.ModEq, e, Nat.add_zero, Nat.mod_eq_of_lt h.fill_lt]
      exact (Nat.modEq_zero_iff_dvd).1 (Nat.ModEq.add_left_cancel' _ hmod)
    · rintro (hle | ⟨k, hk⟩)
      · omega
      · rw [hk, Nat.add_mul_mod_self_left, Nat.mod_eq_of_lt h.fill_lt]
  · exact ⟨fun _ => .inl hle, fun _ => h.used_eq_of_le hle⟩

end Wf

/-! ## One state -/

theorem Reachable.accounting_iff_used {size : ℕ} {t : Trace} (h : Reachable size t) :
    Accounting t ↔ t.buf.used = t.buf.fill := by
  obtain ⟨q, hq, -⟩ := h.refines
  have hwf := hq.1
  have hused := hwf.used_lt; have hfill := hwf.fill_lt
  rw [Accounting, h.queued_eq, hwf.size_eq]
  constructor
  · rintro ⟨havail, -⟩
    rw [hwf.available_eq, Option.some.injEq] at havail
    omega
  · intro e
    refine ⟨by rw [hwf.available_eq, e], fun n _ => by rw [hwf.canRead_eq, e], fun data _ => ?_⟩
    obtain ⟨buf', hw, -⟩ := c4RingbufWrite_refines data hq
    rw [hwf.canWrite_eq, e, hw, hq.room_eq]
    simp only [Option.some.injEq, decide_eq_true_eq, Prod.mk.injEq, exists_eq_left']
    omega

/-- **The accounting of a state is exact if and only if** the write index has not wrapped below
the read index or the size of the buffer divides `2 ^ 32`. -/
theorem Reachable.accounting_iff {size : ℕ} {t : Trace} (h : Reachable size t) :
    Accounting t ↔
      t.buf.readIndex ≤ t.buf.writeIndex ∨ size - sizeofRingbuf ∣ wordSize :=
  h.accounting_iff_used.trans h.wf.used_eq_iff

/-! ## All states of a buffer -/

theorem Wf.putByte_readIndex {n : ℕ} {buf buf' : C4Ringbuf} {byte : UInt8} {b : Bool}
    (hwf : Wf n buf) (h : c4RingbufPutByte buf byte = some (buf', b)) :
    Wf n buf' ∧ buf'.readIndex = buf.readIndex := by
  have hlt := hwf.fill_lt
  rw [hwf.putByte] at h
  split at h
  · cases h
    exact ⟨hwf, rfl⟩
  · next hfull =>
    cases h
    exact ⟨(hwf.pushed (by omega) byte).1, rfl⟩

theorem Wf.write_readIndex {n : ℕ} {data : List UInt8} {buf buf' : C4Ringbuf} {k : ℕ}
    (hwf : Wf n buf) (h : c4RingbufWrite buf data = some (buf', k)) :
    buf'.readIndex = buf.readIndex := by
  induction data generalizing buf k with
  | nil => cases h; rfl
  | cons byte data ih =>
    simp only [c4RingbufWrite, Option.bind_eq_bind, Option.bind_eq_some_iff, Option.pure_def] at h
    obtain ⟨⟨buf₁, b⟩, hput, h⟩ := h
    obtain ⟨hwf₁, hput'⟩ := hwf.putByte_readIndex hput
    split at h
    · simp only [Option.bind_eq_some_iff] at h
      obtain ⟨⟨buf₂, k₂⟩, hw, h⟩ := h
      cases h
      rw [ih hwf₁ hw, hput']
    · cases h
      exact hput'

theorem c4RingbufGetByte_writeIndex {buf buf' : C4Ringbuf} {b : Option UInt8}
    (h : c4RingbufGetByte buf = some (buf', b)) : buf'.writeIndex = buf.writeIndex := by
  simp only [c4RingbufGetByte] at h
  split at h
  · cases h; rfl
  · simp only [Option.bind_eq_bind, Option.bind_eq_some_iff, Option.pure_def] at h
    obtain ⟨byte, -, next, -, h⟩ := h
    cases h; rfl

theorem c4RingbufRead_writeIndex {size : ℕ} {buf buf' : C4Ringbuf} {bytes : List UInt8}
    (h : c4RingbufRead buf size = some (buf', bytes)) : buf'.writeIndex = buf.writeIndex := by
  induction size generalizing buf bytes with
  | zero => cases h; rfl
  | succ size ih =>
    simp only [c4RingbufRead, Option.bind_eq_bind, Option.bind_eq_some_iff, Option.pure_def] at h
    obtain ⟨⟨buf₁, b⟩, hget, h⟩ := h
    have hget' := c4RingbufGetByte_writeIndex hget
    split at h
    · cases h
      exact hget'
    · simp only [Option.bind_eq_some_iff] at h
      obtain ⟨⟨buf₂, bytes₂⟩, hr, h⟩ := h
      cases h
      rw [ih hr]
      exact hget'

/-- At most as many bytes are read as asked for. -/
theorem c4RingbufRead_length_le {buf : C4Ringbuf} {size : ℕ} {r : C4Ringbuf × List UInt8}
    (h : c4RingbufRead buf size = some r) : r.2.length ≤ size := by
  induction size generalizing buf r with
  | zero =>
    cases h
    exact Nat.le_refl _
  | succ size ih =>
    obtain ⟨⟨buf', byte⟩, -, hrest⟩ := Option.bind_eq_some_iff.1 h
    cases byte with
    | none =>
      cases hrest
      exact Nat.zero_le _
    | some byte =>
      obtain ⟨r', hread, heq⟩ := Option.bind_eq_some_iff.1 hrest
      cases heq
      exact Nat.succ_le_succ (ih hread)

/-- Every accepted size has a run whose write index has wrapped below its read index: fill the
buffer, drain it and write one more byte. -/
theorem exists_wrapped {size : ℕ} (hlo : sizeofRingbuf + 1 < size) (hhi : size < wordSize) :
    ∃ t, Reachable size t ∧ t.buf.writeIndex < t.buf.readIndex := by
  have hsz : sizeofRingbuf = 12 := rfl
  set n := size - sizeofRingbuf with hn
  let raw : C4Ringbuf := ⟨0, 0, 0, n, fun _ => 0⟩
  have h₀ : Reachable size ⟨{ raw with size := n }, [], []⟩ :=
    .init raw hhi (by simp only [raw]; omega) (by simp [c4RingbufInit, raw, ← hn, hlo])
  -- the queue has room for `n - 1` bytes
  obtain ⟨q₀, hq₀, -⟩ := h₀.refines
  obtain ⟨buf₁, hw₁, hq₁⟩ := c4RingbufWrite_refines (List.replicate (n - 1) 0) hq₀
  have h₁ := h₀.step (.write (List.replicate (n - 1) 0)) (by simp only [Trace.step, hw₁]; rfl)
  have hr₁ : buf₁.readIndex = 0 := hq₀.1.write_readIndex hw₁
  have hroom₀ : q₀.room = n - 1 := by
    have := hq₀.room_eq
    simpa [C4Ringbuf.fill, raw] using this
  have hf₁ : buf₁.fill = n - 1 := by
    rw [hq₁.fill_eq, Fifo.items_put, List.length_append, ← hq₀.fill_eq, hroom₀]
    simp [C4Ringbuf.fill, raw]
  obtain ⟨buf₂, hw₂, hq₂⟩ := c4RingbufRead_refines (n - 1) hq₁
  have h₂ := h₁.step (.read (n - 1)) (by simp only [Trace.step, hw₂]; rfl)
  have hi₂ : buf₂.writeIndex = buf₁.writeIndex := c4RingbufRead_writeIndex hw₂
  have hf₂ : buf₂.fill = 0 := by
    rw [hq₂.fill_eq, Fifo.items_drop, List.length_drop, ← hq₁.fill_eq, hf₁, Nat.sub_self]
  obtain ⟨buf₃, hw₃, hq₃⟩ := c4RingbufPutByte_refines hq₂ 0
  have h₃ := h₂.step (.putByte 0) (by simp only [Trace.step, hw₃]; rfl)
  have hi₃ : buf₃.readIndex = buf₂.readIndex := (hq₂.1.putByte_readIndex hw₃).2
  have hf₃ : buf₃.fill = 1 := by
    rw [hq₃.fill_eq, Fifo.items_put, List.length_append, ← hq₂.fill_eq, hf₂, List.length_take,
      hq₂.room_eq, hf₂]
    simp only [List.length_singleton]
    omega
  refine ⟨_, h₃, ?_⟩
  have hwf₁ := hq₁.1; have hwf₂ := hq₂.1; have hwf₃ := hq₃.1
  have := hwf₁.write_lt; have := hwf₂.read_lt; have := hwf₃.write_lt
  have := hwf₁.size_eq; have := hwf₂.size_eq; have := hwf₃.size_eq
  simp only [C4Ringbuf.fill] at hf₁ hf₂ hf₃
  dsimp only
  split_ifs at hf₁ hf₂ hf₃ <;> omega

/-- **Exact accounting of the ring buffer**: in a run it holds in exactly those states where the
write index has not wrapped below the read index or the size divides `2 ^ 32`; it holds in all
states of all runs if and only if the size of the data divides `2 ^ 32`. -/
theorem ringbuf_accounting_iff {size : ℕ} (hlo : sizeofRingbuf + 1 < size) (hhi : size < wordSize) :
    (∀ t, Reachable size t → (Accounting t ↔
        t.buf.readIndex ≤ t.buf.writeIndex ∨ size - sizeofRingbuf ∣ wordSize)) ∧
      ((∀ t, Reachable size t → Accounting t) ↔ size - sizeofRingbuf ∣ wordSize) := by
  refine ⟨fun t ht => ht.accounting_iff, fun hall => ?_, fun hdvd t ht => ?_⟩
  · obtain ⟨t, ht, hlt⟩ := exists_wrapped hlo hhi
    rcases ht.accounting_iff.1 (hall t ht) with hle | hdvd
    · omega
    · exact hdvd
  · exact ht.accounting_iff.2 (.inr hdvd)

/-- A buffer of four data bytes accounts exactly. -/
theorem ringbuf_accounting_sixteen :
    16 - sizeofRingbuf ∣ wordSize ∧ ∀ t, Reachable 16 t → Accounting t :=
  ⟨by decide, (ringbuf_accounting_iff (by decide) (by decide)).2.2 (by decide)⟩

/-- A buffer of three data bytes does not: after two bytes written, two read and one written,
one byte is queued but the buffer reports a free space of one byte, as if two were queued. -/
theorem not_accounting_fifteen : ∃ t, Reachable 15 t ∧ t.queued = 1 ∧
    c4RingbufAvailable t.buf = some 1 ∧ ¬ Accounting t := by
  have h₀ : Reachable 15 ⟨⟨0, 0, 3, 3, fun _ => 0⟩, [], []⟩ :=
    .init ⟨0, 0, 0, 3, fun _ => 0⟩ (by decide) rfl rfl
  have h₁ := ((h₀.step (.write [7, 8]) rfl).step (.read 2) rfl).step (.write [9]) rfl
  refine ⟨_, h₁, rfl, by decide, fun hacc => ?_⟩
  have := hacc.1
  revert this
  decide

end C4OS.Ringbuffer
