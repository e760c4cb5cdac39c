import C4OS.Ringbuffer.Accounting
import C4OS.Ringbuffer.Queue

/-!
# The bytes in a ring buffer

The operations on a ring buffer as its users see them: `Holds n buf l` says that a buffer of `n`
data bytes has the bytes `l` in it, the oldest first. Writing appends what fits (`Holds.write`) and
reading takes from the front (`Holds.read`). The fill level that the code computes is the number of
bytes as long as they do not go round the end of the buffer, and is off by `2 ^ 32` modulo `n`
otherwise (`Holds.used_eq`).
-/

namespace C4OS.Ringbuffer

open Foundations

/-- The buffer has the bytes `l` in it. -/
def Holds (n : ℕ) (buf : C4Ringbuf) (l : List UInt8) : Prop := Wf n buf ∧ buf.contents = l

/-- A buffer that was just set up is empty. -/
theorem holds_init {raw : C4Ringbuf} {n : ℕ} (hn : 2 ≤ n) (hlt : n < wordSize)
    (hmem : raw.extent = n) : Holds n (c4RingbufInit raw (n + sizeofRingbuf)).1 [] := by
  have hsize : n + sizeofRingbuf > sizeofRingbuf + 1 := by omega
  rw [c4RingbufInit, if_pos hsize, Nat.add_sub_cancel]
  exact ⟨⟨rfl, hmem, hn, hlt, by simp only; omega, by simp only; omega⟩, rfl⟩

namespace Holds

variable {n : ℕ} {buf : C4Ringbuf} {l : List UInt8}

theorem fill_eq (h : Holds n buf l) : buf.fill = l.length := by
  rw [← h.2, length_contents]

theorem length_lt (h : Holds n buf l) : l.length < n := by
  rw [← h.fill_eq]
  exact h.1.fill_lt

/-- The bytes as a queue. -/
theorem exists_refines (h : Holds n buf l) :
    ∃ q : Fifo UInt8 (n - 1), Refines n buf q ∧ q.items = l := by
  have := h.length_lt
  exact ⟨⟨l, by omega⟩, ⟨h.1, h.2⟩, rfl⟩

theorem putByte (h : Holds n buf l) {byte : UInt8} (hfit : l.length + 1 < n) :
    ∃ buf', c4RingbufPutByte buf byte = some (buf', true) ∧ Holds n buf' (l ++ [byte]) := by
  obtain ⟨q, hq, rfl⟩ := h.exists_refines
  obtain ⟨buf', hrun, hwf, hc⟩ := c4RingbufPutByte_refines hq byte
  have hroom : 0 < q.room := by
    unfold Fifo.room
    omega
  rw [decide_eq_true hroom] at hrun
  rw [Fifo.items_put, List.take_of_length_le (show [byte].length ≤ q.room from hroom)] at hc
  exact ⟨buf', hrun, hwf, hc⟩

/-- A full buffer refuses a byte. -/
theorem putByte_full (h : Holds n buf l) {byte : UInt8} (hfull : l.length + 1 = n) :
    c4RingbufPutByte buf byte = some (buf, false) := by
  rw [← h.fill_eq] at hfull
  simp [c4RingbufPutByte, h.1.full_eq, hfull]

/-- What `c4_ringbuf_write` does when there may not be enough room. -/
theorem write_take (h : Holds n buf l) (data : List UInt8) :
    ∃ buf', c4RingbufWrite buf data = some (buf', min data.length (n - 1 - l.length)) ∧
      Holds n buf' (l ++ data.take (n - 1 - l.length)) := by
  obtain ⟨q, hq, rfl⟩ := h.exists_refines
  obtain ⟨buf', hrun, hwf, hc⟩ := c4RingbufWrite_refines data hq
  exact ⟨buf', hrun, hwf, hc⟩

theorem write (h : Holds n buf l) {data : List UInt8} (hfit : l.length + data.length < n) :
    ∃ buf', c4RingbufWrite buf data = some (buf', data.length) ∧ Holds n buf' (l ++ data) ∧
      buf'.readIndex = buf.readIndex := by
  obtain ⟨buf', hrun, hbuf'⟩ := h.write_take data
  rw [Nat.min_eq_left (by omega)] at hrun
  rw [List.take_of_length_le (by omega)] at hbuf'
  exact ⟨buf', hrun, hbuf', h.1.write_readIndex hrun⟩

theorem read (h : Holds n buf l) (k : ℕ) :
    ∃ buf', c4RingbufRead buf k = some (buf', l.take k) ∧ Holds n buf' (l.drop k) ∧
      buf'.writeIndex = buf.writeIndex := by
  obtain ⟨q, hq, rfl⟩ := h.exists_refines
  obtain ⟨buf', hrun, hwf, hc⟩ := c4RingbufRead_refines k hq
  exact ⟨buf', hrun, ⟨hwf, hc⟩, c4RingbufRead_writeIndex hrun⟩

theorem empty_eq (h : Holds n buf l) : c4RingbufEmpty buf = decide (l = []) := by
  rw [h.1.empty_eq, h.fill_eq, decide_eq_decide, List.length_eq_zero_iff]

theorem writeIndex_eq (h : Holds n buf l) :
    buf.writeIndex = (buf.readIndex + l.length) % n := by
  rw [← h.fill_eq, h.1.add_fill_mod]

/-- The fill level that the code computes. -/
theorem used_eq (h : Holds n buf l) : buf.used =
    if buf.readIndex + l.length < n then l.length else (l.length + wordSize) % n := by
  have hw := h.writeIndex_eq
  have hr := h.1.read_lt
  have hl := h.length_lt
  split
  · next hlt =>
    rw [Nat.mod_eq_of_lt hlt] at hw
    rw [h.1.used_eq_of_le (by omega), h.fill_eq]
  · next hge =>
    rw [Nat.mod_eq_sub_mod (by omega), Nat.mod_eq_of_lt (by omega)] at hw
    rw [h.1.used_eq_of_lt (by omega), h.fill_eq]

theorem used_nil (h : Holds n buf []) : buf.used = 0 := by
  have hr := h.1.read_lt
  rw [h.used_eq, List.length_nil, Nat.add_zero, if_pos hr]

theorem canWrite_nil (h : Holds n buf []) (k : ℕ) :
    c4RingbufCanWrite buf k = some (decide (k < n)) := by
  rw [h.1.canWrite_eq, h.used_nil, Nat.sub_zero]

end Holds

end C4OS.Ringbuffer
