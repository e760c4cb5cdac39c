import C4OS.Foundations.Circular
import C4OS.Ringbuffer.Model

/-!
# The ring buffer is a bounded queue

A buffer of `n` data bytes keeps one byte empty, so it holds a queue of at most `n - 1` bytes:
the `fill` bytes from the read index on, taken circularly (`contents`). `Refines n buf q` says
that a well-formed header (`Wf`) holds the queue `q`. Every operation has a result on such a
buffer and refines the operation on the queue:

* `c4RingbufPutByte_refines`, `c4RingbufGetByte_refines` for one byte;
* `c4RingbufWrite_refines`, `c4RingbufRead_refines` for the loops, by induction on the bytes;
* `Reachable.refines` for every run: the bytes returned, followed by the bytes still queued, are
  the bytes accepted.

`ringbuf_fifo` collects what this says about the calls of a run.
-/

namespace C4OS.Ringbuffer

open Foundations

/-! ## Well-formed headers -/

/-- The header of a buffer of `n` data bytes, all of them in its memory. -/
structure Wf (n : ℕ) (buf : C4Ringbuf) : Prop where
  size_eq : buf.size = n
  extent_eq : buf.extent = n
  two_le : 2 ≤ n
  lt_word : n < wordSize
  read_lt : buf.readIndex < n
  write_lt : buf.writeIndex < n

/-- The number of bytes between the read index and the write index, going round. -/
def C4Ringbuf.fill (buf : C4Ringbuf) : ℕ :=
  if buf.readIndex ≤ buf.writeIndex then buf.writeIndex - buf.readIndex
  else buf.writeIndex + buf.size - buf.readIndex

/-- The queued bytes, oldest first. -/
def C4Ringbuf.contents (buf : C4Ringbuf) : List UInt8 :=
  window buf.data buf.size buf.readIndex buf.fill

@[simp] theorem length_contents (buf : C4Ringbuf) : buf.contents.length = buf.fill :=
  length_window ..

theorem succ_mod_eq {n v : ℕ} (hv : v < n) : (v + 1) % n = if v + 1 = n then 0 else v + 1 := by
  split
  · next e => rw [e, Nat.mod_self]
  · exact Nat.mod_eq_of_lt (by omega)

namespace Wf

variable {n : ℕ} {buf : C4Ringbuf}

theorem fill_lt (h : Wf n buf) : buf.fill < n := by
  have := h.size_eq; have := h.read_lt; have := h.write_lt
  unfold C4Ringbuf.fill
  split <;> omega

theorem add_fill_mod (h : Wf n buf) : (buf.readIndex + buf.fill) % n = buf.writeIndex := by
  have := h.size_eq; have := h.read_lt; have := h.write_lt
  unfold C4Ringbuf.fill
  split
  · rw [Nat.mod_eq_of_lt (by omega)]; omega
  · rw [Nat.mod_eq_sub_mod (by omega), Nat.mod_eq_of_lt (by omega)]; omega

theorem mask_eq (h : Wf n buf) (v : ℕ) : mask buf v = some (v % n) := by
  have := h.two_le
  rw [mask, h.size_eq, if_neg (by omega)]

theorem increment_eq (h : Wf n buf) {v : ℕ} (hv : v < n) :
    increment buf v = some ((v + 1) % n) := by
  have := h.lt_word
  rw [increment, h.mask_eq, Nat.mod_eq_of_lt (by omega : v + 1 < wordSize)]

theorem full_eq (h : Wf n buf) : c4RingbufFull buf = some (decide (buf.fill + 1 = n)) := by
  have := h.size_eq; have := h.read_lt; have := h.write_lt; have := h.two_le
  simp only [c4RingbufFull, h.increment_eq h.write_lt, succ_mod_eq h.write_lt,
    Option.pure_def, Option.bind_eq_bind, Option.bind_some, Option.some.injEq,
    Bool.beq_eq_decide_eq, decide_eq_decide]
  unfold C4Ringbuf.fill
  split_ifs <;> omega

theorem empty_eq (h : Wf n buf) : c4RingbufEmpty buf = decide (buf.fill = 0) := by
  have := h.size_eq; have := h.read_lt; have := h.write_lt
  simp only [c4RingbufEmpty, Bool.beq_eq_decide_eq, decide_eq_decide]
  unfold C4Ringbuf.fill
  split_ifs <;> omega

end Wf

/-! ## One byte -/

/-- The buffer `buf` of `n` data bytes holds the queue `q`. -/
def Refines (n : ℕ) (buf : C4Ringbuf) (q : Fifo UInt8 (n - 1)) : Prop :=
  Wf n buf ∧ buf.contents = q.items

namespace Refines

variable {n : ℕ} {buf : C4Ringbuf} {q : Fifo UInt8 (n - 1)}

theorem fill_eq (h : Refines n buf q) : buf.fill = q.items.length := by
  rw [← h.2, length_contents]

theorem room_eq (h : Refines n buf q) : q.room = n - 1 - buf.fill := by
  rw [Fifo.room, h.fill_eq]

end Refines

/-- The buffer after a byte was stored at the write index. -/
theorem Wf.pushed {n : ℕ} {buf : C4Ringbuf} (h : Wf n buf) (hroom : buf.fill + 1 < n)
    (byte : UInt8) :
    let buf' := { buf with
      data := Function.update buf.data buf.writeIndex byte
      writeIndex := (buf.writeIndex + 1) % n }
    Wf n buf' ∧ buf'.contents = buf.contents ++ [byte] := by
  intro buf'
  have hn := h.size_eq; have hr := h.read_lt; have hw := h.write_lt; have h2 := h.two_le
  have hwf : Wf n buf' := ⟨hn, h.extent_eq, h2, h.lt_word, hr, Nat.mod_lt _ (by omega)⟩
  have hfill : buf'.fill = buf.fill + 1 := by
    unfold C4Ringbuf.fill at hroom ⊢
    simp only [buf', succ_mod_eq hw]
    split_ifs at hroom ⊢ <;> omega
  refine ⟨hwf, ?_⟩
  rw [C4Ringbuf.contents, hfill, C4Ringbuf.contents]
  simp only [buf', hn]
  conv_lhs => rw [← h.add_fill_mod]
  exact window_push _ (by omega) _

/-- The buffer after the byte at the read index was taken. -/
theorem Wf.popped {n : ℕ} {buf : C4Ringbuf} (h : Wf n buf) (hfill : 0 < buf.fill) :
    let buf' := { buf with readIndex := (buf.readIndex + 1) % n }
    Wf n buf' ∧ buf.contents = buf.data buf.readIndex :: buf'.contents := by
  intro buf'
  have hn := h.size_eq; have hr := h.read_lt; have hw := h.write_lt; have h2 := h.two_le
  have hwf : Wf n buf' := ⟨hn, h.extent_eq, h2, h.lt_word, Nat.mod_lt _ (by omega), hw⟩
  have hfill' : buf.fill = buf'.fill + 1 := by
    unfold C4Ringbuf.fill at hfill ⊢
    simp only [buf', succ_mod_eq hr]
    split_ifs at hfill ⊢ <;> omega
  refine ⟨hwf, ?_⟩
  rw [C4Ringbuf.contents, hfill', window_pop, C4Ringbuf.contents]
  simp only [buf', hn, Nat.mod_eq_of_lt hr]

/-- A byte is stored at the write index, if the buffer is not full. -/
theorem Wf.putByte {n : ℕ} {buf : C4Ringbuf} (h : Wf n buf) (byte : UInt8) :
    c4RingbufPutByte buf byte = some
      (if buf.fill + 1 = n then (buf, false)
      else ({ buf with
        data := Function.update buf.data buf.writeIndex byte
        writeIndex := (buf.writeIndex + 1) % n }, true)) := by
  rw [c4RingbufPutByte, h.full_eq]
  by_cases hfull : buf.fill + 1 = n
  · simp [hfull]
  · have hst : buf.writeIndex < buf.extent := by rw [h.extent_eq]; exact h.write_lt
    have hst' : Wf n { buf with data := Function.update buf.data buf.writeIndex byte } :=
      ⟨h.size_eq, h.extent_eq, h.two_le, h.lt_word, h.read_lt, h.write_lt⟩
    simp only [hfull, C4Ringbuf.store, hst, if_true, decide_false, Bool.false_eq_true, if_false,
      Option.bind_eq_bind, Option.bind_some]
    rw [hst'.increment_eq h.write_lt]
    rfl

theorem c4RingbufPutByte_refines {n : ℕ} {buf : C4Ringbuf} {q : Fifo UInt8 (n - 1)}
    (h : Refines n buf q) (byte : UInt8) :
    ∃ buf', c4RingbufPutByte buf byte = some (buf', decide (0 < q.room)) ∧
      Refines n buf' (q.put [byte]) := by
  obtain ⟨hwf, hq⟩ := h
  have hroom := Refines.room_eq ⟨hwf, hq⟩
  have hlt := hwf.fill_lt
  by_cases hfull : buf.fill + 1 = n
  · refine ⟨buf, ?_, hwf, ?_⟩
    · simp [hwf.putByte, hfull, show q.room = 0 by omega]
    · simp [hq, show q.room = 0 by omega]
  · obtain ⟨hwf', hc⟩ := hwf.pushed (by omega) byte
    refine ⟨_, ?_, hwf', ?_⟩
    · rw [hwf.putByte, if_neg hfull, decide_eq_true (show 0 < q.room by omega)]
    · rw [hc, hq, Fifo.items_put, List.take_of_length_le]
      simp only [List.length_singleton]
      omega

theorem c4RingbufGetByte_refines {n : ℕ} {buf : C4Ringbuf} {q : Fifo UInt8 (n - 1)}
    (h : Refines n buf q) :
    ∃ buf', c4RingbufGetByte buf = some (buf', q.items.head?) ∧ Refines n buf' (q.drop 1) := by
  obtain ⟨hwf, hq⟩ := h
  by_cases hempty : buf.fill = 0
  · have hnil : q.items = [] := by
      rw [← List.length_eq_zero_iff, ← hq, length_contents, hempty]
    refine ⟨buf, ?_, hwf, ?_⟩
    · simp [c4RingbufGetByte, hwf.empty_eq, hempty, hnil]
    · simp [hq, hnil]
  · obtain ⟨hwf', hc⟩ := hwf.popped (by omega)
    refine ⟨_, ?_, hwf', ?_⟩
    · have hld : buf.readIndex < buf.extent := by rw [hwf.extent_eq]; exact hwf.read_lt
      simp [c4RingbufGetByte, hwf.empty_eq, hempty, C4Ringbuf.load, hld,
        hwf.increment_eq hwf.read_lt, ← hq, hc]
    · rw [Fifo.items_drop, ← hq, hc, List.drop_one, List.tail_cons]

/-! ## The loops -/

theorem c4RingbufWrite_refines {n : ℕ} (data : List UInt8) {buf : C4Ringbuf}
    {q : Fifo UInt8 (n - 1)} (h : Refines n buf q) :
    ∃ buf', c4RingbufWrite buf data = some (buf', min data.length q.room) ∧
      Refines n buf' (q.put data) := by
  induction data generalizing buf q with
  | nil => exact ⟨buf, by simp [c4RingbufWrite], h.1, by simp [h.2]⟩
  | cons byte data ih =>
    obtain ⟨buf₁, hput, h₁⟩ := c4RingbufPutByte_refines h byte
    by_cases hroom : 0 < q.room
    · obtain ⟨buf₂, hwrite, h₂⟩ := ih h₁
      have hr₁ : (q.put [byte]).room = q.room - 1 := q.room_put [byte]
      refine ⟨buf₂, ?_, ?_⟩
      · simp only [c4RingbufWrite, hput, hroom, decide_true, if_true, hwrite, hr₁,
          Option.bind_eq_bind, Option.bind_some, Option.pure_def, Option.some.injEq,
          Prod.mk.injEq, true_and, List.length_cons]
        omega
      · have e : (q.put [byte]).put data = q.put (byte :: data) := by
          obtain ⟨r, hr⟩ : ∃ r, q.room = r + 1 := ⟨q.room - 1, by omega⟩
          ext1
          simp [hr₁, hr]
        rw [← e]
        exact h₂
    · have hr0 : q.room = 0 := by omega
      refine ⟨buf₁, ?_, ?_⟩
      · simp [c4RingbufWrite, hput, hr0]
      · have e : q.put [byte] = q.put (byte :: data) := by
          ext1
          simp [hr0]
        rw [← e]
        exact h₁

theorem c4RingbufRead_refines {n : ℕ} (size : ℕ) {buf : C4Ringbuf} {q : Fifo UInt8 (n - 1)}
    (h : Refines n buf q) :
    ∃ buf', c4RingbufRead buf size = some (buf', q.items.take size) ∧
      Refines n buf' (q.drop size) := by
  induction size generalizing buf q with
  | zero => exact ⟨buf, by simp [c4RingbufRead], h.1, by simp [h.2]⟩
  | succ size ih =>
    obtain ⟨buf₁, hget, h₁⟩ := c4RingbufGetByte_refines h
    rcases hq : q.items with _ | ⟨byte, rest⟩
    · rw [hq, List.head?_nil] at hget
      refine ⟨buf₁, by simp [c4RingbufRead, hget], ?_⟩
      have e : q.drop 1 = q.drop (size + 1) := by ext1; simp [hq]
      rw [← e]
      exact h₁
    · rw [hq, List.head?_cons] at hget
      obtain ⟨buf₂, hread, h₂⟩ := ih h₁
      refine ⟨buf₂, ?_, ?_⟩
      · simp [c4RingbufRead, hget, hread, hq]
      · have e : (q.drop 1).drop size = q.drop (size + 1) := by ext1; simp [hq]
        rw [← e]
        exact h₂

/-! ## Runs -/

theorem c4RingbufInit_wf {raw buf : C4Ringbuf} {size : ℕ} (hsize : size < wordSize)
    (hmem : raw.extent + sizeofRingbuf = size) (h : c4RingbufInit raw size = (buf, true)) :
    Refines (size - sizeofRingbuf) buf Fifo.empty := by
  unfold c4RingbufInit at h
  split at h
  · next hlt =>
    obtain ⟨rfl, -⟩ := Prod.mk.inj h
    simp only [sizeofRingbuf] at hmem hlt ⊢
    refine ⟨⟨rfl, ?_, ?_, ?_, ?_, ?_⟩, ?_⟩
    · dsimp only; omega
    · omega
    · omega
    · dsimp only; omega
    · dsimp only; omega
    · simp [C4Ringbuf.contents, C4Ringbuf.fill]
  · simp at h

/-- One call on a buffer that holds a queue: it has a result, and the bytes it accepts or returns
are those of the queue operation. -/
theorem Trace.step_refines {n : ℕ} {t : Trace} {q : Fifo UInt8 (n - 1)} (h : Refines n t.buf q)
    (hist : t.returned ++ q.items = t.accepted) (op : Op) :
    ∃ t' q', t.step op = some t' ∧ Refines n t'.buf q' ∧ t'.returned ++ q'.items = t'.accepted := by
  cases op with
  | putByte byte =>
    obtain ⟨buf, hput, hbuf⟩ := c4RingbufPutByte_refines h byte
    refine ⟨_, _, by simp only [step, hput]; rfl, hbuf, ?_⟩
    rcases Nat.eq_zero_or_pos q.room with hr | hr
    · simp [hr, hist]
    · obtain ⟨r, hr'⟩ : ∃ r, q.room = r + 1 := ⟨q.room - 1, by omega⟩
      simp [hr', ← hist]
  | getByte =>
    obtain ⟨buf, hget, hbuf⟩ := c4RingbufGetByte_refines h
    refine ⟨_, _, by simp only [step, hget]; rfl, hbuf, ?_⟩
    rw [← hist]
    cases hq : q.items <;> simp [hq]
  | write data =>
    obtain ⟨buf, hwrite, hbuf⟩ := c4RingbufWrite_refines data h
    refine ⟨_, _, by simp only [step, hwrite]; rfl, hbuf, ?_⟩
    rw [Fifo.items_put, ← List.append_assoc, hist]
    dsimp only
    rw [Nat.min_comm, ← List.take_eq_take_min]
  | read size =>
    obtain ⟨buf, hread, hbuf⟩ := c4RingbufRead_refines size h
    refine ⟨_, _, by simp only [step, hread]; rfl, hbuf, ?_⟩
    rw [Fifo.items_drop, List.append_assoc, List.take_append_drop, hist]

/-- **Every run of the ring buffer is a run of a bounded queue.** -/
theorem Reachable.refines {size : ℕ} {t : Trace} (h : Reachable size t) :
    ∃ q, Refines (size - sizeofRingbuf) t.buf q ∧ t.returned ++ q.items = t.accepted := by
  induction h with
  | init raw hsize hmem h => exact ⟨Fifo.empty, c4RingbufInit_wf hsize hmem h, rfl⟩
  | step op ht h ih =>
    obtain ⟨q, hq, hist⟩ := ih
    obtain ⟨t', q', hstep, hq', hist'⟩ := Trace.step_refines hq hist op
    obtain rfl : _ = t' := Option.some.inj (h.symm.trans hstep)
    exact ⟨q', hq', hist'⟩

namespace Reachable

variable {size : ℕ} {t : Trace}

theorem wf (h : Reachable size t) : Wf (size - sizeofRingbuf) t.buf := by
  obtain ⟨q, hq, -⟩ := h.refines
  exact hq.1

/-- The queued bytes of a run are those between the two indices. -/
theorem queued_eq (h : Reachable size t) : t.queued = t.buf.fill := by
  obtain ⟨q, hq, hist⟩ := h.refines
  rw [Trace.queued, ← hist, List.length_append, Nat.add_sub_cancel_left, hq.fill_eq]

end Reachable

/-- **The ring buffer is a bounded queue.** In every run the returned bytes are a prefix of the
accepted bytes, a write accepts what fits beside the queued bytes with one byte kept empty, a
read returns what is queued, and both indices lie in the data of the buffer, which is exactly the
memory the operations may touch. -/
theorem ringbuf_fifo {size : ℕ} {t : Trace} (h : Reachable size t) :
    t.returned <+: t.accepted ∧
      (∀ data, ∃ buf', c4RingbufWrite t.buf data =
        some (buf', min data.length (t.buf.size - 1 - t.queued))) ∧
      (∀ len, ∃ buf' bytes, c4RingbufRead t.buf len = some (buf', bytes) ∧
        bytes.length = min len t.queued) ∧
      t.buf.readIndex < t.buf.size ∧ t.buf.writeIndex < t.buf.size ∧
      t.buf.extent = t.buf.size ∧ t.buf.size = size - sizeofRingbuf := by
  obtain ⟨q, hq, hist⟩ := h.refines
  have hwf := hq.1
  have hfill := h.queued_eq
  refine ⟨⟨q.items, hist⟩, fun data => ?_, fun len => ?_, ?_, ?_, ?_, hwf.size_eq⟩
  · obtain ⟨buf', hw, -⟩ := c4RingbufWrite_refines data hq
    exact ⟨buf', by rw [hw, hq.room_eq, hwf.size_eq, hfill]⟩
  · obtain ⟨buf', hr, -⟩ := c4RingbufRead_refines len hq
    exact ⟨buf', _, hr, by rw [List.length_take, hfill, hq.fill_eq]⟩
  · rw [hwf.size_eq]; exact hwf.read_lt
  · rw [hwf.size_eq]; exact hwf.write_lt
  · rw [hwf.size_eq]; exact hwf.extent_eq

/-- Four data bytes hold three queued bytes, and a read after a write of four bytes returns the
first two of them. -/
theorem ringbuf_fifo_four : ∃ t, Reachable 16 t ∧ t.accepted = [1, 2, 3] ∧ t.returned = [1, 2] ∧
    t.returned <+: t.accepted := by
  have h₀ : Reachable 16 ⟨⟨0, 0, 4, 4, fun _ => 0⟩, [], []⟩ :=
    .init ⟨7, 9, 0, 4, fun _ => 0⟩ (by decide) rfl rfl
  have h₁ := (h₀.step (.write [1, 2, 3, 4]) rfl).step (.read 2) rfl
  exact ⟨_, h₁, rfl, rfl, (ringbuf_fifo h₁).1⟩

end C4OS.Ringbuffer
