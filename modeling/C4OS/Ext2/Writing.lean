import C4OS.Ext2.Image

/-!
# Writing to a file

What a write moves from the client to the server.

A server *drains* the ring when every request takes some bytes out of it and is completed
(`Drains`). With such a server `fs_write_block` sends the bytes of its caller as long as they all
fit into the ring and the field `index` of the connection is zero: this field is added to the
caller's pointer, and it counts all bytes that were read or written before. `fwrites_transmit` says
so for any sequence of calls; `second_write_differs` has two calls of which the second one sends the
byte behind its own.
-/

namespace C4OS.Ext2

open Foundations Ringbuffer

variable {sb : Superblock} {d : Device} {conn : Conn} {cli : ClientState} {sys : System}
  {handler : Device → Conn → Result} {I : Device → Conn → Prop} {t : Transfer}
  {l : List UInt8}

/-! ## A server that drains the ring -/

/-- In the states `I` of a server, a request takes bytes out of the ring, if there are any, and is
completed. -/
def Drains (handler : Device → Conn → Result) (I : Device → Conn → Prop) : Prop :=
  ∀ d conn l, I d conn → Holds ringSize conn.ring l → l ≠ [] →
    ∃ d' conn' k, handler d conn = some (d', conn', [.completed [k]]) ∧ 0 < k ∧ k ≤ l.length ∧
      Holds ringSize conn'.ring (l.drop k) ∧ I d' conn'

/-- A client with no replies left, and the bytes `l` in the ring. -/
structure Sending (I : Device → Conn → Prop) (l : List UInt8) (sys : System) : Prop where
  server : I sys.dev sys.conn
  inbox : sys.inbox = []
  ring : Holds ringSize sys.conn.ring l

theorem Sending.requestWrite (h : Sending I l sys) (hdr : Drains handler I) (hne : l ≠ []) :
    ∃ sys' k, requestWrite handler sys t =
        some (sys', { t with taken := t.taken ++ l.take k }, .completed [k]) ∧
      0 < k ∧ k ≤ l.length ∧ Sending I (l.drop k) sys' ∧ sys'.index = sys.index := by
  obtain ⟨d', conn', k, hrun, hpos, hle, hring', hI'⟩ := hdr _ _ l h.server h.ring hne
  refine ⟨{ sys with dev := d', conn := conn' }, k, ?_, hpos, hle, ⟨hI', h.inbox, hring'⟩, rfl⟩
  have htaken : takenBytes sys.conn.ring conn'.ring = l.take k := by
    rw [takenBytes, h.ring.2, h.ring.fill_eq, hring'.fill_eq, List.length_drop]
    congr 1
    omega
  refine run_bind hrun ?_
  simp only [receive, h.inbox, List.nil_append, htaken]
  obtain ⟨dev, c, inbox, index⟩ := sys
  obtain rfl : inbox = [] := h.inbox
  rfl

/-- The second loop of `fs_write_block` ends when the server has taken all bytes. -/
theorem Sending.drainLoop (hdr : Drains handler I) {fuel : ℕ} (h : Sending I l sys)
    (hfuel : l.length < fuel) :
    ∃ sys', drainLoop handler fuel sys t = some (sys', { t with taken := t.taken ++ l }, none) ∧
      Sending I [] sys' ∧ sys'.index = sys.index := by
  induction fuel generalizing sys l t with
  | zero => omega
  | succ fuel ih =>
    rw [Ext2.drainLoop, h.ring.empty_eq]
    by_cases hl : l = []
    · subst hl
      refine ⟨sys, ?_, h, rfl⟩
      rw [if_pos (decide_eq_true rfl), List.append_nil]
    · rw [if_neg (by simpa using hl)]
      obtain ⟨sys₁, k, hreq, hpos, hle, hs, hidx⟩ := h.requestWrite (t := t) hdr hl
      obtain ⟨sys', hrest, hs', hidx'⟩ :=
        ih (t := { t with taken := t.taken ++ l.take k }) hs (by rw [List.length_drop]; omega)
      refine ⟨sys', run_bind hreq ?_, hs', hidx'.trans hidx⟩
      simp only [hrest, List.append_assoc, List.take_append_drop]

/-! ## The calls of a client -/

/-- A call of `fwrite`: the memory of the caller, and its arguments. -/
structure WriteCall where
  mem : ℕ → UInt8
  ptr : ℕ
  size : ℕ
  members : ℕ

namespace WriteCall

/-- The number of bytes. -/
def len (c : WriteCall) : ℕ := c.size * c.members

/-- The bytes of the caller. -/
def bytes (c : WriteCall) : List UInt8 := (List.range c.len).map fun i => c.mem (c.ptr + i)

/-- A length that fits into an `int`, of bytes that are in the memory of the caller. -/
def Valid (c : WriteCall) : Prop := c.len < 2 ^ 31 ∧ c.ptr + c.len ≤ wordSize

@[simp] theorem length_bytes (c : WriteCall) : c.bytes.length = c.len := by simp [bytes]

end WriteCall

/-- There is nothing to write, or nothing was read or written before and the bytes fit into the
ring. -/
def WriteFits (sys : System) (c : WriteCall) : Prop :=
  c.len = 0 ∨ sys.index = 0 ∧ c.len ≤ ringSize - 1

variable {c : WriteCall}

/-- The server is still in its states when the bytes of a caller are put into the ring. -/
def Accepts (I : Device → Conn → Prop) (sys : System) (c : WriteCall) : Prop :=
  ∀ ring, Holds ringSize ring c.bytes → I sys.dev { sys.conn with ring := ring }

/-- `fs_write_block` sends the bytes in one piece. -/
theorem fsWriteBlock_eq (hinbox : sys.inbox = []) (hempty : Holds ringSize sys.conn.ring [])
    (hacc : Accepts I sys c) (hdr : Drains handler I) (hv : c.Valid) (hidx : sys.index = 0)
    (hpos : c.len ≠ 0) (hle : c.len ≤ ringSize - 1) :
    ∃ sys', fsWriteBlock handler c.mem sys t (c.ptr + 0) c.len =
        some (sys', ⟨t.reads ++ (List.range c.len).map (c.ptr + ·), t.taken ++ c.bytes⟩,
          .ok c.len) ∧
      Sending I [] sys' ∧ sys'.index = c.len := by
  have hlt := hv.1
  have hfit := hv.2
  have haddr : ∀ i ∈ List.range c.len, (c.ptr + 0 + sys.index + i) % wordSize = c.ptr + i := by
    intro i hi
    have hi : i < c.len := List.mem_range.1 hi
    simp only [hidx, Nat.add_zero]
    exact Nat.mod_eq_of_lt (by omega)
  have hdata : (List.range c.len).map (fun i => c.mem ((c.ptr + 0 + sys.index + i) % wordSize)) =
      c.bytes := List.map_congr_left fun i hi => by rw [haddr i hi]
  have hroom : ([] : List UInt8).length + c.bytes.length < ringSize := by
    have hle' : c.len ≤ 4083 := hle
    rw [List.length_nil, c.length_bytes]
    show 0 + c.len < 4084
    omega
  obtain ⟨ring, hwrite, hring, -⟩ := hempty.write hroom
  rw [List.nil_append] at hring
  have hmin : min (c.len + 1) c.len = c.len := Nat.min_eq_right (Nat.le_succ _)
  have hreads : (List.range (min (c.len + 1) c.len)).map
      (fun i => (c.ptr + 0 + sys.index + i) % wordSize) = (List.range c.len).map (c.ptr + ·) := by
    rw [hmin]
    exact List.map_congr_left haddr
  have hindex : (sys.index + c.len) % wordSize = c.len := by
    rw [hidx, Nat.zero_add]
    exact Nat.mod_eq_of_lt (by show c.len < 2 ^ 32; omega)
  have hs₁ : Sending I c.bytes { sys with
      conn := { sys.conn with ring := ring }, index := c.len } := ⟨hacc ring hring, hinbox, hring⟩
  have hne : c.bytes ≠ [] := by
    intro h₀
    have := congrArg List.length h₀
    rw [c.length_bytes, List.length_nil] at this
    omega
  obtain ⟨sys₂, k, hreq, hk, hkle, hs₂, hidx₂⟩ := hs₁.requestWrite
    (t := { t with reads := t.reads ++ (List.range c.len).map (c.ptr + ·) }) hdr hne
  obtain ⟨sys₃, hdrain, hs₃, hidx₃⟩ := hs₂.drainLoop (t := ⟨t.reads ++
    (List.range c.len).map (c.ptr + ·), t.taken ++ c.bytes.take k⟩) hdr (Nat.lt_succ_self _)
  refine ⟨sys₃, ?_, hs₃, hidx₃.trans hidx₂⟩
  rw [Ext2.fsWriteBlock, if_neg hpos]
  have hloop : writeLoop handler c.mem (c.ptr + 0) (c.len + 1) sys t c.len 1 =
      some (sys₂, ⟨t.reads ++ (List.range c.len).map (c.ptr + ·), t.taken ++ c.bytes.take k⟩,
        .ok c.len) := by
    obtain ⟨m, hm⟩ : ∃ m, c.len = m + 1 := ⟨c.len - 1, by omega⟩
    rw [writeLoop, if_neg (by omega)]
    simp only [hdata]
    refine run_bind hwrite ?_
    simp only [c.length_bytes, hreads, hindex]
    refine run_bind hreq ?_
    simp only [Nat.sub_self]
    rw [hm, writeLoop, if_pos (.inl rfl)]
  refine run_bind hloop ?_
  have hfill : sys₂.conn.ring.fill + 1 = (c.bytes.drop k).length + 1 := by rw [hs₂.ring.fill_eq]
  simp only [hfill]
  refine run_bind hdrain ?_
  simp only [List.append_assoc, List.take_append_drop]
  rfl

theorem fwriteLoop_zero {fuel ptr ret : ℕ} {mem : ℕ → UInt8} :
    fwriteLoop handler mem ptr (fuel + 1) sys t 0 ret = some (sys, t, ret) := rfl

/-- A call without bytes does nothing. -/
theorem fwrite_zero (h : c.len = 0) :
    fwrite handler c.mem sys c.ptr c.size c.members = some (sys, ⟨[], []⟩, 0) := by
  have hmod : c.size * c.members % wordSize = 0 := by
    rw [show c.size * c.members = c.len from rfl, h]
    rfl
  rw [Ext2.fwrite, hmod]
  exact fwriteLoop_zero

/-- **A call with the ring and the connection at their start sends the bytes of the caller and no
others**, and returns their number. -/
theorem fwrite_eq (hinbox : sys.inbox = []) (hempty : Holds ringSize sys.conn.ring [])
    (hacc : Accepts I sys c) (hdr : Drains handler I) (hv : c.Valid) (hidx : sys.index = 0)
    (hpos : c.len ≠ 0) (hle : c.len ≤ ringSize - 1) :
    ∃ sys', fwrite handler c.mem sys c.ptr c.size c.members =
        some (sys', ⟨(List.range c.len).map (c.ptr + ·), c.bytes⟩, c.len) ∧
      Sending I [] sys' ∧ sys'.index = c.len := by
  have hlt := hv.1
  have hmod : c.size * c.members % wordSize = c.len :=
    Nat.mod_eq_of_lt (by show c.len < 2 ^ 32; omega)
  obtain ⟨sys', hrun, hs', hidx'⟩ :=
    fsWriteBlock_eq (t := ⟨[], []⟩) hinbox hempty hacc hdr hv hidx hpos hle
  refine ⟨sys', ?_, hs', hidx'⟩
  rw [Ext2.fwrite, hmod]
  refine run_bind hrun ?_
  obtain ⟨m, hm⟩ : ∃ m, c.len = m + 1 := ⟨c.len - 1, by omega⟩
  simp only [hm, Nat.sub_self, Nat.zero_add]
  exact fwriteLoop_zero

/-- A call that fits. -/
theorem Sending.fwrite (h : Sending I [] sys) (hdr : Drains handler I) (hv : c.Valid)
    (hfits : WriteFits sys c) (hacc : Accepts I sys c) :
    ∃ sys' t, fwrite handler c.mem sys c.ptr c.size c.members = some (sys', t, c.len) ∧
      Sending I [] sys' ∧ t.taken = c.bytes ∧ ∀ a ∈ t.reads, c.ptr ≤ a ∧ a < c.ptr + c.len := by
  rcases Nat.eq_zero_or_pos c.len with hz | hpos
  · refine ⟨sys, ⟨[], []⟩, hz ▸ fwrite_zero hz, h, ?_, fun a ha => absurd ha List.not_mem_nil⟩
    rw [WriteCall.bytes, hz]
    rfl
  · obtain ⟨hidx, hle⟩ := hfits.resolve_left (Nat.ne_of_gt hpos)
    obtain ⟨sys', hrun, hs', -⟩ :=
      fwrite_eq h.inbox h.ring hacc hdr hv hidx (Nat.ne_of_gt hpos) hle
    refine ⟨sys', _, hrun, hs', rfl, fun a ha => ?_⟩
    obtain ⟨i, hi, rfl⟩ := List.mem_map.1 ha
    have hi : i < c.len := List.mem_range.1 hi
    omega

/-- Calls of `fwrite` one after the other, with what they moved and returned. -/
def fwrites (handler : Device → Conn → Result) :
    System → List WriteCall → Option (System × List (Transfer × ℕ))
  | sys, [] => some (sys, [])
  | sys, c :: calls => do
    let (sys, t, ret) ← fwrite handler c.mem sys c.ptr c.size c.members
    let (sys, rest) ← fwrites handler sys calls
    return (sys, (t, ret) :: rest)

/-- Every call of a sequence fits when it is made. -/
def WritesFit (handler : Device → Conn → Result) : System → List WriteCall → Prop
  | _, [] => True
  | sys, c :: calls => WriteFits sys c ∧ ∀ sys' t ret,
    fwrite handler c.mem sys c.ptr c.size c.members = some (sys', t, ret) →
      WritesFit handler sys' calls

/-- The calls return, the server took the bytes of the callers out of the ring, each call read only
its own bytes and returned their number. -/
def Transmits (handler : Device → Conn → Result) (sys : System) (calls : List WriteCall) : Prop :=
  ∃ sys' results, fwrites handler sys calls = some (sys', results) ∧
    results.length = calls.length ∧
    (results.map fun r => r.1.taken).flatten = (calls.map WriteCall.bytes).flatten ∧
    ∀ x ∈ calls.zip results, x.2.2 = x.1.len ∧
      ∀ a ∈ x.2.1.reads, x.1.ptr ≤ a ∧ a < x.1.ptr + x.1.len

/-- **The bytes of the callers are sent once and in order**, when every call fits. The states `I` of
the server do not depend on the ring. -/
theorem fwrites_transmit {I : Device → Option ClientState → Prop}
    (hdr : Drains handler fun d conn => I d conn.progData) {calls : List WriteCall}
    (h : Sending (fun d conn => I d conn.progData) [] sys)
    (hv : ∀ c ∈ calls, c.Valid) (hfit : WritesFit handler sys calls) :
    Transmits handler sys calls := by
  induction calls generalizing sys with
  | nil => exact ⟨sys, [], rfl, rfl, rfl, by simp⟩
  | cons c calls ih =>
    obtain ⟨hc, hrest⟩ := hfit
    obtain ⟨sys₁, t, hrun, hs, htaken, hreads⟩ :=
      h.fwrite hdr (hv c List.mem_cons_self) hc fun _ _ => h.server
    obtain ⟨sys', results, hruns, hlen, hflat, hall⟩ :=
      ih hs (fun c hc => hv c (List.mem_cons_of_mem _ hc)) (hrest _ _ _ hrun)
    refine ⟨sys', (t, c.len) :: results, run_bind hrun (run_bind hruns rfl), ?_, ?_, ?_⟩
    · rw [List.length_cons, List.length_cons, hlen]
    · rw [List.map_cons, List.flatten_cons, List.map_cons, List.flatten_cons, htaken, hflat]
    · intro x hx
      rw [List.zip_cons_cons, List.mem_cons] at hx
      rcases hx with rfl | hx
      · exact ⟨rfl, hreads⟩
      · exact hall x hx

/-- A server that takes a block of 1024 bytes at a time. -/
def blockServer (d : Device) (conn : Conn) : Result := do
  let (ring, bytes) ← c4RingbufRead conn.ring 1024
  return (d, { conn with ring := ring }, [.completed [bytes.length]])

theorem blockServer_drains : Drains blockServer fun _ _ => True := by
  intro d conn l _ hring hne
  obtain ⟨ring', hread, hring', -⟩ := hring.read 1024
  have hpos := List.length_pos_iff.2 hne
  refine ⟨d, { conn with ring := ring' }, min 1024 l.length, run_bind hread ?_, by omega, by omega,
    ?_, trivial⟩
  · simp only [List.length_take]
    rfl
  · rcases Nat.le_total 1024 l.length with hle | hle
    · rwa [Nat.min_eq_left hle]
    · rw [Nat.min_eq_right hle]
      rwa [List.drop_eq_nil_of_le hle, ← List.drop_length (l := l)] at hring'

/-- A client that writes the byte `a` at the address 256 or the byte `b` at the address 512. -/
def oneByteCall (ptr : ℕ) : WriteCall :=
  ⟨fun a => if a = 256 then 0x61 else if a = 512 then 0x62 else 0, ptr, 1, 1⟩

theorem sending_connect (disk : ℕ → UInt8) : Sending (fun _ _ => True) [] (.connect disk) :=
  ⟨trivial, rfl, System.connect_holds disk⟩

/-- A client that writes 700 members of three bytes, at the address 4096. -/
def longCall : WriteCall := ⟨fun a => UInt8.ofNat (a % 251), 4096, 3, 700⟩

/-- A call with 2100 bytes, which the server takes in three parts, between two without any. -/
theorem fwrites_transmit_long : Transmits blockServer (.connect fun _ => 0)
    [{ oneByteCall 256 with size := 0 }, longCall, { oneByteCall 512 with members := 0 }] := by
  refine fwrites_transmit (I := fun _ _ => True) blockServer_drains (sending_connect _) ?_
    ⟨.inl rfl, fun sys t ret hrun => ?_⟩
  · intro c hc
    simp only [List.mem_cons, List.not_mem_nil, or_false] at hc
    rcases hc with rfl | rfl | rfl
    · exact ⟨by decide, by decide⟩
    · exact ⟨by decide, by decide⟩
    · exact ⟨by decide, by decide⟩
  -- the first call leaves the index of the client
  · obtain rfl : System.connect (fun _ => 0) = sys := congrArg Prod.fst (Option.some.inj hrun)
    exact ⟨.inr ⟨rfl, by decide⟩, fun _ _ _ _ => ⟨.inl rfl, fun _ _ _ _ => trivial⟩⟩

/-- Of two calls with one byte each, the second one sends the byte behind its own. -/
theorem second_write_differs : ¬ ∀ (handler : Device → Conn → Result)
    (I : Device → Option ClientState → Prop) (sys : System) (calls : List WriteCall),
    Drains handler (fun d conn => I d conn.progData) →
    Sending (fun d conn => I d conn.progData) [] sys → sys.index = 0 → (∀ c ∈ calls, c.Valid) →
    Transmits handler sys calls := by
  intro h
  obtain ⟨sys', results, hrun, -, hflat, -⟩ := h blockServer (fun _ _ => True) (.connect fun _ => 0)
    [oneByteCall 256, oneByteCall 512] blockServer_drains (sending_connect _) rfl (by
      intro c hc
      simp only [List.mem_cons, List.not_mem_nil, or_false] at hc
      rcases hc with rfl | rfl
      · exact ⟨by decide, by decide⟩
      · exact ⟨by decide, by decide⟩)
  have hsent : (fwrites blockServer (.connect fun _ => 0)
      [oneByteCall 256, oneByteCall 512]).map (fun r => (r.2.map fun x => x.1.taken).flatten) =
      some [0x61, 0] := by decide +kernel
  have hbytes : ([oneByteCall 256, oneByteCall 512].map WriteCall.bytes).flatten = [0x61, 0x62] := by
    decide
  rw [hrun, Option.map_some, Option.some.injEq] at hsent
  rw [hbytes, hsent] at hflat
  exact absurd hflat (by decide)

end C4OS.Ext2
