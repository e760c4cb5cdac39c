import C4OS.Libc.Stdio
import C4OS.Ext2.Client

/-!
# Opening files

`fopen` of `stdio.c` with the functions of `filesystem.h` it calls, over any server. The components
of a path are copied one after the other into a buffer of `FS_MAX_NAME_LEN + 1` characters and sent
through the ring of the connection `current_fs`. A copy that does not fit is cut off, but its full
length is sent: the name of a longer component ends with the terminator of the buffer and what is
behind the buffer on the stack (`sentName`), until the ring is full or the stack ends (`Frame`).

`fopen_iff` says for every tree of directories and every path when the result is what the path
means, with repeated and trailing slashes: the first component longer than 256 characters that the
walk comes to leads to nothing, and the bytes that are read for it are on the stack (`NamesFit`).
-/

namespace C4OS.Libc

open Foundations Ringbuffer

/-- The character `'/'`. -/
def slash : UInt8 := 0x2f

/-- `FS_MAX_NAME_LEN`. -/
abbrev fsMaxNameLen : ℕ := 256

/-- `fs_node_t`. -/
structure FsNode where
  inode : ℕ
  type : ℕ
  size : ℕ
  deriving DecidableEq

/-- The types of the messages between `fopen` and a server. -/
inductive FsMsg
  | findName
  | setNode
  | completed
  | error
  deriving DecidableEq

/-- A message with its words. -/
structure Message where
  type : FsMsg
  data : List ℕ

/-- `data[i]`; the words that are not given are zero. -/
def Message.word (msg : Message) (i : ℕ) : ℕ := msg.data.getD i 0

/-- `-msg.data[0]`, as an `int`. -/
def Message.negError (msg : Message) : ℤ := (-(msg.word 0 : ℤ)).bmod (2 ^ 32)

/-- A file server as its clients see it, with any state. -/
structure FsServer (σ : Type) where
  /-- `c4rt_connman_connect`: the number of the client, and the ring of the connection. -/
  connect : σ → σ × ℕ × C4Ringbuf
  /-- `c4rt_connman_call` of a client, with the ring and the message. -/
  call : σ → ℕ → C4Ringbuf → Message → Option (σ × C4Ringbuf × Message)

/-- `fs_connection_t`, with the number of the client for the field `server`. -/
structure FsConnection where
  client : ℕ
  ringbuf : C4Ringbuf
  currentNode : FsNode
  index : ℕ

/-- The fields of a `FILE` that `fopen` assigns. -/
structure OpenFile extends File FsConnection where
  node : FsNode
  charbuf : ℤ
  mode : ℕ

/-- The static variables of `stdio.c` after `init_rootfs`, with the state of the server. -/
structure Rootfs (σ : Type) where
  server : σ
  rootDir : FsNode
  currentDir : FsNode
  currentFs : FsConnection

/-! ## Characters -/

/-- The loop of `strlcpy`: the characters that are copied, at most `n` of them. -/
def strlcpyLoop : Chars → ℕ → Option (List UInt8)
  | _, 0 => some []
  | [], _ + 1 => none
  | c :: s, n + 1 => if c = 0 then some [] else do return c :: (← strlcpyLoop s n)

/-- `strlcpy`: the memory from `dest` on, and the length of the string. -/
def strlcpy (dest : ℕ → UInt8) (src : Chars) (n : ℕ) : Option ((ℕ → UInt8) × ℕ) := do
  let dest ← if n = 0 then some dest
    else (strlcpyLoop src (n - 1)).map fun l => writeBytes dest 0 (l ++ [0])
  return (dest, ← strlen src)

/-- The flag of a character of the mode: `FILE_MODE_READ`, `FILE_MODE_WRITE` or
`FILE_MODE_APPEND`. -/
def modeflag (c : UInt8) : ℕ :=
  if c = 0x72 then 2 else if c = 0x77 then 4 else if c = 0x2b then 8 else 0

/-- `translate_modeflags`. -/
def translateModeflags : Chars → Option ℕ
  | [] => none
  | c :: s => if c = 0 then some 0 else do return modeflag c ||| (← translateModeflags s)

/-- `while ( *path == '/' ) path++`. -/
def skipSlashes : Chars → Option Chars
  | [] => none
  | c :: s => if c = slash then skipSlashes s else some (c :: s)

/-- `c4_ringbuf_write` of `size` bytes of a memory, from the byte `i` on. -/
def ringbufWriteFrom (load : ℕ → Option UInt8) : ℕ → ℕ → C4Ringbuf → Option (C4Ringbuf × ℕ)
  | 0, _, buf => some (buf, 0)
  | size + 1, i, buf => do
    let byte ← load i
    let (buf, written) ← c4RingbufPutByte buf byte
    if written then
      let (buf, wrote) ← ringbufWriteFrom load size (i + 1) buf
      return (buf, wrote + 1)
    else
      return (buf, 0)

/-- The stack from the local variable `namebuf` on: its bytes before the call, those behind it at
each turn of the loop, and the number of all bytes up to the end of the stack. -/
structure Frame where
  namebuf : ℕ → UInt8
  behind : ℕ → ℕ → UInt8
  extent : ℕ
  lt_extent : fsMaxNameLen < extent

/-- `namebuf[i]`, also behind the buffer. -/
def Frame.load (frame : Frame) (turn : ℕ) (namebuf : ℕ → UInt8) (i : ℕ) : Option UInt8 :=
  if i < fsMaxNameLen + 1 then some (namebuf i)
  else if i < frame.extent then some (frame.behind turn i)
  else none

/-! ## The calls -/

variable {σ : Type} (srv : FsServer σ)

/-- `fs_connect` on the cleared memory of a new `FILE`. -/
def fsConnect (s : σ) : σ × FsConnection :=
  let (s, client, ring) := srv.connect s
  (s, ⟨client, ring, ⟨0, 0, 0⟩, 0⟩)

/-- `fs_set_node`. -/
def fsSetNode (s : σ) (conn : FsConnection) (node : FsNode) : Option (σ × FsConnection × ℤ) := do
  let (s, ring, msg) ← srv.call s conn.client conn.ringbuf ⟨.setNode, [node.inode]⟩
  return (s, { conn with currentNode := node, ringbuf := ring },
    if msg.type = .error then msg.negError else 1)

/-- `fs_find_name`, with the node that is found, or the one that was in `nodebuf` before. -/
def fsFindName (s : σ) (conn : FsConnection) (nodebuf : FsNode) (name : ℕ → Option UInt8)
    (namelen : ℕ) : Option (σ × FsConnection × FsNode × ℤ) := do
  let (ring, _) ← ringbufWriteFrom name namelen 0 conn.ringbuf
  let (s, ring, msg) ← srv.call s conn.client ring ⟨.findName, [namelen]⟩
  let conn := { conn with ringbuf := ring }
  if msg.type = .error then
    return (s, conn, nodebuf, msg.negError)
  else
    return (s, conn, ⟨msg.word 0, msg.word 1, msg.word 2⟩, 1)

/-- The loop of `fopen`. Each turn but the last one goes past a character. -/
def fopenLoop (frame : Frame) (mode : Chars) : ℕ → σ → FsConnection → FsNode → Chars → (ℕ → UInt8) →
    Option (σ × FsConnection × Option OpenFile)
  | 0, _, _, _, _, _ => none
  | fuel + 1, s, currentFs, temp, path, namebuf => do
    let path ← skipSlashes path
    let foo ← strcspn path [slash, 0]
    let maxlen := fsMaxNameLen + 1
    if foo = 0 then
      let flags ← translateModeflags mode
      let (s, conn) := fsConnect srv s
      let (s, conn, _) ← fsSetNode srv s conn temp
      return (s, currentFs, some ⟨⟨conn, .prettyGood⟩, temp, 0, flags⟩)
    else
      let (s, currentFs, _) ← fsSetNode srv s currentFs temp
      let (namebuf, _) ← strlcpy namebuf path (if foo + 1 < maxlen then foo + 1 else maxlen)
      let (s, currentFs, temp, found) ← fsFindName srv s currentFs temp (frame.load fuel namebuf) foo
      let path := path.drop foo
      if found > 0 then
        fopenLoop frame mode fuel s currentFs temp path namebuf
      else
        return (s, currentFs, none)

/-- `fopen`. -/
def fopen (frame : Frame) (fs : Rootfs σ) (path mode : Chars) :
    Option (Rootfs σ × Option OpenFile) := do
  let c ← path.head?
  let temp := if c = slash then fs.rootDir else fs.currentDir
  let (s, currentFs, ret) ←
    fopenLoop srv frame mode (path.length + 1) fs.server fs.currentFs temp path frame.namebuf
  return ({ fs with server := s, currentFs := currentFs }, ret)

/-! ## What a path means -/

/-- A tree of directories. -/
structure FsTree where
  isNode : ℕ → Prop
  /-- The entries of a directory, and nothing for any other node. -/
  entries : ℕ → Option (List UInt8 → Option FsNode)
  name_noNul : ∀ {i es name node}, entries i = some es → es name = some node → NoNul name
  isNode_entry : ∀ {i es name node}, entries i = some es → es name = some node → isNode node.inode

namespace FsTree

/-- The node of a name in a directory. -/
def lookup (t : FsTree) (i : ℕ) (name : List UInt8) : Option FsNode := do
  let es ← t.entries i
  es name

/-- The node that names lead to. -/
def resolve (t : FsTree) : FsNode → List (List UInt8) → Option FsNode
  | node, [] => some node
  | node, name :: names => do t.resolve (← t.lookup node.inode name) names

/-- The first name that is come to and is longer than `FS_MAX_NAME_LEN` leads to nothing, and the
stack, of `extent` bytes, does not end before the name or the first byte that a ring refuses. -/
def NamesFit (t : FsTree) (extent : ℕ) : FsNode → List (List UInt8) → Prop
  | _, [] => True
  | node, name :: names =>
    if name.length ≤ fsMaxNameLen then
      ∀ next, t.lookup node.inode name = some next → t.NamesFit extent next names
    else min name.length Ext2.ringSize ≤ extent ∧ t.resolve node (name :: names) = none

end FsTree

/-- The components of a path that are not empty. -/
def components (path : List UInt8) : List (List UInt8) := (path.splitOn slash).filter (· ≠ [])

/-- A slash is repeated, or one is put behind the path. -/
inductive AddsSlash : List UInt8 → List UInt8 → Prop
  | repeated (l r : List UInt8) : AddsSlash (l ++ slash :: r) (l ++ slash :: slash :: r)
  | trailing (l : List UInt8) (h : l ≠ []) : AddsSlash l (l ++ [slash])

/-- The directory a path starts at. -/
def Rootfs.start (fs : Rootfs σ) (path : List UInt8) : FsNode :=
  if path.head? = some slash then fs.rootDir else fs.currentDir

/-- A server answers the requests of `fopen` right: a node of the tree can be selected, a name that
is in the ring is looked up in the directory that was selected last, and a name that is longer than
what a ring can hold is refused. -/
structure Serves (t : FsTree) (ready : σ → ℕ → Prop) (current : σ → ℕ → ℕ → Prop) : Prop where
  connect : ∀ s, ready (srv.connect s).1 (srv.connect s).2.1 ∧
    Holds Ext2.ringSize (srv.connect s).2.2 []
  set_node : ∀ {s c ring i}, ready s c → Holds Ext2.ringSize ring [] → t.isNode i →
    ∃ s' ring' msg, srv.call s c ring ⟨.setNode, [i]⟩ = some (s', ring', msg) ∧
      msg.type = .completed ∧ current s' c i ∧ Holds Ext2.ringSize ring' []
  find_name : ∀ {s c ring i name}, current s c i → Holds Ext2.ringSize ring name →
    ∃ s' ring' msg, srv.call s c ring ⟨.findName, [name.length]⟩ = some (s', ring', msg) ∧
      match t.lookup i name with
      | some node => msg = ⟨.completed, [node.inode, node.type, node.size]⟩ ∧ ready s' c ∧
          Holds Ext2.ringSize ring' []
      | none => ∃ e, msg = ⟨.error, [e]⟩ ∧ 1 ≤ e ∧ e ≤ 8
  refuse : ∀ {s c ring i held len}, current s c i → Holds Ext2.ringSize ring held →
    Ext2.ringSize ≤ len → ∃ s' ring' e, srv.call s c ring ⟨.findName, [len]⟩ =
      some (s', ring', ⟨.error, [e]⟩) ∧ 1 ≤ e ∧ e ≤ 8

/-- A file is open at the node, when there is one, and selected for its connection. -/
def OpenAt (current : σ → ℕ → ℕ → Prop) (s : σ) : Option OpenFile → Option FsNode → Prop
  | some fp, some node => fp.node = node ∧ fp.status = .prettyGood ∧
      current s fp.conn.client node.inode
  | none, none => True
  | _, _ => False

/-- A path is resolved, however many slashes are put into it or left out. -/
def PathResolved (frame : Frame) (t : FsTree) (current : σ → ℕ → ℕ → Prop) (fs : Rootfs σ)
    (path : List UInt8) (rest mode : Chars) : Prop :=
  ∀ path', Relation.EqvGen AddsSlash path path' → ∃ fs' ret,
    fopen srv frame fs (path' ++ 0 :: rest) mode = some (fs', ret) ∧
      OpenAt current fs'.server ret (t.resolve (fs.start path) (components path))

/-! ## Components -/

section Components

variable {l l' r name rest : List UInt8}

@[simp] theorem components_nil : components [] = [] := rfl

theorem components_append_slash (l r : List UInt8) :
    components (l ++ slash :: r) = components l ++ components r := by
  have hsplit := List.splitOnP_append_cons (p := (· == slash)) l r (beq_self_eq_true slash)
  rw [components, List.splitOn, hsplit, List.filter_append]
  rfl

theorem components_slash (r : List UInt8) : components (slash :: r) = components r :=
  components_append_slash [] r

theorem components_name (hne : name ≠ []) (hname : slash ∉ name) : components name = [name] := by
  have hall : ∀ c ∈ name, (c == slash) = false := fun c hc =>
    beq_eq_false_iff_ne.2 fun heq => hname (heq ▸ hc)
  rw [components, List.splitOn, List.splitOnP_eq_singleton hall]
  simp [hne]

/-- What is behind a component. -/
theorem components_name_append (hne : name ≠ []) (hname : slash ∉ name)
    (hr : r = [] ∨ ∃ r', r = slash :: r') : components (name ++ r) = name :: components r := by
  rcases hr with rfl | ⟨r', rfl⟩
  · rw [List.append_nil, components_name hne hname]
    rfl
  · rw [components_append_slash, components_name hne hname, components_slash]
    rfl

/-- A path is slashes, or slashes, a component and what is behind it. -/
theorem path_cases (l : List UInt8) : ∃ k, l = List.replicate k slash ∨
    ∃ name r, l = List.replicate k slash ++ (name ++ r) ∧ name ≠ [] ∧ slash ∉ name ∧
      (r = [] ∨ ∃ r', r = slash :: r') := by
  induction l with
  | nil => exact ⟨0, .inl rfl⟩
  | cons c l ih =>
    obtain ⟨k, hl⟩ := ih
    by_cases hc : c = slash
    · subst hc
      refine ⟨k + 1, hl.imp (fun hl => by rw [hl]; rfl) ?_⟩
      rintro ⟨name, r, rfl, hrest⟩
      exact ⟨name, r, rfl, hrest⟩
    · refine ⟨0, .inr ?_⟩
      have hc' : slash ∉ [c] := fun hmem => hc (List.mem_singleton.1 hmem).symm
      cases k with
      | succ k =>
        refine ⟨[c], l, rfl, by simp, hc', .inr ?_⟩
        rcases hl with rfl | ⟨name, r, rfl, -⟩
        · exact ⟨_, rfl⟩
        · exact ⟨_, rfl⟩
      | zero =>
        rcases hl with rfl | ⟨name, r, rfl, -, hname, hr⟩
        · exact ⟨[c], [], rfl, by simp, hc', .inl rfl⟩
        · refine ⟨c :: name, r, rfl, by simp, ?_, hr⟩
          simp [hname, Ne.symm hc]

theorem components_replicate_append (k : ℕ) (r : List UInt8) :
    components (List.replicate k slash ++ r) = components r := by
  induction k with
  | zero => rfl
  | succ k ih => exact (components_slash _).trans ih

/-- Slashes that are put into a path do not matter. -/
theorem AddsSlash.same (h : AddsSlash l l') : components l = components l' ∧
    (l.head? = some slash ↔ l'.head? = some slash) ∧ (NoNul l ↔ NoNul l') := by
  cases h with
  | repeated l r =>
    refine ⟨?_, ?_, ?_⟩
    · rw [components_append_slash, components_append_slash, components_slash]
    · cases l with
      | nil => exact Iff.rfl
      | cons c l => exact Iff.rfl
    · simp only [NoNul, List.mem_append, List.mem_cons]
      grind
  | trailing l hl =>
    refine ⟨?_, ?_, ?_⟩
    · rw [components_append_slash, components_nil, List.append_nil]
    · cases l with
      | nil => exact absurd rfl hl
      | cons c l => exact Iff.rfl
    · simp only [NoNul, List.mem_append, List.mem_singleton]
      have : slash ≠ 0 := by decide
      grind

theorem eqvGen_same (h : Relation.EqvGen AddsSlash l l') : components l = components l' ∧
    (l.head? = some slash ↔ l'.head? = some slash) ∧ (NoNul l ↔ NoNul l') := by
  induction h with
  | rel l l' h => exact h.same
  | refl l => exact ⟨rfl, Iff.rfl, Iff.rfl⟩
  | symm l l' _ ih => exact ⟨ih.1.symm, ih.2.1.symm, ih.2.2.symm⟩
  | trans l l' l'' _ _ ih ih' =>
    exact ⟨ih.1.trans ih'.1, ih.2.1.trans ih'.2.1, ih.2.2.trans ih'.2.2⟩

theorem skipSlashes_replicate (k : ℕ) {c : UInt8} (hc : c ≠ slash) (s : Chars) :
    skipSlashes (List.replicate k slash ++ c :: s) = some (c :: s) := by
  induction k with
  | zero => exact if_neg hc
  | succ k ih => exact (if_pos rfl).trans ih

end Components

/-! ## Copies -/

section Copies

variable {l : List UInt8} {n i : ℕ} {s : Chars} {buf buf' : C4Ringbuf} {load : ℕ → Option UInt8}

/-- The copy stops at the limit. -/
theorem strlcpyLoop_take (h : NoNul l) (hn : n ≤ l.length) (s : Chars) :
    strlcpyLoop (l ++ s) n = some (l.take n) := by
  induction l generalizing n with
  | nil =>
    obtain rfl : n = 0 := Nat.le_zero.1 hn
    cases s <;> rfl
  | cons c l ih =>
    cases n with
    | zero => rfl
    | succ n =>
      obtain ⟨hc, hl⟩ := noNul_cons.1 h
      rw [List.cons_append, strlcpyLoop, if_neg hc, ih hl (Nat.le_of_succ_le_succ hn)]
      rfl

theorem translateModeflags_isSome (h : NoNul l) (s : Chars) :
    ∃ flags, translateModeflags (l ++ 0 :: s) = some flags := by
  induction l with
  | nil => exact ⟨0, rfl⟩
  | cons c l ih =>
    obtain ⟨hc, hl⟩ := noNul_cons.1 h
    obtain ⟨flags, hflags⟩ := ih hl
    refine ⟨modeflag c ||| flags, ?_⟩
    rw [List.cons_append, translateModeflags, if_neg hc, hflags]
    rfl

/-- A write goes on behind bytes that can be read and fit. -/
theorem ringbufWriteFrom_append {held : List UInt8} (hring : Holds n buf held)
    (h : ∀ j (hj : j < l.length), load (i + j) = some l[j]) (hfit : held.length + l.length < n)
    (k : ℕ) : ∃ buf', Holds n buf' (held ++ l) ∧ ringbufWriteFrom load (l.length + k) i buf =
      (ringbufWriteFrom load k (i + l.length) buf').map fun r => (r.1, r.2 + l.length) := by
  induction l generalizing i buf held with
  | nil =>
    refine ⟨buf, by rwa [List.append_nil], ?_⟩
    rw [List.length_nil, Nat.zero_add, Nat.add_zero]
    cases ringbufWriteFrom load k i buf <;> rfl
  | cons c l ih =>
    rw [List.length_cons] at hfit
    obtain ⟨buf₁, hput, hring₁⟩ := @Holds.putByte _ _ _ hring c (by omega)
    obtain ⟨buf', hring', hrun⟩ := ih (i := i + 1) hring₁ (fun j hj => by
      have := h (j + 1) (Nat.succ_lt_succ hj)
      rwa [← Nat.add_assoc, Nat.add_right_comm] at this) (by
        rw [List.length_append, List.length_singleton]
        omega)
    refine ⟨buf', by rwa [List.append_assoc] at hring', ?_⟩
    have hc : load i = some c := h 0 (Nat.succ_pos _)
    have hat : i + (c :: l).length = i + 1 + l.length := by
      rw [List.length_cons]
      omega
    rw [List.length_cons, Nat.add_right_comm, ringbufWriteFrom, hc, ← List.length_cons (a := c), hat]
    simp only [Option.bind_eq_bind, Option.bind_some, hput, if_true, hrun]
    cases ringbufWriteFrom load k (i + 1 + l.length) buf' <;> rfl

/-- A write of bytes that can be read and fit. -/
theorem ringbufWriteFrom_eq {held : List UInt8} (hring : Holds n buf held)
    (h : ∀ j (hj : j < l.length), load (i + j) = some l[j]) (hfit : held.length + l.length < n) :
    ∃ buf', Holds n buf' (held ++ l) ∧
      ringbufWriteFrom load l.length i buf = some (buf', l.length) := by
  obtain ⟨buf', hring', hrun⟩ := ringbufWriteFrom_append hring h hfit 0
  exact ⟨buf', hring', hrun.trans (by rw [ringbufWriteFrom, Option.map_some, Nat.zero_add])⟩

/-- A write that fills the ring; one byte more is read. -/
theorem ringbufWriteFrom_full {held : List UInt8} (hring : Holds n buf held)
    (h : ∀ j (hj : j < l.length), load (i + j) = some l[j])
    (hlast : (load (i + l.length)).isSome) (hfull : held.length + l.length + 1 = n) {size : ℕ}
    (hsize : l.length < size) : ∃ buf', Holds n buf' (held ++ l) ∧
      ringbufWriteFrom load size i buf = some (buf', l.length) := by
  obtain ⟨k, rfl⟩ : ∃ k, size = l.length + (k + 1) := ⟨size - l.length - 1, by omega⟩
  obtain ⟨buf', hring', hrun⟩ := ringbufWriteFrom_append hring h (by omega) (k + 1)
  obtain ⟨byte, hbyte⟩ := Option.isSome_iff_exists.1 hlast
  have hput : c4RingbufPutByte buf' byte = some (buf', false) := hring'.putByte_full (by
    rw [List.length_append]
    exact hfull)
  refine ⟨buf', hring', hrun.trans ?_⟩
  rw [ringbufWriteFrom, hbyte]
  simp only [Option.bind_eq_bind, Option.bind_some, hput]
  rw [if_neg Bool.false_ne_true, Option.pure_def, Option.map_some, Nat.zero_add]

/-- A write that comes to a byte that is not there. -/
theorem ringbufWriteFrom_eq_none {held : List UInt8} (hring : Holds n buf held)
    (h : ∀ j (hj : j < l.length), load (i + j) = some l[j]) (hlast : load (i + l.length) = none)
    (hfit : held.length + l.length < n) {size : ℕ} (hsize : l.length < size) :
    ringbufWriteFrom load size i buf = none := by
  obtain ⟨k, rfl⟩ : ∃ k, size = l.length + (k + 1) := ⟨size - l.length - 1, by omega⟩
  obtain ⟨buf', -, hrun⟩ := ringbufWriteFrom_append hring h hfit (k + 1)
  rw [hrun, ringbufWriteFrom, hlast]
  rfl

end Copies

/-! ## One component -/

section Lookup

variable {srv} {t : FsTree} {ready : σ → ℕ → Prop} {current : σ → ℕ → ℕ → Prop} {s : σ}
  {conn : FsConnection} {temp : FsNode} {name l : List UInt8} {namebuf : ℕ → UInt8}

/-- The bytes that are sent for a component: the buffer, and what is behind it. -/
def sentName (frame : Frame) (turn : ℕ) (name : List UInt8) : List UInt8 :=
  (name.take fsMaxNameLen ++ 0 :: (List.range (name.length - (fsMaxNameLen + 1))).map
    fun i => frame.behind turn (fsMaxNameLen + 1 + i)).take name.length

@[simp] theorem length_sentName (frame : Frame) (turn : ℕ) (name : List UInt8) :
    (sentName frame turn name).length = name.length := by
  simp only [sentName, List.length_take, List.length_append, List.length_cons, List.length_map,
    List.length_range]
  omega

/-- A name that fits into the buffer is sent as it is. -/
theorem sentName_of_le (frame : Frame) (turn : ℕ) (h : name.length ≤ fsMaxNameLen) :
    sentName frame turn name = name := by
  rw [sentName, List.take_of_length_le h, List.take_left]

/-- The terminator of the buffer is among the bytes that are sent for a longer one. -/
theorem not_noNul_sentName (frame : Frame) (turn : ℕ) (h : fsMaxNameLen < name.length) :
    ¬ NoNul (sentName frame turn name) := by
  intro hnul
  have hlen : (name.take fsMaxNameLen).length = fsMaxNameLen := List.length_take_of_le h.le
  refine hnul 0 ?_ rfl
  rw [sentName, List.take_append, hlen]
  obtain ⟨k, hk⟩ : ∃ k, name.length - fsMaxNameLen = k + 1 :=
    ⟨name.length - fsMaxNameLen - 1, by omega⟩
  rw [hk, List.take_succ_cons]
  exact List.mem_append_right _ List.mem_cons_self

/-- The copy of a component, and the bytes that the lookup reads for it. -/
theorem strlcpy_name (h : NoNul (name ++ l)) (rest : Chars) (namebuf : ℕ → UInt8) :
    ∃ namebuf' len, strlcpy namebuf (name ++ l ++ 0 :: rest)
        (if name.length + 1 < fsMaxNameLen + 1 then name.length + 1 else fsMaxNameLen + 1) =
      some (namebuf', len) ∧
      ∀ (frame : Frame) (turn i : ℕ) (hi : i < (sentName frame turn name).length),
        i < frame.extent →
          frame.load turn namebuf' i = some (sentName frame turn name)[i] := by
  have hn : (if name.length + 1 < fsMaxNameLen + 1 then name.length + 1 else fsMaxNameLen + 1) =
      min name.length fsMaxNameLen + 1 := by
    split <;> omega
  have hcopy := strlcpyLoop_take h (n := min name.length fsMaxNameLen)
    (by rw [List.length_append]; omega) (0 :: rest)
  have htake : (name ++ l).take (min name.length fsMaxNameLen) = name.take fsMaxNameLen := by
    rw [List.take_append_of_le_length (Nat.min_le_left ..), Nat.min_comm, ← List.take_eq_take_min]
  rw [htake] at hcopy
  refine ⟨writeBytes namebuf 0 (name.take fsMaxNameLen ++ [0]), (name ++ l).length, ?_,
    fun frame turn i hi hext => ?_⟩
  · rw [hn, strlcpy, if_neg (Nat.succ_ne_zero _), Nat.add_sub_cancel, hcopy]
    exact run_bind rfl (run_bind (strlen_eq h rest) rfl)
  · rw [length_sentName] at hi
    have hlen : (name.take fsMaxNameLen).length = min fsMaxNameLen name.length :=
      List.length_take ..
    simp only [sentName, List.getElem_take]
    by_cases hlt : i < fsMaxNameLen + 1
    · rw [Frame.load, if_pos hlt, writeBytes, if_pos ⟨Nat.zero_le _, by
        rw [List.length_append, hlen, List.length_singleton]
        omega⟩, Nat.sub_zero, List.getD_eq_getElem _ _ (by
        rw [List.length_append, hlen, List.length_singleton]
        omega)]
      by_cases hname : i < (name.take fsMaxNameLen).length
      · rw [List.getElem_append_left hname, List.getElem_append_left hname]
      · rw [List.getElem_append_right (by omega), List.getElem_append_right (by omega)]
        have hzero : i - (name.take fsMaxNameLen).length = 0 := by omega
        simp only [hzero, List.getElem_cons_zero]
    · rw [Frame.load, if_neg hlt, if_pos hext, List.getElem_append_right (by omega)]
      obtain ⟨k, rfl⟩ : ∃ k, i = fsMaxNameLen + 1 + k := ⟨i - (fsMaxNameLen + 1), by omega⟩
      have hk : fsMaxNameLen + 1 + k - (name.take fsMaxNameLen).length = k + 1 := by omega
      simp only [hk, List.getElem_cons_succ, List.getElem_map, List.getElem_range]

theorem negError_neg {e : ℕ} (h : 1 ≤ e) (h' : e ≤ 8) :
    ¬ (⟨.error, [e]⟩ : Message).negError > 0 := by
  have heq : (⟨.error, [e]⟩ : Message).negError = -(e : ℤ) :=
    Int.bmod_eq_of_le (show _ ≤ -(e : ℤ) by omega) (show -(e : ℤ) < _ by omega)
  omega

variable (hs : Serves srv t ready current)

include hs

/-- A lookup of bytes that can be read, found or not. -/
theorem fsFindName_eq (hcur : current s conn.client temp.inode)
    (hring : Holds Ext2.ringSize conn.ringbuf []) (nodebuf : FsNode) {load : ℕ → Option UInt8}
    (hload : ∀ i (hi : i < name.length), load i = some name[i])
    (hlen : name.length < Ext2.ringSize) : ∃ s' ring' node z,
      fsFindName srv s conn nodebuf load name.length =
        some (s', { conn with ringbuf := ring' }, node, z) ∧
      match t.lookup temp.inode name with
      | some next => node = next ∧ z > 0 ∧ ready s' conn.client ∧ Holds Ext2.ringSize ring' []
      | none => ¬ z > 0 := by
  obtain ⟨ring, hheld, hwrite⟩ := ringbufWriteFrom_eq (i := 0) hring
    (fun j hj => by rw [Nat.zero_add]; exact hload j hj)
    (show [].length + name.length < _ by rw [List.length_nil, Nat.zero_add]; exact hlen)
  obtain ⟨s', ring', msg, hcall, hanswer⟩ := hs.find_name hcur hheld
  rw [List.nil_append] at hcall
  cases hlook : t.lookup temp.inode name with
  | some next =>
    rw [List.nil_append, hlook] at hanswer
    obtain ⟨rfl, hready, hempty⟩ := hanswer
    exact ⟨s', ring', next, 1, run_bind hwrite (run_bind hcall rfl), rfl, by decide,
      hready, hempty⟩
  | none =>
    rw [List.nil_append, hlook] at hanswer
    obtain ⟨e, rfl, he, he'⟩ := hanswer
    exact ⟨s', ring', nodebuf, _, run_bind hwrite (run_bind hcall rfl), negError_neg he he'⟩

/-- A lookup of more bytes than the ring can hold, the first of which can be read. -/
theorem fsFindName_full (hcur : current s conn.client temp.inode)
    (hring : Holds Ext2.ringSize conn.ringbuf []) (nodebuf : FsNode) {load : ℕ → Option UInt8}
    (hload : ∀ i (hi : i < name.length), i < Ext2.ringSize → load i = some name[i])
    (hlen : Ext2.ringSize ≤ name.length) : ∃ s' ring' z,
      fsFindName srv s conn nodebuf load name.length =
        some (s', { conn with ringbuf := ring' }, nodebuf, z) ∧ ¬ z > 0 := by
  have hpos : 0 < Ext2.ringSize := by decide
  have htake : (name.take (Ext2.ringSize - 1)).length = Ext2.ringSize - 1 :=
    List.length_take_of_le (by omega)
  have hstart : ∀ j (hj : j < (name.take (Ext2.ringSize - 1)).length),
      load (0 + j) = some (name.take (Ext2.ringSize - 1))[j] := by
    intro j hj
    rw [Nat.zero_add, hload j (by omega) (by omega), List.getElem_take]
  have hlast : (load (0 + (name.take (Ext2.ringSize - 1)).length)).isSome := by
    rw [Nat.zero_add, htake, hload _ (by omega) (by omega)]
    rfl
  obtain ⟨ring, hheld, hwrite⟩ := ringbufWriteFrom_full hring hstart hlast
    (by rw [List.length_nil, htake]; omega) (show _ < name.length by rw [htake]; omega)
  obtain ⟨s', ring', e, hcall, he, he'⟩ := hs.refuse hcur hheld hlen
  exact ⟨s', ring', _, run_bind hwrite (run_bind hcall rfl), negError_neg he he'⟩

omit hs in
/-- A lookup of bytes that go over the end of the stack. -/
theorem fsFindName_eq_none {extent : ℕ} (hring : Holds Ext2.ringSize conn.ringbuf [])
    (nodebuf : FsNode) {load : ℕ → Option UInt8}
    (hload : ∀ i (hi : i < name.length), i < extent → load i = some name[i])
    (hnone : load extent = none) (hlen : extent < name.length) (hext : extent < Ext2.ringSize) :
    fsFindName srv s conn nodebuf load name.length = none := by
  have htake : (name.take extent).length = extent := List.length_take_of_le hlen.le
  have hwrite : ringbufWriteFrom load name.length 0 conn.ringbuf = none := by
    refine ringbufWriteFrom_eq_none (l := name.take extent) hring (fun j hj => ?_) ?_ ?_
      (htake.symm ▸ hlen)
    · rw [Nat.zero_add, hload j (by omega) (by omega), List.getElem_take]
    · rw [htake, Nat.zero_add, hnone]
    · rw [htake, List.length_nil, Nat.zero_add]
      exact hext
  rw [fsFindName, hwrite]
  rfl

/-- A selection of a node of the tree. -/
theorem fsSetNode_eq (hready : ready s conn.client) (hring : Holds Ext2.ringSize conn.ringbuf [])
    (hnode : t.isNode temp.inode) : ∃ s' ring', fsSetNode srv s conn temp =
      some (s', { conn with currentNode := temp, ringbuf := ring' }, 1) ∧
        current s' conn.client temp.inode ∧ Holds Ext2.ringSize ring' [] := by
  obtain ⟨s', ring', msg, hcall, htype, hcur, hempty⟩ := hs.set_node hready hring hnode
  have hone : (if msg.type = .error then msg.negError else 1) = 1 :=
    if_neg fun heq => by cases htype.symm.trans heq
  exact ⟨s', ring', run_bind hcall (congrArg (fun z => some (_, _, z)) hone), hcur, hempty⟩

end Lookup

/-! ## The walk -/

section Walk

variable {srv} {t : FsTree} {ready : σ → ℕ → Prop} {current : σ → ℕ → ℕ → Prop} {s : σ}
  {conn : FsConnection} {temp : FsNode} {name l m : List UInt8} {frame : Frame}

/-- The loop ends, with a file at the node. -/
def Walks (srv : FsServer σ) (frame : Frame) (current : σ → ℕ → ℕ → Prop) (mode : Chars)
    (fuel : ℕ) (s : σ) (conn : FsConnection) (temp : FsNode) (path : Chars)
    (namebuf : ℕ → UInt8) (node : Option FsNode) : Prop :=
  ∃ s' conn' ret, fopenLoop srv frame mode fuel s conn temp path namebuf = some (s', conn', ret) ∧
    OpenAt current s' ret node

theorem FsTree.isNode_lookup {i : ℕ} {next : FsNode} (h : t.lookup i name = some next) :
    t.isNode next.inode := by
  obtain ⟨es, hes, hnext⟩ := Option.bind_eq_some_iff.1 h
  exact t.isNode_entry hes hnext

theorem FsTree.lookup_eq_none (i : ℕ) (h : ¬ NoNul name) : t.lookup i name = none := by
  rw [Option.eq_none_iff_forall_not_mem]
  intro next hnext
  obtain ⟨es, hes, hnext⟩ := Option.bind_eq_some_iff.1 hnext
  exact h (t.name_noNul hes hnext)

variable (hs : Serves srv t ready current)

include hs

/-- The end of the path. -/
theorem walks_slashes (hnode : t.isNode temp.inode) (hm : NoNul m) (k fuel : ℕ)
    (rest mrest : Chars) (namebuf : ℕ → UInt8) :
    Walks srv frame current (m ++ 0 :: mrest) (fuel + 1) s conn temp
      (List.replicate k slash ++ 0 :: rest) namebuf (some temp) := by
  obtain ⟨flags, hflags⟩ := translateModeflags_isSome hm mrest
  have hready : ready (fsConnect srv s).1 (fsConnect srv s).2.client := (hs.connect s).1
  have hring : Holds Ext2.ringSize (fsConnect srv s).2.ringbuf [] := (hs.connect s).2
  obtain ⟨s', ring', hset, hcur, -⟩ := fsSetNode_eq hs hready hring hnode
  have hskip := skipSlashes_replicate k (show (0 : UInt8) ≠ slash by decide) rest
  have hspan : strcspn (0 :: rest) [slash, 0] = some 0 := rfl
  exact ⟨s', conn, _, run_bind hskip (run_bind hspan (run_bind hflags (run_bind hset rfl))), rfl,
    rfl, hcur⟩

omit hs in
/-- What the loop finds behind the slashes. -/
theorem strcspn_component (hslash : slash ∉ name) (hl : l = [] ∨ ∃ l', l = slash :: l')
    (hnul : NoNul (name ++ l)) (rest : Chars) :
    strcspn (name ++ l ++ 0 :: rest) [slash, 0] = some name.length := by
  have hmem : ∀ c ∈ name, c ≠ 0 ∧ c ≠ slash := fun c hc =>
    ⟨hnul c (List.mem_append_left _ hc), fun heq => hslash (heq ▸ hc)⟩
  have hne : slash ≠ 0 := by decide
  rw [List.append_assoc]
  rcases hl with rfl | ⟨l', rfl⟩
  · exact strcspn_single hne hmem (.inl rfl) rest
  · exact strcspn_single hne hmem (.inr rfl) _

omit hs in
/-- A lookup that fails ends the walk. -/
theorem walks_of_notFound {mode path : Chars} {fuel : ℕ} {namebuf : ℕ → UInt8} {s₁ : σ}
    {conn₁ : FsConnection} (node : Option FsNode)
    (hloop : fopenLoop srv frame mode fuel s conn temp path namebuf = some (s₁, conn₁, none)) :
    Walks srv frame current mode fuel s conn temp path namebuf node ↔ node = none := by
  rw [Walks, hloop]
  constructor
  · rintro ⟨s₁, conn₁, ret, heq, hopen⟩
    cases heq
    cases node with
    | none => rfl
    | some node => exact hopen.elim
  · rintro rfl
    exact ⟨_, _, _, rfl, trivial⟩

section Component

variable (frame) (hready : ready s conn.client) (hring : Holds Ext2.ringSize conn.ringbuf [])
  (hnode : t.isNode temp.inode) (hname : name ≠ []) (hslash : slash ∉ name)
  (hl : l = [] ∨ ∃ l', l = slash :: l') (hnul : NoNul (name ++ l)) (mode : Chars) (k fuel : ℕ)
  (rest : Chars) (namebuf : ℕ → UInt8) (node : Option FsNode)

include hready hring hnode hname hslash hl hnul

/-- The loop up to the lookup. -/
theorem fopenLoop_name : ∃ s' ring' namebuf', current s' conn.client temp.inode ∧
    Holds Ext2.ringSize ring' [] ∧
    (∀ i (hi : i < (sentName frame fuel name).length), i < frame.extent →
      frame.load fuel namebuf' i = some (sentName frame fuel name)[i]) ∧
    fopenLoop srv frame mode (fuel + 1) s conn temp
        (List.replicate k slash ++ (name ++ l ++ 0 :: rest)) namebuf = (do
      let (s, conn, temp, found) ← fsFindName srv s' ⟨conn.client, ring', temp, conn.index⟩ temp
        (frame.load fuel namebuf') (sentName frame fuel name).length
      if found > 0 then fopenLoop srv frame mode fuel s conn temp (l ++ 0 :: rest) namebuf'
      else return (s, conn, none)) := by
  obtain ⟨s', ring', hset, hcur, hempty⟩ := fsSetNode_eq hs hready hring hnode
  obtain ⟨namebuf', len, hcopy, hload⟩ := strlcpy_name hnul rest namebuf
  refine ⟨s', ring', namebuf', hcur, hempty, hload frame fuel, ?_⟩
  have hskip : skipSlashes (List.replicate k slash ++ (name ++ l ++ 0 :: rest)) =
      some (name ++ l ++ 0 :: rest) := by
    cases name with
    | nil => exact absurd rfl hname
    | cons c name =>
      exact skipSlashes_replicate k (fun heq => hslash (heq ▸ List.mem_cons_self)) _
  have hspan := strcspn_component hslash hl hnul rest
  have hpos : name.length ≠ 0 := fun hzero => hname (List.length_eq_zero_iff.1 hzero)
  have hdrop : (name ++ l ++ 0 :: rest).drop name.length = l ++ 0 :: rest := by
    rw [List.append_assoc, List.drop_left]
  rw [fopenLoop, hskip, length_sentName]
  simp only [Option.bind_eq_bind, Option.bind_some, hspan, if_neg hpos, hset, hcopy, hdrop]

/-- A component for which all bytes that are sent are on the stack, and fit into the ring. -/
theorem walks_name (hlen : name.length < Ext2.ringSize) (hext : name.length ≤ frame.extent) :
    ∃ s' conn' namebuf',
    match t.lookup temp.inode (sentName frame fuel name) with
    | some next => ready s' conn'.client ∧ Holds Ext2.ringSize conn'.ringbuf [] ∧
        (Walks srv frame current mode (fuel + 1) s conn temp
          (List.replicate k slash ++ (name ++ l ++ 0 :: rest)) namebuf node ↔
        Walks srv frame current mode fuel s' conn' next (l ++ 0 :: rest) namebuf' node)
    | none => Walks srv frame current mode (fuel + 1) s conn temp
        (List.replicate k slash ++ (name ++ l ++ 0 :: rest)) namebuf node ↔ node = none := by
  obtain ⟨s', ring', namebuf', hcur, hempty, hload, hloop⟩ :=
    fopenLoop_name frame hs hready hring hnode hname hslash hl hnul mode k fuel rest namebuf
  have hcur' : current s' (FsConnection.mk conn.client ring' temp conn.index).client temp.inode :=
    hcur
  have hsent := length_sentName frame fuel name
  obtain ⟨s'', ring'', found, z, hfind, hcases⟩ := fsFindName_eq hs hcur' hempty temp
    (fun i hi => hload i hi (Nat.lt_of_lt_of_le (hsent ▸ hi) hext)) (hsent.symm ▸ hlen)
  rw [hfind] at hloop
  refine ⟨s'', ⟨conn.client, ring'', temp, conn.index⟩, namebuf', ?_⟩
  cases hlook : t.lookup temp.inode (sentName frame fuel name) with
  | some next =>
    rw [hlook] at hcases
    obtain ⟨rfl, hz, hready', hempty'⟩ := hcases
    have hnext := hloop.trans (if_pos hz)
    refine ⟨hready', hempty', ?_⟩
    rw [Walks, hnext]
    exact Iff.rfl
  | none =>
    rw [hlook] at hcases
    exact walks_of_notFound node (hloop.trans (if_neg hcases))

/-- A component that fills the ring. -/
theorem walks_full (hlen : Ext2.ringSize ≤ name.length) (hext : Ext2.ringSize ≤ frame.extent) :
    Walks srv frame current mode (fuel + 1) s conn temp
      (List.replicate k slash ++ (name ++ l ++ 0 :: rest)) namebuf node ↔ node = none := by
  obtain ⟨s', ring', namebuf', hcur, hempty, hload, hloop⟩ :=
    fopenLoop_name frame hs hready hring hnode hname hslash hl hnul mode k fuel rest namebuf
  have hcur' : current s' (FsConnection.mk conn.client ring' temp conn.index).client temp.inode :=
    hcur
  obtain ⟨s'', ring'', z, hfind, hz⟩ := fsFindName_full hs hcur' hempty temp
    (fun i hi hlt => hload i hi (by omega)) (by rwa [length_sentName])
  rw [hfind] at hloop
  exact walks_of_notFound node (hloop.trans (if_neg hz))

/-- A component for which the stack ends too early. -/
theorem not_walks_long (hlen : frame.extent < name.length) (hext : frame.extent < Ext2.ringSize) :
    ¬ Walks srv frame current mode (fuel + 1) s conn temp
      (List.replicate k slash ++ (name ++ l ++ 0 :: rest)) namebuf node := by
  obtain ⟨s', ring', namebuf', -, hempty, hload, hloop⟩ :=
    fopenLoop_name frame hs hready hring hnode hname hslash hl hnul mode k fuel rest namebuf
  have hend : frame.load fuel namebuf' frame.extent = none := by
    have := frame.lt_extent
    rw [Frame.load, if_neg (by omega), if_neg (Nat.lt_irrefl _)]
  have hempty' : Holds Ext2.ringSize
      (FsConnection.mk conn.client ring' temp conn.index).ringbuf [] := hempty
  rw [fsFindName_eq_none hempty' temp hload hend (by rwa [length_sentName]) hext] at hloop
  rintro ⟨s₁, conn₁, ret, heq, -⟩
  cases hloop.symm.trans heq

end Component

/-- **The walk along a path.** -/
theorem walks_iff (hm : NoNul m) (mrest rest : Chars) (fuel : ℕ) (hready : ready s conn.client)
    (hring : Holds Ext2.ringSize conn.ringbuf []) (hnode : t.isNode temp.inode) (hnul : NoNul l)
    (hfuel : l.length < fuel) (namebuf : ℕ → UInt8) :
    Walks srv frame current (m ++ 0 :: mrest) fuel s conn temp (l ++ 0 :: rest) namebuf
      (t.resolve temp (components l)) ↔ t.NamesFit frame.extent temp (components l) := by
  induction fuel generalizing s conn temp l namebuf with
  | zero => omega
  | succ fuel ih =>
    obtain ⟨k, rfl | ⟨name, r, rfl, hname, hslash, hr⟩⟩ := path_cases l
    · have hcomp : components (List.replicate k slash) = [] := by
        rw [← List.append_nil (List.replicate k slash), components_replicate_append, components_nil]
      rw [hcomp]
      exact iff_of_true (walks_slashes hs hnode hm k fuel rest mrest namebuf) trivial
    · have hnul' : NoNul (name ++ r) := fun c hc => hnul c (List.mem_append_right _ hc)
      have hpos := List.length_pos_iff.2 hname
      have hext := frame.lt_extent
      have hringSize : fsMaxNameLen < Ext2.ringSize := by decide
      rw [components_replicate_append, components_name_append hname hslash hr, FsTree.NamesFit,
        List.append_assoc]
      split
      case isTrue hle =>
        -- the whole name is looked up
        obtain ⟨s', conn', namebuf', hcases⟩ := walks_name frame hs hready hring hnode hname hslash hr
          hnul' (m ++ 0 :: mrest) k fuel rest namebuf (t.resolve temp (name :: components r))
          (by omega) (by omega)
        rw [sentName_of_le frame fuel hle] at hcases
        cases hlook : t.lookup temp.inode name with
        | some next =>
          rw [hlook] at hcases
          obtain ⟨hready', hring', hiff⟩ := hcases
          have hresolve : t.resolve temp (name :: components r) =
              t.resolve next (components r) := by
            rw [FsTree.resolve, hlook]
            rfl
          rw [hiff, hresolve, ih hready' hring' (FsTree.isNode_lookup hlook)
            (fun c hc => hnul' c (List.mem_append_right _ hc)) ?_ namebuf']
          · simp
          · simp only [List.length_append, List.length_replicate] at hfuel
            omega
        | none =>
          rw [hlook] at hcases
          refine hcases.trans ?_
          rw [FsTree.resolve, hlook]
          simp
      case isFalse hgt =>
        by_cases hstack : min name.length Ext2.ringSize ≤ frame.extent
        · rw [and_iff_right hstack]
          rcases Nat.lt_or_ge name.length Ext2.ringSize with hlen | hlen
          · -- the terminator is among the bytes that are looked up
            obtain ⟨s', conn', namebuf', hcases⟩ := walks_name frame hs hready hring hnode hname hslash
              hr hnul' (m ++ 0 :: mrest) k fuel rest namebuf
              (t.resolve temp (name :: components r)) hlen (by omega)
            rwa [FsTree.lookup_eq_none _ (not_noNul_sentName frame fuel (by omega))] at hcases
          · exact walks_full frame hs hready hring hnode hname hslash hr hnul' _ k fuel rest namebuf _
              hlen (by omega)
        · exact iff_of_false (not_walks_long frame hs hready hring hnode hname hslash hr hnul' _ k fuel
            rest namebuf _ (by omega) (by omega)) fun h => hstack h.1

end Walk

/-! ## The result -/

section Result

variable {srv : FsServer σ} {t : FsTree} {ready : σ → ℕ → Prop} {current : σ → ℕ → ℕ → Prop}
  {frame : Frame} {fs : Rootfs σ} {path m : List UInt8}

/-- `fopen` is the walk from the directory the path starts at. -/
theorem fopen_walks (frame : Frame) (rest mode : Chars) (node : Option FsNode) :
    (∃ fs' ret, fopen srv frame fs (path ++ 0 :: rest) mode = some (fs', ret) ∧
      OpenAt current fs'.server ret node) ↔
      Walks srv frame current mode ((path ++ 0 :: rest).length + 1) fs.server fs.currentFs
        (fs.start path) (path ++ 0 :: rest) frame.namebuf node := by
  obtain ⟨c, l, hcons⟩ := List.exists_cons_of_ne_nil (show path ++ 0 :: rest ≠ [] by simp)
  have hdir : (if c = slash then fs.rootDir else fs.currentDir) = fs.start path := by
    cases path with
    | nil =>
      obtain ⟨rfl, -⟩ := List.cons.inj hcons
      rfl
    | cons b path =>
      obtain ⟨rfl, -⟩ := List.cons.inj hcons
      by_cases hb : b = slash <;> simp [Rootfs.start, hb]
  have hhead : (path ++ 0 :: rest).head? = some c := by rw [hcons]; rfl
  rw [fopen, hhead, Option.bind_eq_bind, Option.bind_some, hdir]
  constructor
  · rintro ⟨fs', ret, hrun, hopen⟩
    obtain ⟨⟨s', conn', ret'⟩, hloop, heq⟩ := Option.bind_eq_some_iff.1 hrun
    cases heq
    exact ⟨s', conn', ret, hloop, hopen⟩
  · rintro ⟨s', conn', ret, hloop, hopen⟩
    exact ⟨_, ret, run_bind hloop rfl, hopen⟩

section

variable (hs : Serves srv t ready current) (hready : ready fs.server fs.currentFs.client)
  (hring : Holds Ext2.ringSize fs.currentFs.ringbuf []) (hroot : t.isNode fs.rootDir.inode)
  (hcur : t.isNode fs.currentDir.inode) (hpath : NoNul path) (hm : NoNul m) (frame : Frame)
  (rest mrest : Chars)

include hs hready hring hroot hcur hpath hm

/-- When `fopen` of a path is right. -/
theorem resolves_iff : (∃ fs' ret,
    fopen srv frame fs (path ++ 0 :: rest) (m ++ 0 :: mrest) = some (fs', ret) ∧
      OpenAt current fs'.server ret (t.resolve (fs.start path) (components path))) ↔
    t.NamesFit frame.extent (fs.start path) (components path) := by
  have hnode : t.isNode (fs.start path).inode := by
    unfold Rootfs.start
    split
    · exact hroot
    · exact hcur
  have hfuel : path.length < (path ++ 0 :: rest).length + 1 := by
    rw [List.length_append]
    omega
  rw [fopen_walks, walks_iff hs hm mrest rest _ hready hring hnode hpath hfuel]

/-- **Path resolution.** `fopen` returns a file at the node the components of the path lead to, or
`NULL` where they lead nowhere, exactly when the first name on the way that is too long, if there is
one, leads nowhere and can be read. -/
theorem fopen_iff : PathResolved srv frame t current fs path rest (m ++ 0 :: mrest) ↔
    t.NamesFit frame.extent (fs.start path) (components path) := by
  constructor
  · intro h
    exact (resolves_iff hs hready hring hroot hcur hpath hm frame rest mrest).1 (h path (.refl _))
  · intro hfit path' hpath'
    obtain ⟨hcomp, hhead, hnul⟩ := eqvGen_same hpath'
    have hstart : fs.start path = fs.start path' := by
      unfold Rootfs.start
      simp only [hhead]
    rw [hstart, hcomp] at hfit ⊢
    exact (resolves_iff hs hready hring hroot hcur (hnul.1 hpath) hm frame rest mrest).2 hfit

end

/-- Names of at most `FS_MAX_NAME_LEN` characters fit. -/
theorem FsTree.namesFit_of_le {names : List (List UInt8)}
    (h : ∀ name ∈ names, name.length ≤ fsMaxNameLen) (extent : ℕ) (node : FsNode) :
    t.NamesFit extent node names := by
  induction names generalizing node with
  | nil => trivial
  | cons name names ih =>
    obtain ⟨hname, hnames⟩ := List.forall_mem_cons.1 h
    rw [FsTree.NamesFit, if_pos hname]
    exact fun next _ => ih hnames next

end Result

/-! ## A small tree -/

/-- The ring of a new connection. -/
def newRing : C4Ringbuf :=
  (c4RingbufInit ⟨0, 0, 0, Ext2.ringSize, fun _ => 0⟩ (Ext2.ringSize + sizeofRingbuf)).1

theorem newRing_holds : Holds Ext2.ringSize newRing [] :=
  holds_init (by decide) (by decide) rfl

/-- A server for a tree, with the number of the next client and the nodes that are selected. -/
def treeServer (t : FsTree) : FsServer (ℕ × (ℕ → ℕ)) where
  connect s := ((s.1 + 1, s.2), s.1, newRing)
  call s c ring msg :=
    match msg.type with
    | .setNode => some ((s.1, Function.update s.2 c (msg.word 0)), ring, ⟨.completed, []⟩)
    | .findName =>
      if Ext2.ringSize ≤ msg.word 0 then some (s, ring, ⟨.error, [3]⟩)
      else do
        let (ring, name) ← c4RingbufRead ring (msg.word 0)
        match t.lookup (s.2 c) name with
        | some node => return (s, ring, ⟨.completed, [node.inode, node.type, node.size]⟩)
        | none => return (s, ring, ⟨.error, [4]⟩)
    | _ => some (s, ring, ⟨.error, [3]⟩)

theorem treeServer_serves (t : FsTree) :
    Serves (treeServer t) t (fun _ _ => True) (fun s c i => s.2 c = i) where
  connect _ := ⟨trivial, newRing_holds⟩
  set_node _ hring _ := ⟨_, _, _, rfl, rfl, Function.update_self .., hring⟩
  find_name {s c ring i name} hcur hring := by
    obtain ⟨ring', hread, hring', -⟩ := hring.read name.length
    rw [List.take_length] at hread
    rw [List.drop_length] at hring'
    subst hcur
    have hlen : ¬ Ext2.ringSize ≤ (Message.mk .findName [name.length]).word 0 :=
      Nat.not_le_of_lt hring.length_lt
    cases hlook : t.lookup (s.2 c) name with
    | some node =>
      refine ⟨s, ring', _, (if_neg hlen).trans (run_bind hread ?_), rfl, trivial, hring'⟩
      simp only [hlook]
      rfl
    | none =>
      refine ⟨s, ring', _, (if_neg hlen).trans (run_bind hread ?_), 4, rfl, by decide, by decide⟩
      simp only [hlook]
      rfl
  refuse {s c ring i held len} _ _ hlen := ⟨s, ring, 3, if_pos hlen, by decide, by decide⟩

/-- A directory with one entry. -/
def oneEntry (name : List UInt8) (node : FsNode) (x : List UInt8) : Option FsNode :=
  if x = name then some node else none

theorem oneEntry_eq_some {name x : List UInt8} {node node' : FsNode}
    (h : oneEntry name node x = some node') : x = name ∧ node' = node := by
  unfold oneEntry at h
  split at h
  · next hx => exact ⟨hx, (Option.some.inj h).symm⟩
  · cases h

/-- The directory `sbin` in the root directory, and the file `keyboard` in it. -/
def sbinTree : FsTree where
  isNode i := i = 2 ∨ i = 11 ∨ i = 12
  entries i :=
    if i = 2 then some (oneEntry [0x73, 0x62, 0x69, 0x6e] ⟨11, 2, 1024⟩)
    else if i = 11 then
      some (oneEntry [0x6b, 0x65, 0x79, 0x62, 0x6f, 0x61, 0x72, 0x64] ⟨12, 1, 4096⟩)
    else none
  name_noNul {i es name node} h hnode := by
    split at h
    · cases h
      obtain ⟨rfl, -⟩ := oneEntry_eq_some hnode
      decide
    · split at h
      · cases h
        obtain ⟨rfl, -⟩ := oneEntry_eq_some hnode
        decide
      · cases h
  isNode_entry {i es name node} h hnode := by
    split at h
    · cases h
      obtain ⟨-, rfl⟩ := oneEntry_eq_some hnode
      exact .inr (.inl rfl)
    · split at h
      · cases h
        obtain ⟨-, rfl⟩ := oneEntry_eq_some hnode
        exact .inr (.inr rfl)
      · cases h

/-- A client of the tree. -/
def sbinRootfs : Rootfs (ℕ × (ℕ → ℕ)) :=
  ⟨(1, fun _ => 0), ⟨2, 2, 1024⟩, ⟨2, 2, 1024⟩, ⟨0, newRing, ⟨2, 2, 1024⟩, 0⟩⟩

/-- `/sbin/////keyboard`. -/
def keyboardPath : List UInt8 := [0x2f, 0x73, 0x62, 0x69, 0x6e, 0x2f, 0x2f, 0x2f, 0x2f, 0x2f,
  0x6b, 0x65, 0x79, 0x62, 0x6f, 0x61, 0x72, 0x64]

/-- A stack of one page from `namebuf` on. -/
def pageFrame : Frame := ⟨fun _ => 0, fun _ _ => 0, 4096, by decide⟩

theorem fopen_keyboard : PathResolved (treeServer sbinTree) pageFrame sbinTree
      (fun s c i => s.2 c = i) sbinRootfs keyboardPath [] [0x72, 0] ∧
    sbinTree.resolve (sbinRootfs.start keyboardPath) (components keyboardPath) =
      some ⟨12, 1, 4096⟩ := by
  have hfit : sbinTree.NamesFit pageFrame.extent (sbinRootfs.start keyboardPath)
      (components keyboardPath) := FsTree.namesFit_of_le (by decide) _ _
  exact ⟨(fopen_iff (treeServer_serves sbinTree) trivial newRing_holds (.inl rfl) (.inl rfl)
    (show NoNul keyboardPath by decide) (show NoNul [0x72] by decide) _ [] []).2 hfit, by decide⟩

/-- 257 letters. -/
def longName : List UInt8 := List.replicate 257 0x61

/-- A root directory with a file of this name. -/
def longTree : FsTree where
  isNode i := i = 2 ∨ i = 11
  entries i := if i = 2 then some (oneEntry longName ⟨11, 1, 4096⟩) else none
  name_noNul {i es name node} h hnode := by
    split at h
    · cases h
      obtain ⟨rfl, -⟩ := oneEntry_eq_some hnode
      decide +kernel
    · cases h
  isNode_entry {i es name node} h hnode := by
    split at h
    · cases h
      obtain ⟨-, rfl⟩ := oneEntry_eq_some hnode
      exact .inr rfl
    · cases h

/-- The file is there, but its name is too long for the buffer. -/
theorem fopen_long_name : ¬ ∀ (σ : Type) (srv : FsServer σ) (t : FsTree) (ready : σ → ℕ → Prop)
    (current : σ → ℕ → ℕ → Prop) (fs : Rootfs σ) (path m : List UInt8) (frame : Frame)
    (rest mrest : Chars), Serves srv t ready current → ready fs.server fs.currentFs.client →
    Holds Ext2.ringSize fs.currentFs.ringbuf [] → t.isNode fs.rootDir.inode →
    t.isNode fs.currentDir.inode → NoNul path → NoNul m →
    PathResolved srv frame t current fs path rest (m ++ 0 :: mrest) := by
  intro hall
  have hpath : NoNul (slash :: longName) := by decide +kernel
  have hserves := treeServer_serves longTree
  have hroot : longTree.isNode sbinRootfs.rootDir.inode := .inl rfl
  have hmode : NoNul [0x72] := by decide
  have hring : Holds Ext2.ringSize sbinRootfs.currentFs.ringbuf [] := newRing_holds
  have hres := hall _ (treeServer longTree) longTree _ _ sbinRootfs (slash :: longName) [0x72]
    pageFrame [] [] hserves trivial hring hroot hroot hpath hmode
  have hiff := @resolves_iff _ _ _ _ _ sbinRootfs _ _ hserves trivial hring hroot hroot hpath hmode
    pageFrame [] []
  have hcomp : components (slash :: longName) = [longName] := by decide +kernel
  have hfound : longTree.resolve (sbinRootfs.start (slash :: longName)) [longName] =
      some ⟨11, 1, 4096⟩ := by decide +kernel
  have hlen : ¬ longName.length ≤ fsMaxNameLen := by
    rw [longName, List.length_replicate]
    decide
  have hopen := hres _ (.refl _)
  rw [hiff, hcomp, FsTree.NamesFit, if_neg hlen, hfound] at hopen
  cases hopen.2

end C4OS.Libc
