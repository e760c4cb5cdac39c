import C4OS.Ext2.Entries
import C4OS.Ext2.WriteRequests

/-!
# One response for each request

When a request to the server gets a response. `Answerable` is the condition, in terms of the state
before the request: a lookup needs a node, an inode has to be found in the descriptors, and what is
read of a file has to be there. A request that meets it gets exactly one response, and any other
one leads the handler through a null pointer, out of the page or into a loop without end
(`Answerable.answers`, `answerable_of_run`). `one_response_iff` is the result for all runs of the
server.
-/

namespace C4OS.Ext2

open Foundations Ringbuffer

variable {sb : Superblock} {disk : ℕ → UInt8} {d d' : Device} {conn conn' : Conn}
  {cli : ClientState} {stack : ℕ → UInt8} {inode namelen : ℕ} {r : Device × Conn × List Reply}

/-- One response is sent, and the device and the ring can be used further on. -/
def Answers (r : Result) : Prop :=
  ∃ d' conn' reply, r = some (d', conn', [reply]) ∧ d'.Working ∧ Wf ringSize conn'.ring

/-! ## Requests for inodes -/

theorem Findable.exists_getInode (hf : Findable sb inode) (h : Geometry sb) (hd : d.Working) :
    ∃ d' buf, ext2GetInode sb d inode = some (d', buf) ∧ d'.Working := by
  obtain ⟨d', buf, hrun⟩ := (exists_ext2GetInode_iff h hd).2 hf
  exact ⟨d', buf, hrun, hd.same (ext2GetInode_same hrun)⟩

/-- The root directory is always looked for. -/
theorem findable_root (sb : Superblock) : Findable sb 2 := by
  refine .inr ⟨by decide, ?_⟩
  have hle : inodeGroup sb 2 ≤ 1 := Nat.div_le_self _ _
  show inodeGroup sb 2 * 32 + 12 ≤ 4096
  omega

section Inodes

variable (h : Geometry sb) (hd : d.Working) (hring : Wf ringSize conn.ring)

include h hd

theorem findable_of_getInode {x : Device × Option (ℕ × Inode)}
    (hrun : ext2GetInode sb d inode = some x) : Findable sb inode :=
  (exists_ext2GetInode_iff h hd).1 ⟨x.1, x.2, hrun⟩

include hring

theorem Findable.setNode (hf : Findable sb inode) : Answers (handleSetNode sb d conn inode) := by
  obtain ⟨d', buf, hrun, hd'⟩ := hf.exists_getInode h hd
  exact ⟨d', _, _, run_bind hrun rfl, hd', hring⟩

theorem Findable.getNodeInfo (hf : Findable sb inode) :
    Answers (handleGetNodeInfo sb d conn inode) := by
  obtain ⟨d', buf, hrun, hd'⟩ := hf.exists_getInode h hd
  cases buf with
  | none => exact ⟨d', conn, _, run_bind hrun rfl, hd', hring⟩
  | some x => exact ⟨d', conn, _, run_bind hrun rfl, hd', hring⟩

theorem getRootdir_answers (stack : ℕ → UInt8) :
    Answers (handleGetRootdir sb stack d conn) := by
  obtain ⟨d', buf, hrun, hd'⟩ := (findable_root sb).exists_getInode h hd
  exact ⟨d', conn, _, run_bind hrun rfl, hd', hring⟩

end Inodes

/-! ## Lookups -/

/-- A lookup that is answered: there is a node, and when it is a directory, and the name has come
and is not too long, the search ends. -/
def FindAnswerable (sb : Superblock) (stack : ℕ → UInt8) (d : Device) (conn : Conn)
    (namelen : ℕ) : Prop :=
  ∃ cli, conn.progData = some cli ∧ (ext2IsDirectory cli.e2node = true →
    c4RingbufCanRead conn.ring namelen = some true → namelen < fsMaxNameLen →
      LookupEnds sb d cli.e2node (nameBytes stack (conn.ring.contents.take namelen) namelen))

theorem FindAnswerable.answers (hf : FindAnswerable sb stack d conn namelen) (h : Geometry sb)
    (hd : d.Working) (hring : Wf ringSize conn.ring) :
    ∃ d' conn' reply name, handleFindName sb stack d conn namelen =
      some (d', conn', [reply], name) ∧ d'.Working ∧ Wf ringSize conn'.ring := by
  obtain ⟨cli, hcli, hf⟩ := hf
  have hcan := hring.canRead_eq namelen
  by_cases hdir : ext2IsDirectory cli.e2node = true
  · by_cases hfits : c4RingbufCanRead conn.ring namelen = some true ∧ namelen < fsMaxNameLen
    · obtain ⟨hread, hshort⟩ := hfits
      obtain ⟨ring, hrun, hring', -⟩ := Holds.read ⟨hring, rfl⟩ namelen
      obtain ⟨d', ent, hfind⟩ := (exists_findInDir_iff h hd).2 (hf hdir hread hshort)
      refine ⟨d', { conn with ring := ring }, findReply ent,
        some (nameBytes stack (conn.ring.contents.take namelen) namelen), run_bind hcli ?_, ?_,
        hring'.1⟩
      · refine (if_neg (by simp [hdir])).trans (run_bind hread ((if_neg ?_).trans ?_))
        · simpa using hshort
        · exact run_bind hrun (run_bind hfind rfl)
      · exact hd.same (found_of_findInDir h hd (Nat.zero_le _) (.refl sb d) hfind).1.same
    · refine ⟨d, conn, .error .badRequest, none, run_bind hcli ?_, hd, hring⟩
      refine (if_neg (by simp [hdir])).trans (run_bind hcan (if_pos ?_))
      rw [hcan] at hfits
      by_contra hneg
      simp only [Bool.or_eq_true, Bool.not_eq_true', decide_eq_false_iff_not, not_or, not_not,
        decide_eq_true_eq] at hneg
      exact hfits ⟨congrArg some (decide_eq_true hneg.1), Nat.lt_of_not_le hneg.2⟩
  · refine ⟨d, conn, .error .notDirectory, none, run_bind hcli (if_pos ?_), hd, hring⟩
    simpa using hdir

theorem findAnswerable_of_run {x : Device × Conn × List Reply × Option (List UInt8)}
    (h : Geometry sb) (hd : d.Working) (hring : Wf ringSize conn.ring)
    (hrun : handleFindName sb stack d conn namelen = some x) :
    FindAnswerable sb stack d conn namelen := by
  obtain ⟨cli, hcli, hrun⟩ := Option.bind_eq_some_iff.1 hrun
  refine ⟨cli, hcli, fun hdir hread hshort => ?_⟩
  obtain ⟨ring, htake, -⟩ := Holds.read ⟨hring, rfl⟩ namelen
  simp only [hdir, hread, htake, Bool.not_true, Bool.false_eq_true, if_false, Option.bind_eq_bind,
    Option.bind_some, Bool.false_or, decide_eq_true_iff, if_neg (Nat.not_le_of_lt hshort),
    Option.bind_eq_some_iff] at hrun
  obtain ⟨⟨d', ent⟩, hfind, -⟩ := hrun
  exact (exists_findInDir_iff h hd).1 ⟨d', ent, hfind⟩

/-! ## Listing and reading -/

/-- A request for entries that is answered: the block is there, and its entries lead to its end. -/
def ListAnswerable (sb : Superblock) (d : Device) (conn : Conn) : Prop :=
  ∀ cli, conn.progData = some cli → cli.index * ext2BlockSize sb % wordSize < cli.e2node.lowerSize →
    Mapped sb d.disk cli.e2node cli.index ∧ Listable sb (filePage sb d cli.e2node cli.index)

theorem ListAnswerable.answers (hf : ListAnswerable sb d conn) (h : Geometry sb)
    (hd : d.Working) (hring : Wf ringSize conn.ring) (stack : ℕ → UInt8) :
    Answers (handleListDir sb stack d conn) := by
  cases hcli : conn.progData with
  | none => exact ⟨d, conn, _, by rw [handleListDir, hcli], hd, hring⟩
  | some cli =>
    by_cases hend : cli.index * ext2BlockSize sb % wordSize ≥ cli.e2node.lowerSize
    · refine ⟨d, conn, .completed [0], ?_, hd, hring⟩
      rw [handleListDir, hcli]
      exact if_pos hend
    · obtain ⟨hm, hlist⟩ := hf cli hcli (Nat.lt_of_not_le hend)
      obtain ⟨d', hread, hr, hbuffer⟩ := ext2InodeReadBlock_mapped h hd hm
      obtain ⟨j, hchain, hstop⟩ := (listable_congr hbuffer).2 hlist
      obtain ⟨ring', sent, hrun, hring'⟩ := listLoop_of_chain hchain hstop (Nat.lt_succ_self _)
        (Nat.succ_pos _) hring stack 0
      refine ⟨d', ⟨ring', some { cli with index := (cli.index + 1) % wordSize }⟩,
        .completed [sent], ?_, hr.working hd, hring'⟩
      rw [handleListDir, hcli]
      refine (if_neg hend).trans (run_bind hread ((if_neg (by decide)).trans ?_))
      exact run_bind hrun rfl

theorem listAnswerable_of_run (h : Geometry sb) (hd : d.Working) (hring : Wf ringSize conn.ring)
    (hrun : handleListDir sb stack d conn = some r) : ListAnswerable sb d conn := by
  intro cli hcli hlt
  simp only [handleListDir, hcli] at hrun
  rw [if_neg (Nat.not_le_of_lt hlt)] at hrun
  obtain ⟨⟨d', ok⟩, hread, hrun⟩ := Option.bind_eq_some_iff.1 hrun
  cases ok with
  | false => cases hrun
  | true =>
    have hm : Mapped sb d.disk cli.e2node cli.index := by
      by_contra hm
      exact ext2InodeReadBlock_not_mapped h hd hm hread
    obtain ⟨d₁, hread₁, -, hbuffer⟩ := ext2InodeReadBlock_mapped h hd hm
    cases hread.symm.trans hread₁
    obtain ⟨x, hloop, -⟩ := Option.bind_eq_some_iff.1 hrun
    exact ⟨hm, (listable_congr hbuffer).1 ((exists_listLoop_iff hring stack).1 ⟨x, hloop⟩)⟩

/-- The number of bytes that a request reads. -/
def readSize (sb : Superblock) (cli : ClientState) : ℕ :=
  min (cli.e2node.lowerSize - cli.index) (ext2BlockSize sb)

/-- A request for bytes that is answered: the block is there, and the bytes are in the page. -/
def ReadAnswerable (sb : Superblock) (d : Device) (conn : Conn) : Prop :=
  ∀ cli, conn.progData = some cli → cli.index < cli.e2node.lowerSize →
    c4RingbufCanWrite conn.ring (readSize sb cli) = some true →
      Mapped sb d.disk cli.e2node (cli.index / ext2BlockSize sb) ∧
        cli.index % ext2BlockSize sb + readSize sb cli ≤ pageSize

theorem Geometry.blockSize_ne (h : Geometry sb) : ext2BlockSize sb ≠ 0 := by
  have := h.blockSize_le.1
  omega

/-- A request for bytes before the end of the file. -/
theorem handleReadBlock_send (h : Geometry sb) (hcli : conn.progData = some cli)
    (hlt : cli.index < cli.e2node.lowerSize) :
    handleReadBlock sb d conn = readAndSend sb d conn cli (readSize sb cli) := by
  simp only [handleReadBlock, hcli]
  rw [if_neg (Nat.not_le_of_lt hlt), if_neg h.blockSize_ne, readSize]

/-- The bytes of a block that is there go into the ring. -/
theorem readAndSend_mapped {w : ℕ} (h : Geometry sb) (hd : d.Working)
    (hcan : c4RingbufCanWrite conn.ring w = some true)
    (hm : Mapped sb d.disk cli.e2node (cli.index / ext2BlockSize sb))
    (hpage : cli.index % ext2BlockSize sb + w ≤ pageSize) :
    ∃ d' bytes, d'.Working ∧ bytes.length = w ∧
      ∀ ring' wrote, c4RingbufWrite conn.ring bytes = some (ring', wrote) →
        readAndSend sb d conn cli w =
          some (d', ⟨ring', some { cli with index := (cli.index + wrote) % wordSize }⟩,
            [.completed [wrote]]) := by
  obtain ⟨d', hread, hr, -⟩ := ext2InodeReadBlock_mapped h hd hm
  refine ⟨d', (List.range w).map fun i => d'.buffer (cli.index % ext2BlockSize sb + i),
    hr.working hd, by simp, fun ring' wrote hwrite => ?_⟩
  refine run_bind hcan ((if_neg (by decide)).trans (run_bind hread ((if_neg (by decide)).trans ?_)))
  exact run_bind (if_pos hpage) (run_bind hwrite rfl)

theorem ReadAnswerable.answers (hf : ReadAnswerable sb d conn) (h : Geometry sb)
    (hd : d.Working) (hring : Wf ringSize conn.ring) :
    Answers (handleReadBlock sb d conn) := by
  cases hcli : conn.progData with
  | none => exact ⟨d, conn, _, by rw [handleReadBlock, hcli], hd, hring⟩
  | some cli =>
    by_cases hend : cli.index ≥ cli.e2node.lowerSize
    · refine ⟨d, conn, .completed [0], ?_, hd, hring⟩
      rw [handleReadBlock, hcli]
      exact if_pos hend
    · have hlt := Nat.lt_of_not_le hend
      rw [handleReadBlock_send h hcli hlt]
      have hcan := hring.canWrite_eq (readSize sb cli)
      by_cases hroom : readSize sb cli < ringSize - conn.ring.used
      · rw [decide_eq_true hroom] at hcan
        obtain ⟨hm, hpage⟩ := hf cli hcli hlt hcan
        obtain ⟨d', bytes, hd', -, hsend⟩ := readAndSend_mapped h hd hcan hm hpage
        obtain ⟨ring', wrote, hwrite, hring'⟩ := exists_write hring bytes
        exact ⟨d', _, .completed [wrote], hsend ring' wrote hwrite, hd', hring'⟩
      · rw [decide_eq_false hroom] at hcan
        exact ⟨d, conn, .error .queueFull, run_bind hcan (if_pos rfl), hd, hring⟩

theorem readAnswerable_of_run (h : Geometry sb) (hd : d.Working)
    (hrun : handleReadBlock sb d conn = some r) : ReadAnswerable sb d conn := by
  intro cli hcli hlt hcan
  rw [handleReadBlock_send h hcli hlt] at hrun
  obtain ⟨canWrite, hcan', hrun⟩ := Option.bind_eq_some_iff.1 hrun
  cases hcan.symm.trans hcan'
  obtain ⟨⟨d', ok⟩, hread, hrun⟩ := Option.bind_eq_some_iff.1 hrun
  cases ok with
  | false => cases hrun
  | true =>
    obtain ⟨bytes, hload, -⟩ := Option.bind_eq_some_iff.1 hrun
    constructor
    · by_contra hm
      exact ext2InodeReadBlock_not_mapped h hd hm hread
    · by_contra hout
      cases hload.symm.trans (if_neg hout)

/-! ## Writing -/

/-- A request to write that is answered: there is nothing to write, or a block is found for it. -/
def WriteAnswerable (sb : Superblock) (d : Device) (conn : Conn) : Prop :=
  ∀ cli, conn.progData = some cli → c4RingbufEmpty conn.ring = false →
    BlockFound sb d cli.fsnode.inode (cli.index / ext2BlockSize sb)

theorem WriteAnswerable.answers (hf : WriteAnswerable sb d conn) (h : Geometry sb)
    (hd : d.Working) (hring : Wf ringSize conn.ring) :
    Answers (handleWriteBlock sb d conn) := by
  cases hcli : conn.progData with
  | none => exact ⟨d, conn, _, by rw [handleWriteBlock, hcli], hd, hring⟩
  | some cli =>
    simp only [handleWriteBlock, hcli]
    rw [if_neg h.blockSize_ne]
    cases hempty : c4RingbufEmpty conn.ring with
    | true => exact ⟨d, conn, .completed [0], if_pos rfl, hd, hring⟩
    | false =>
      obtain ⟨d₁, b, halloc, hd₁, hle⟩ := (hf cli hcli hempty).exists_alloc h hd
      obtain ⟨ring, hread, hring', -⟩ := Holds.read ⟨hring, rfl⟩
        (ext2BlockSize sb - cli.index % ext2BlockSize sb)
      generalize hbytes : conn.ring.contents.take
        (ext2BlockSize sb - cli.index % ext2BlockSize sb) = bytes at hread
      have hpage : cli.index % ext2BlockSize sb + bytes.length ≤ pageSize := by
        have hlen := List.length_take_le (ext2BlockSize sb - cli.index % ext2BlockSize sb)
          conn.ring.contents
        have hmod := Nat.mod_lt cli.index (Nat.pos_of_ne_zero h.blockSize_ne)
        have hblock := h.blockSize_le.2
        rw [hbytes] at hlen
        show _ ≤ 4096
        omega
      let d₂ : Device := { d₁.fetch sb (deviceBlock sb b) with
        buffer := writeBytes (d₁.fetch sb (deviceBlock sb b)).buffer
          (cli.index % ext2BlockSize sb) bytes }
      have hd₂ : d₂.Working := hd₁
      refine ⟨d₂.flush sb (deviceBlock sb b),
        ⟨ring, some { cli with index := (cli.index + bytes.length) % wordSize }⟩,
        .completed [bytes.length], (if_neg (by decide)).trans (run_bind halloc ?_), hd₂,
        hring'.1⟩
      refine run_bind (ext2ReadBlock_deviceBlock h.blockSize hd₁ hle)
        ((if_neg (by decide)).trans ?_)
      refine run_bind hread (run_bind (if_pos hpage) ?_)
      exact run_bind (ext2WriteBlock_deviceBlock h.blockSize hd₂ hle) rfl

theorem writeAnswerable_of_run (h : Geometry sb) (hd : d.Working)
    (hrun : handleWriteBlock sb d conn = some r) : WriteAnswerable sb d conn := by
  intro cli hcli hempty
  simp only [handleWriteBlock, hcli, hempty, Bool.false_eq_true, if_false] at hrun
  rw [if_neg h.blockSize_ne] at hrun
  obtain ⟨⟨d₁, b⟩, halloc, hrun⟩ := Option.bind_eq_some_iff.1 hrun
  obtain ⟨⟨d₂, ok⟩, hread, hrun⟩ := Option.bind_eq_some_iff.1 hrun
  refine blockFound_of_alloc h hd halloc ?_
  by_contra hout
  rw [ext2ReadBlock, if_pos (Nat.lt_of_not_le hout)] at hread
  cases hread
  cases hrun

/-! ## The server -/

/-- A request that is answered. -/
def Answerable (sb : Superblock) (stack : ℕ → UInt8) (d : Device) (conn : Conn)
    (request : Message) : Prop :=
  match request.type with
  | .setNode | .getNodeInfo => Findable sb (request.data 0)
  | .findName => FindAnswerable sb stack d conn (request.data 0)
  | .listDir => ListAnswerable sb d conn
  | .readBlock => ReadAnswerable sb d conn
  | .writeBlock => WriteAnswerable sb d conn
  | .getRootDir | .other => True

/-- **A request that meets the condition gets one response.** -/
theorem Answerable.answers {request : Message} (hf : Answerable sb stack d conn request)
    (h : Geometry sb) (hd : d.Working) (hring : Wf ringSize conn.ring) :
    Answers (ext2Server sb stack d conn request) := by
  obtain ⟨type, data⟩ := request
  cases type with
  | setNode => exact Findable.setNode h hd hring hf
  | findName =>
    obtain ⟨d', conn', reply, name, hrun, hd', hring'⟩ := FindAnswerable.answers hf h hd hring
    exact ⟨d', conn', reply, run_bind hrun rfl, hd', hring'⟩
  | getRootDir => exact getRootdir_answers h hd hring stack
  | getNodeInfo => exact Findable.getNodeInfo h hd hring hf
  | listDir => exact ListAnswerable.answers hf h hd hring stack
  | readBlock => exact ReadAnswerable.answers hf h hd hring
  | writeBlock => exact WriteAnswerable.answers hf h hd hring
  | other => exact ⟨d, conn, .error .notImplemented, rfl, hd, hring⟩

/-- A request for which the handler returns meets the condition. -/
theorem answerable_of_run {request : Message} (h : Geometry sb) (hd : d.Working)
    (hring : Wf ringSize conn.ring) (hrun : ext2Server sb stack d conn request = some r) :
    Answerable sb stack d conn request := by
  obtain ⟨type, data⟩ := request
  cases type with
  | setNode =>
    obtain ⟨x, hget, -⟩ := Option.bind_eq_some_iff.1 hrun
    exact findable_of_getInode h hd hget
  | findName =>
    obtain ⟨x, hfind, -⟩ := Option.bind_eq_some_iff.1 hrun
    exact findAnswerable_of_run h hd hring hfind
  | getRootDir => trivial
  | getNodeInfo =>
    obtain ⟨x, hget, -⟩ := Option.bind_eq_some_iff.1 hrun
    exact findable_of_getInode h hd hget
  | listDir => exact listAnswerable_of_run h hd hring hrun
  | readBlock => exact readAnswerable_of_run h hd hrun
  | writeBlock => exact writeAnswerable_of_run h hd hrun
  | other => trivial

/-! ## Runs -/

/-- The rings are as the clients and the server use them. -/
def Server.RingsOk (x : Server) : Prop := ∀ c, Wf ringSize (x.conns c).ring

theorem Server.RingsOk.update {x : Server} {c : ℕ} (hx : x.RingsOk) (hring : Wf ringSize conn.ring)
    (d : Device) : Server.RingsOk ⟨d, Function.update x.conns c conn⟩ := by
  intro c'
  by_cases hc : c' = c
  · subst hc
    show Wf ringSize (Function.update x.conns c' conn c').ring
    rwa [Function.update_self]
  · show Wf ringSize (Function.update x.conns c conn c').ring
    rw [Function.update_of_ne hc]
    exact hx c'

/-- The device works, and the rings are as the clients and the server use them. -/
structure Server.Ok (x : Server) : Prop where
  working : x.dev.Working
  rings : ∀ c, Wf ringSize (x.conns c).ring

theorem Server.start_ok (disk : ℕ → UInt8) : (Server.start disk).Ok :=
  ⟨System.connect_working disk, fun _ => (System.connect_holds disk).1⟩

theorem Server.Ok.update {x : Server} {c : ℕ} (hx : x.Ok) (hd : d.Working)
    (hring : Wf ringSize conn.ring) : Server.Ok ⟨d, Function.update x.conns c conn⟩ :=
  ⟨hd, Server.RingsOk.update hx.rings hring d⟩

/-- The condition for an event: the clients may use their rings at any time. -/
def Event.Meets (sb : Superblock) (x : Server) : Event → Prop
  | .request c stack msg => Answerable sb stack x.dev (x.conns c) msg
  | .write _ _ | .read _ _ => True

/-- A step leaves the server as it should be. -/
theorem Handles.ok {x y : Server} {ev : Event} (h : Geometry sb) (hx : x.Ok)
    (hstep : Handles sb x ev y) : y.Ok := by
  cases hstep with
  | request hrun =>
    have hf := answerable_of_run h hx.working (hx.rings _) hrun
    obtain ⟨d', conn', reply, hrun', hd', hring'⟩ := hf.answers h hx.working (hx.rings _)
    cases hrun.symm.trans hrun'
    exact hx.update hd' hring'
  | write hrun => exact hx.update hx.working (wf_of_write (hx.rings _) hrun)
  | read hrun => exact hx.update hx.working (wf_of_read (hx.rings _) hrun)

/-- An event is handled if and only if it meets the condition. -/
theorem exists_handles_iff {x : Server} {ev : Event} (h : Geometry sb) (hx : x.Ok) :
    (∃ y, Handles sb x ev y) ↔ ev.Meets sb x := by
  cases ev with
  | request c stack msg =>
    constructor
    · rintro ⟨y, hstep⟩
      cases hstep with
      | request hrun => exact answerable_of_run h hx.working (hx.rings c) hrun
    · intro hf
      obtain ⟨d', conn', reply, hrun, -⟩ := Answerable.answers hf h hx.working (hx.rings c)
      exact ⟨_, .request hrun⟩
  | write c bytes =>
    obtain ⟨ring, k, hrun, -⟩ := exists_write (hx.rings c) bytes
    exact iff_of_true ⟨_, .write hrun⟩ trivial
  | read c size =>
    obtain ⟨ring, hrun, -⟩ := Holds.read ⟨hx.rings c, rfl⟩ size
    exact iff_of_true ⟨_, .read hrun⟩ trivial

/-- A lookup on a connection without a node leads through the null pointer. -/
theorem findName_without_node {x : Server} {c : ℕ} {data : ℕ → ℕ}
    (hcli : (x.conns c).progData = none) (stack : ℕ → UInt8) (events : List Event) :
    ¬ ∃ y, Run (Handles sb) x (.request c stack ⟨.findName, data⟩ :: events) y := by
  rintro ⟨y, hrun⟩
  cases hrun with
  | cons hstep _ =>
    cases hstep with
    | request hrun =>
      obtain ⟨r, hfind, -⟩ := Option.bind_eq_some_iff.1 hrun
      obtain ⟨cli, hcli', -⟩ := Option.bind_eq_some_iff.1 hfind
      cases hcli.symm.trans hcli'

/-- **One response for each request.** On a well-formed image with a root directory and a disk that
works, all requests of a run get exactly one response each, if and only if each one meets the
condition in the state before it. -/
theorem one_response_iff (wf : WellFormed sb disk) (hroot : IsInode sb 2) (events : List Event) :
    (∃ y, Run (Handles sb) (Server.start disk) events y) ↔
      ∀ pre ev post x, events = pre ++ ev :: post →
        Run (Handles sb) (Server.start disk) pre x → ev.Meets sb x := by
  have h := wf.toLaidOut.geometry hroot
  rw [Run.exists_iff (handles_determined sb)]
  have hok : ∀ {pre x}, Run (Handles sb) (Server.start disk) pre x → x.Ok := fun hrun =>
    hrun.keeps (Server.start_ok disk) fun s e t => Handles.ok h
  constructor
  · exact fun hall pre ev post x heq hrun =>
      (exists_handles_iff h (hok hrun)).1 (hall pre ev post x heq hrun)
  · exact fun hall pre ev post x heq hrun =>
      (exists_handles_iff h (hok hrun)).2 (hall pre ev post x heq hrun)

/-- Two clients on an image with blocks of 2048 bytes; there is no inode 9. -/
theorem one_response_iff_clients : ∃ y, Run (Handles mediumSuperblock) (Server.start mediumDisk)
    [.request 0 (fun _ => 0) ⟨.setNode, fun _ => 2⟩, .write 0 [0x61],
      .request 1 (fun _ => 0) ⟨.getNodeInfo, fun _ => 9⟩,
      .request 0 (fun _ => 0) ⟨.getRootDir, fun _ => 0⟩] y := by
  refine (one_response_iff mediumDisk_wellFormed ⟨by decide, by decide⟩ _).2
    fun pre ev post x heq _ => ?_
  have hmem := List.mem_append_right pre (List.mem_cons_self (a := ev) (l := post))
  rw [← heq] at hmem
  simp only [List.mem_cons, List.not_mem_nil, or_false] at hmem
  rcases hmem with rfl | rfl | rfl | rfl
  · exact findable_root mediumSuperblock
  · trivial
  · exact .inl (by decide)
  · trivial

/-- A lookup before a node is set is not answered. -/
theorem lookup_without_node : WellFormed mediumSuperblock mediumDisk ∧ IsInode mediumSuperblock 2 ∧
    ¬ ∃ y, Run (Handles mediumSuperblock) (Server.start mediumDisk)
      [.request 0 (fun _ => 0) ⟨.findName, fun _ => 1⟩] y := by
  exact ⟨mediumDisk_wellFormed, ⟨by decide, by decide⟩, findName_without_node rfl _ _⟩

end C4OS.Ext2
