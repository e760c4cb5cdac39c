import C4OS.Ext2.Responses
import C4OS.Ext2.Tracing

/-!
# A failing disk

What a request does when a transfer fails. It should be answered with an error
(`ErrorOnFailure`). Only `handle_get_node_info` does so: `handle_set_node` and
`handle_get_rootdir` do not look at the pointer that `ext2_get_inode` returns, and the others read
or write through a null pointer or complete the request as if nothing had happened
(`errorOnFailure_iff`).

So a request is safe from all failures if and only if it is one for information about a node, or it
does not come to a transfer at all; `Touches` says when it does. `failing_disk_iff` is the result
for all runs of the server.
-/

namespace C4OS.Ext2

open Foundations Ringbuffer Tracing

variable {sb : Superblock} {d : Device} {conn : Conn} {stack : ℕ → UInt8} {e : Inode}
  {inode namelen b j : ℕ}

/-- When a transfer of the request fails, the request ends with an error as its answer. -/
def ErrorOnFailure (sb : Superblock) (stack : ℕ → UInt8) (d : Device) (conn : Conn)
    (request : Message) : Prop :=
  (Tracing.ext2Server sb stack conn request).Fails d →
    ∃ conn' err, ((Tracing.ext2Server sb stack conn request).run d).1 = some (conn', [.error err])

/-- Whatever fails, no failure becomes data. -/
def SafeFromFailures (sb : Superblock) (stack : ℕ → UInt8) (d : Device) (conn : Conn)
    (request : Message) : Prop :=
  ∀ fault, ErrorOnFailure sb stack { d with fault := fault } conn request

/-! ## Single transfers -/

/-- A block that is transferred: it is in the file system, and it fits into the page. -/
def Transferred (sb : Superblock) (block : ℕ) : Prop :=
  block ≤ sb.totalBlocks ∧ ext2BlockSizeToSectors sb * 512 ≤ pageSize

theorem readBlock_transferred (ht : Transferred sb b) :
    ∃ d', (Tracing.ext2ReadBlock sb b).run d = (some (!d.fault d.transfers), d') ∧
      d'.transfers = d.transfers + 1 := by
  have hrun : Ext2.ext2ReadBlock sb d b = blockRead d (ext2BlockToSector sb b)
      (ext2BlockSizeToSectors sb) := if_neg (Nat.not_lt_of_le ht.1)
  rw [blockRead, if_neg (Nat.not_lt_of_le ht.2)] at hrun
  cases hfault : d.fault d.transfers with
  | true =>
    rw [if_pos hfault] at hrun
    exact ⟨_, Traced.run_step_of_some hrun, rfl⟩
  | false =>
    rw [hfault] at hrun
    exact ⟨_, Traced.run_step_of_some hrun, rfl⟩

theorem readBlock_not_transferred (ht : ¬ Transferred sb b) :
    (Tracing.ext2ReadBlock sb b).run d = (none, d) ∨
      (Tracing.ext2ReadBlock sb b).run d = (some false, d) := by
  by_cases hle : b ≤ sb.totalBlocks
  · refine .inl (Traced.run_step_of_none ?_)
    rw [Ext2.ext2ReadBlock, if_neg (Nat.not_lt_of_le hle), blockRead,
      if_pos (Nat.lt_of_not_le fun hpage => ht ⟨hle, hpage⟩)]
  · refine .inr (Traced.run_step_of_some ?_)
    rw [Ext2.ext2ReadBlock, if_pos (Nat.lt_of_not_le hle)]

theorem attempts_readBlock : (Tracing.ext2ReadBlock sb b).Attempts d ↔ Transferred sb b := by
  by_cases ht : Transferred sb b
  · obtain ⟨d', hrun, hcount⟩ := readBlock_transferred (d := d) ht
    refine iff_of_true ?_ ht
    show d.transfers < ((Tracing.ext2ReadBlock sb b).run d).2.transfers
    rw [hrun, hcount]
    exact Nat.lt_succ_self _
  · refine iff_of_false ?_ ht
    show ¬ d.transfers < ((Tracing.ext2ReadBlock sb b).run d).2.transfers
    rcases readBlock_not_transferred (d := d) ht with hrun | hrun
    · rw [hrun]
      exact Nat.lt_irrefl _
    · rw [hrun]
      exact Nat.lt_irrefl _

/-- A read that fails returns the null pointer. -/
theorem readBlock_of_fails (hf : (Tracing.ext2ReadBlock sb b).Fails d) :
    ((Tracing.ext2ReadBlock sb b).run d).1 = some false := by
  obtain ⟨d', hrun, hcount⟩ := readBlock_transferred (d := d) (attempts_readBlock.1 hf.attempts)
  obtain ⟨i, hle, hlt, hi⟩ := hf
  have hle' : d.transfers ≤ i := hle
  have hlt' : i < ((Tracing.ext2ReadBlock sb b).run d).2.transfers := hlt
  rw [hrun, hcount] at hlt'
  obtain rfl : d.transfers = i := by omega
  have hi' : d.fault d.transfers = true := hi
  rw [hrun, hi']
  rfl

theorem readBlock_cleanWhen : (Tracing.ext2ReadBlock sb b).CleanWhen (· = true) := by
  rintro d ok hok rfl hf
  cases hok.symm.trans (readBlock_of_fails hf)

/-- A pointer that is not null comes from a transfer. -/
theorem attempts_of_readBlock (h : ((Tracing.ext2ReadBlock sb b).run d).1 = some true) :
    (Tracing.ext2ReadBlock sb b).Attempts d := by
  by_contra hna
  rcases readBlock_not_transferred (d := d) (mt attempts_readBlock.2 hna) with hrun | hrun
  · rw [hrun] at h
    cases h
  · rw [hrun] at h
    cases h

theorem ensures_stop {α : Type} {P : α → Prop} : (stop : Prog α).Ensures P := fun _ _ h => nomatch h

/-! ## Inodes and blocks of files -/

theorem attempts_getInode : (Tracing.ext2GetInode sb inode).Attempts d ↔
    Transferred sb (descStart sb) := by
  constructor
  · intro ha
    rcases Traced.attempts_bind.1 ha with ha | ⟨ok, hok, ha⟩
    · exact attempts_readBlock.1 ha
    · cases ok with
      | false => exact absurd ha Traced.not_attempts_pure
      | true => exact attempts_readBlock.1 (attempts_of_readBlock hok)
  · exact fun ht => Traced.attempts_bind_left (attempts_readBlock.2 ht)

/-- When a transfer fails, `ext2_get_inode` returns the null pointer. -/
theorem getInode_of_fails (hf : (Tracing.ext2GetInode sb inode).Fails d) :
    ((Tracing.ext2GetInode sb inode).run d).1 = some none := by
  rw [Tracing.ext2GetInode] at hf ⊢
  rcases Traced.fails_bind.1 hf with hf | ⟨ok, hok, hf⟩
  · rw [Traced.run_bind_of_some (readBlock_of_fails hf)]
    rfl
  · rw [Traced.run_bind_of_some hok]
    generalize ((Tracing.ext2ReadBlock sb (descStart sb)).run d).2 = d₁ at hf ⊢
    split at hf
    · exact absurd hf.attempts Traced.not_attempts_pure
    · next hcond =>
      rw [if_neg hcond]
      rcases Traced.fails_bind.1 hf with hf | ⟨place, hplace, hf⟩
      · exact absurd hf.attempts Traced.not_attempts_get
      · rw [Traced.run_bind_of_some hplace]
        rcases Traced.fails_bind.1 hf with hf | ⟨ok', hok', hf⟩
        · rw [Traced.run_bind_of_some (readBlock_of_fails hf)]
          rfl
        · cases ok' with
          | false => exact absurd hf.attempts Traced.not_attempts_pure
          | true =>
            rcases Traced.fails_bind.1 hf with hf | ⟨record, -, hf⟩
            · exact absurd hf.attempts Traced.not_attempts_get
            · exact absurd hf.attempts Traced.not_attempts_pure

/-- The block that `ext2_inode_read_block` comes to first, a block of the file or the indirect
block. -/
def firstBlock (sb : Superblock) (e : Inode) (block : ℕ) : ℕ :=
  if block < 12 then e.directPtr block
  else if block < ext2PointersPerBlock sb + 12 then e.singleIndirectPtr
  else 0

/-- `ext2_inode_read_block` comes to a transfer. -/
def BlockTouched (sb : Superblock) (e : Inode) (block : ℕ) : Prop :=
  firstBlock sb e block ≠ 0 ∧ Transferred sb (firstBlock sb e block)

theorem not_attempts_clear : ¬ (clear sb >>= fun _ => pure false : Prog Bool).Attempts d := by
  intro ha
  rcases Traced.attempts_bind.1 ha with ha | ⟨_, _, ha⟩
  · exact Traced.not_attempts_update ha
  · exact Traced.not_attempts_pure ha

/-- The end of `ext2_inode_read_block`, for a block that was found. -/
theorem attempts_readFound : (if b ≠ 0 then Tracing.ext2ReadBlock sb b
    else clear sb >>= fun _ => pure false : Prog Bool).Attempts d ↔ b ≠ 0 ∧ Transferred sb b := by
  split
  · next hb => exact attempts_readBlock.trans (and_iff_right hb).symm
  · next hb => exact iff_of_false not_attempts_clear fun h => hb h.1

/-- The table of the indirect block is read when there is one. -/
theorem attempts_table {off : ℕ} :
    (Tracing.ext2ReadBlock sb b >>= fun ok => if ok then load 4 off else stop).Attempts d ↔
      Transferred sb b := by
  constructor
  · intro ha
    rcases Traced.attempts_bind.1 ha with ha | ⟨ok, hok, ha⟩
    · exact attempts_readBlock.1 ha
    · cases ok with
      | false => exact absurd ha Traced.not_attempts_get
      | true => exact attempts_readBlock.1 (attempts_of_readBlock hok)
  · exact fun ht => Traced.attempts_bind_left (attempts_readBlock.2 ht)

theorem attempts_inodeReadBlock : (Tracing.ext2InodeReadBlock sb e j).Attempts d ↔
    BlockTouched sb e j := by
  rw [Tracing.ext2InodeReadBlock, BlockTouched, firstBlock, Tracing.inodeBlock]
  have hfound : ∀ {r : ℕ} {d : Device}, ((pure r : Prog ℕ) >>= fun b => if b ≠ 0 then
      Tracing.ext2ReadBlock sb b else clear sb >>= fun _ => pure false : Prog Bool).Attempts d ↔
      r ≠ 0 ∧ Transferred sb r := attempts_readFound
  split
  · exact hfound
  · split
    · by_cases hzero : e.singleIndirectPtr = 0
      · rw [if_pos hzero, hzero]
        exact hfound
      · rw [if_neg hzero]
        by_cases ht : Transferred sb e.singleIndirectPtr
        · exact iff_of_true (Traced.attempts_bind_left (attempts_table.2 ht)) ⟨hzero, ht⟩
        · refine iff_of_false (fun ha => ?_) fun h => ht h.2
          rcases Traced.attempts_bind.1 ha with ha | ⟨b, hb, -⟩
          · exact ht (attempts_table.1 ha)
          · obtain ⟨ok, hok, hb⟩ := Traced.exists_of_bind hb
            cases ok with
            | false => cases hb
            | true => exact ht (attempts_readBlock.1 (attempts_of_readBlock hok))
    · exact hfound

theorem clear_ensures : (clear sb >>= fun _ => pure false : Prog Bool).Ensures fun ok => ¬ ok = true :=
  Traced.ensures_bind fun _ => Traced.ensures_pure Bool.false_ne_true

/-- A block of a file that is read comes without failures. -/
theorem inodeReadBlock_cleanWhen : (Tracing.ext2InodeReadBlock sb e j).CleanWhen (· = true) := by
  have htable : (Tracing.inodeBlock sb e j).CleanWhen fun _ => True := by
    rw [Tracing.inodeBlock]
    split
    · exact Traced.cleanWhen_pure _
    · split
      · split
        · exact Traced.cleanWhen_pure _
        · refine readBlock_cleanWhen.bind (fun ok hok => ?_) fun ok hok => ?_
          · rw [if_pos hok]
            exact Traced.cleanWhen_get _ _
          · rw [if_neg hok]
            exact ensures_stop
      · exact Traced.cleanWhen_pure _
  refine htable.bind (fun b _ => ?_) fun _ h => absurd trivial h
  split
  · exact readBlock_cleanWhen
  · exact clear_ensures.cleanWhen

/-- A block of a file that is read has been transferred. -/
theorem attempts_of_inodeReadBlock (h : ((Tracing.ext2InodeReadBlock sb e j).run d).1 = some true) :
    (Tracing.ext2InodeReadBlock sb e j).Attempts d := by
  obtain ⟨b, hb, h⟩ := Traced.exists_of_bind h
  refine Traced.attempts_bind.2 (.inr ⟨b, hb, ?_⟩)
  split at h
  · next hne =>
    rw [if_pos hne]
    exact attempts_of_readBlock h
  · exact absurd rfl (clear_ensures _ _ h)

/-- What follows a block of a file is not reached without it. -/
theorem attempts_inodeReadBlock_bind {α : Type} {k : Prog α} :
    (Tracing.ext2InodeReadBlock sb e j >>= fun ok => if !ok then stop else k).Attempts d ↔
      BlockTouched sb e j := by
  constructor
  · intro ha
    rcases Traced.attempts_bind.1 ha with ha | ⟨ok, hok, ha⟩
    · exact attempts_inodeReadBlock.1 ha
    · cases ok with
      | false => exact absurd ha Traced.not_attempts_get
      | true => exact attempts_inodeReadBlock.1 (attempts_of_inodeReadBlock hok)
  · exact fun ht => Traced.attempts_bind_left (attempts_inodeReadBlock.2 ht)

/-- A search that ends comes without failures. -/
theorem findInDir_cleanWhen {name : List UInt8} {fuel : ℕ} :
    (Tracing.findInDir sb e name fuel j).CleanWhen fun _ => True := by
  induction fuel generalizing j with
  | zero => exact ensures_stop.cleanWhen
  | succ fuel ih =>
    rw [Tracing.findInDir]
    split
    · refine inodeReadBlock_cleanWhen.bind (fun ok hok => ?_) fun ok hok => ?_
      · rw [hok]
        refine Traced.CleanWhen.get_bind fun found => ?_
        cases found with
        | none => exact ih
        | some ent => exact Traced.cleanWhen_pure _
      · rw [Bool.eq_false_of_not_eq_true hok]
        exact ensures_stop
    · exact Traced.cleanWhen_pure _

/-! ## The handlers -/

/-- An answer that is an error. -/
def IsError (r : Conn × List Reply) : Prop := ∃ err, r.2 = [.error err]

theorem not_isError {conn : Conn} {data : List ℕ} : ¬ IsError (conn, [.completed data]) := by
  rintro ⟨err, herr⟩
  cases herr

theorem completes {conn : Conn} {data : List ℕ} :
    (pure (conn, [.completed data]) : Handler).Ensures fun r => ¬ IsError r :=
  Traced.ensures_pure not_isError

/-- A request that reads a block of a file ends without an error from there on. -/
theorem block_ensures {k : Handler} (hk : k.Ensures fun r => ¬ IsError r) :
    (Tracing.ext2InodeReadBlock sb e j >>= fun ok => if !ok then stop else k).Ensures
      fun r => ¬ IsError r := by
  refine Traced.ensures_bind fun ok => ?_
  split
  · exact ensures_stop
  · exact hk

/-- **The answer to a request that fails is no error**, unless it is one for information about a
node. -/
theorem server_cleanWhen (request : Message) (hne : request.type ≠ .getNodeInfo) :
    (Tracing.ext2Server sb stack conn request).CleanWhen IsError := by
  obtain ⟨type, data⟩ := request
  cases type with
  | setNode => exact (Traced.ensures_bind fun buf => completes).cleanWhen
  | findName =>
    refine Traced.CleanWhen.get_bind fun cli => ?_
    split
    · exact Traced.cleanWhen_pure _
    · refine Traced.CleanWhen.get_bind fun canRead => ?_
      split
      · exact Traced.cleanWhen_pure _
      · refine Traced.CleanWhen.get_bind fun read => ?_
        refine findInDir_cleanWhen.bind (fun ent _ => ?_) fun _ h => absurd trivial h
        exact Traced.cleanWhen_pure _
  | getRootDir => exact (Traced.ensures_bind fun buf => completes).cleanWhen
  | getNodeInfo => exact absurd rfl hne
  | listDir =>
    show (Tracing.handleListDir sb stack conn).CleanWhen IsError
    rw [Tracing.handleListDir]
    split
    · exact Traced.cleanWhen_pure _
    · split
      · exact Traced.cleanWhen_pure _
      · exact (block_ensures (Traced.ensures_bind fun list => completes)).cleanWhen
  | readBlock =>
    show (Tracing.handleReadBlock sb conn).CleanWhen IsError
    rw [Tracing.handleReadBlock]
    split
    · exact Traced.cleanWhen_pure _
    · split
      · exact Traced.cleanWhen_pure _
      · split
        · exact ensures_stop.cleanWhen
        · refine Traced.CleanWhen.get_bind fun canWrite => ?_
          split
          · exact Traced.cleanWhen_pure _
          · refine (block_ensures ?_).cleanWhen
            exact Traced.ensures_bind fun bytes => Traced.ensures_bind fun write => completes
  | writeBlock =>
    show (Tracing.handleWriteBlock sb conn).CleanWhen IsError
    rw [Tracing.handleWriteBlock]
    split
    · exact Traced.cleanWhen_pure _
    · split
      · exact ensures_stop.cleanWhen
      · split
        · exact Traced.cleanWhen_pure _
        · refine (Traced.ensures_bind fun fsBlock => Traced.ensures_bind fun ok => ?_).cleanWhen
          split
          · exact ensures_stop
          · refine Traced.ensures_bind fun read => Traced.ensures_bind fun _ => ?_
            exact Traced.ensures_bind fun _ => completes
  | other => exact Traced.cleanWhen_pure _

/-- A request for information about a node is answered with an error. -/
theorem getNodeInfo_of_fails (hf : (Tracing.handleGetNodeInfo sb conn inode).Fails d) :
    ((Tracing.handleGetNodeInfo sb conn inode).run d).1 = some (conn, [.error .notFound]) := by
  have hget : (Tracing.ext2GetInode sb inode).Fails d := by
    rcases Traced.fails_bind.1 hf with hf | ⟨buf, -, hf⟩
    · exact hf
    · cases buf with
      | none => exact absurd hf.attempts Traced.not_attempts_pure
      | some record => exact absurd hf.attempts Traced.not_attempts_pure
  rw [Tracing.handleGetNodeInfo, Traced.run_bind_of_some (getInode_of_fails hget)]
  rfl

/-- **A failure is reported** if and only if there is none, or the request is one for information
about a node. -/
theorem errorOnFailure_iff {request : Message} : ErrorOnFailure sb stack d conn request ↔
    request.type = .getNodeInfo ∨ ¬ (Tracing.ext2Server sb stack conn request).Fails d := by
  by_cases htype : request.type = .getNodeInfo
  · refine iff_of_true (fun hf => ?_) (.inl htype)
    obtain ⟨type, data⟩ := request
    obtain rfl : type = .getNodeInfo := htype
    exact ⟨conn, .notFound, getNodeInfo_of_fails hf⟩
  · rw [or_iff_right htype]
    constructor
    · intro h hf
      obtain ⟨conn', err, hrun⟩ := h hf
      exact server_cleanWhen request htype d _ hrun ⟨err, rfl⟩ hf
    · exact fun hf h => absurd h hf

/-! ## Requests that come to a transfer -/

/-- A lookup that comes to a transfer: the name is looked for in a directory that is not empty and
has a first block. -/
def FindTouches (sb : Superblock) (conn : Conn) (namelen : ℕ) : Prop :=
  ∃ cli, conn.progData = some cli ∧ ext2IsDirectory cli.e2node = true ∧
    c4RingbufCanRead conn.ring namelen = some true ∧ namelen < fsMaxNameLen ∧
      0 < cli.e2node.lowerSize ∧ BlockTouched sb cli.e2node 0

/-- A request for entries that comes to a transfer: it is not at the end, and there is a block. -/
def ListTouches (sb : Superblock) (conn : Conn) : Prop :=
  ∃ cli, conn.progData = some cli ∧
    cli.index * ext2BlockSize sb % wordSize < cli.e2node.lowerSize ∧
      BlockTouched sb cli.e2node cli.index

/-- A request for bytes that comes to a transfer: it is not at the end, there is room for the
bytes, and there is a block. -/
def ReadTouches (sb : Superblock) (conn : Conn) : Prop :=
  ∃ cli, conn.progData = some cli ∧ cli.index < cli.e2node.lowerSize ∧ ext2BlockSize sb ≠ 0 ∧
    c4RingbufCanWrite conn.ring (readSize sb cli) = some true ∧
      BlockTouched sb cli.e2node (cli.index / ext2BlockSize sb)

/-- A request to write that comes to a transfer: there are bytes in the ring. -/
def WriteTouches (sb : Superblock) (conn : Conn) : Prop :=
  ∃ cli, conn.progData = some cli ∧ ext2BlockSize sb ≠ 0 ∧ c4RingbufEmpty conn.ring = false ∧
    Transferred sb (descStart sb)

/-- A request that comes to a transfer. -/
def Touches (sb : Superblock) (conn : Conn) (request : Message) : Prop :=
  match request.type with
  | .setNode | .getRootDir | .getNodeInfo => Transferred sb (descStart sb)
  | .findName => FindTouches sb conn (request.data 0)
  | .listDir => ListTouches sb conn
  | .readBlock => ReadTouches sb conn
  | .writeBlock => WriteTouches sb conn
  | .other => False

theorem attempts_getInode_bind {α : Type} {k : Option (ℕ × Inode) → Prog α}
    (hk : ∀ buf d, ¬ (k buf).Attempts d) :
    (Tracing.ext2GetInode sb inode >>= k).Attempts d ↔ Transferred sb (descStart sb) := by
  rw [Traced.attempts_bind, attempts_getInode, or_iff_left]
  rintro ⟨buf, -, ha⟩
  exact hk buf _ ha

/-- A record that is found has been transferred. -/
theorem attempts_of_getInode {record : ℕ × Inode}
    (h : ((Tracing.ext2GetInode sb inode).run d).1 = some (some record)) :
    Transferred sb (descStart sb) := by
  obtain ⟨ok, hok, h⟩ := Traced.exists_of_bind h
  cases ok with
  | false => cases h
  | true => exact attempts_readBlock.1 (attempts_of_readBlock hok)

theorem attempts_inodeAllocBlock_bind {α : Type} {k : ℕ → Prog α} :
    (Tracing.ext2InodeAllocBlock sb inode j >>= k).Attempts d ↔ Transferred sb (descStart sb) := by
  constructor
  · intro ha
    rcases Traced.attempts_bind.1 ha with ha | ⟨b, hb, -⟩
    · rcases Traced.attempts_bind.1 ha with ha | ⟨buf, hbuf, ha⟩
      · exact attempts_getInode.1 ha
      · obtain ⟨record, rfl, -⟩ := Traced.attempts_get_bind.1 ha
        exact attempts_of_getInode hbuf
    · obtain ⟨buf, hbuf, hb⟩ := Traced.exists_of_bind hb
      obtain ⟨record, hsome, -⟩ := Traced.exists_of_bind hb
      obtain rfl : buf = some record := hsome
      exact attempts_of_getInode hbuf
  · exact fun ht => Traced.attempts_bind_left (Traced.attempts_bind_left (attempts_getInode.2 ht))

/-- A search in a directory comes to a transfer at its first block. -/
theorem attempts_findInDir {name : List UInt8} {fuel : ℕ} :
    (Tracing.findInDir sb e name (fuel + 1) 0).Attempts d ↔
      0 < e.lowerSize ∧ BlockTouched sb e 0 := by
  rw [Tracing.findInDir, Nat.zero_mul, Nat.zero_mod]
  split
  · next hlt => exact attempts_inodeReadBlock_bind.trans (and_iff_right hlt).symm
  · next hge => exact iff_of_false Traced.not_attempts_pure fun h => hge h.1

theorem attempts_handleFindName (hring : Wf ringSize conn.ring) :
    (Tracing.handleFindName sb stack conn namelen).Attempts d ↔ FindTouches sb conn namelen := by
  rw [Tracing.handleFindName, Traced.attempts_get_bind, FindTouches]
  refine exists_congr fun cli => and_congr_right fun _ => ?_
  cases hdir : ext2IsDirectory cli.e2node with
  | false => exact iff_of_false Traced.not_attempts_pure fun h => Bool.false_ne_true h.1
  | true =>
    have hcan := hring.canRead_eq namelen
    rw [if_neg (by decide), Traced.attempts_get_bind, hcan, and_iff_right rfl]
    simp only [Option.some.injEq, exists_eq_left', decide_eq_true_eq]
    by_cases hfits : namelen ≤ conn.ring.used ∧ namelen < fsMaxNameLen
    · obtain ⟨ring, hread, -⟩ := Holds.read ⟨hring, rfl⟩ namelen
      rw [if_neg (by simpa using hfits), Traced.attempts_get_bind, hread, and_iff_right hfits.1,
        and_iff_right hfits.2]
      simp only [Option.some.injEq, exists_eq_left']
      rw [Traced.attempts_bind, or_iff_left]
      · exact attempts_findInDir
      · rintro ⟨_, _, ha⟩
        exact Traced.not_attempts_pure ha
    · have hrefused : (!decide (namelen ≤ conn.ring.used) || decide (namelen ≥ fsMaxNameLen)) =
          true := by
        by_contra hneg
        simp only [Bool.or_eq_true, Bool.not_eq_true', decide_eq_false_iff_not, not_or, not_not,
          decide_eq_true_eq] at hneg
        exact hfits ⟨hneg.1, Nat.lt_of_not_le hneg.2⟩
      rw [if_pos hrefused]
      refine iff_of_false Traced.not_attempts_pure ?_
      rintro ⟨hle, hlt, -⟩
      exact hfits ⟨hle, hlt⟩

/-- There is nothing to find. -/
theorem not_exists_eq_some {α : Type} {P : α → Prop} : ¬∃ a, none = some a ∧ P a := by
  rintro ⟨_, h, -⟩
  cases h

theorem attempts_handleListDir :
    (Tracing.handleListDir sb stack conn).Attempts d ↔ ListTouches sb conn := by
  rw [Tracing.handleListDir, ListTouches]
  cases conn.progData with
  | none => exact iff_of_false Traced.not_attempts_pure not_exists_eq_some
  | some cli =>
    simp only [Option.some.injEq, exists_eq_left']
    split
    · next hend =>
      exact iff_of_false Traced.not_attempts_pure fun h => absurd h.1 (Nat.not_lt_of_le hend)
    · next hend =>
      rw [attempts_inodeReadBlock_bind, and_iff_right (Nat.lt_of_not_le hend)]

theorem attempts_handleReadBlock :
    (Tracing.handleReadBlock sb conn).Attempts d ↔ ReadTouches sb conn := by
  rw [Tracing.handleReadBlock, ReadTouches]
  cases conn.progData with
  | none => exact iff_of_false Traced.not_attempts_pure not_exists_eq_some
  | some cli =>
    simp only [Option.some.injEq, exists_eq_left']
    split
    · next hend =>
      exact iff_of_false Traced.not_attempts_pure fun h => absurd h.1 (Nat.not_lt_of_le hend)
    · next hend =>
      rw [and_iff_right (Nat.lt_of_not_le hend)]
      split
      · next hzero => exact iff_of_false Traced.not_attempts_get fun h => h.1 hzero
      · next hzero =>
        rw [and_iff_right hzero, Tracing.readAndSend, Traced.attempts_get_bind, readSize]
        cases c4RingbufCanWrite conn.ring
            (min (cli.e2node.lowerSize - cli.index) (ext2BlockSize sb)) with
        | none =>
          refine iff_of_false not_exists_eq_some ?_
          rintro ⟨h, -⟩
          cases h
        | some canWrite =>
          simp only [Option.some.injEq, exists_eq_left']
          cases canWrite with
          | false => exact iff_of_false Traced.not_attempts_pure fun h => Bool.false_ne_true h.1
          | true => exact attempts_inodeReadBlock_bind.trans (and_iff_right rfl).symm

theorem attempts_handleWriteBlock :
    (Tracing.handleWriteBlock sb conn).Attempts d ↔ WriteTouches sb conn := by
  rw [Tracing.handleWriteBlock, WriteTouches]
  cases conn.progData with
  | none => exact iff_of_false Traced.not_attempts_pure not_exists_eq_some
  | some cli =>
    simp only [Option.some.injEq, exists_eq_left']
    split
    · next hzero => exact iff_of_false Traced.not_attempts_get fun h => h.1 hzero
    · next hzero =>
      rw [and_iff_right hzero]
      cases c4RingbufEmpty conn.ring with
      | true => exact iff_of_false Traced.not_attempts_pure fun h => Bool.false_ne_true h.1.symm
      | false =>
        rw [and_iff_right rfl, if_neg (by decide), Tracing.takeAndWrite]
        exact attempts_inodeAllocBlock_bind

/-- **The requests that come to a transfer**, whichever transfers fail. -/
theorem attempts_server (hring : Wf ringSize conn.ring) (request : Message) :
    (Tracing.ext2Server sb stack conn request).Attempts d ↔ Touches sb conn request := by
  obtain ⟨type, data⟩ := request
  cases type with
  | setNode => exact attempts_getInode_bind fun _ _ => Traced.not_attempts_pure
  | findName => exact attempts_handleFindName hring
  | getRootDir => exact attempts_getInode_bind fun _ _ => Traced.not_attempts_pure
  | getNodeInfo =>
    refine attempts_getInode_bind fun buf _ => ?_
    cases buf with
    | none => exact Traced.not_attempts_pure
    | some record => exact Traced.not_attempts_pure
  | listDir => exact attempts_handleListDir
  | readBlock => exact attempts_handleReadBlock
  | writeBlock => exact attempts_handleWriteBlock
  | other => exact iff_of_false Traced.not_attempts_pure id

/-- **A request is safe from failures** if and only if it is one for information about a node, or
does not come to a transfer. -/
theorem safeFromFailures_iff (hring : Wf ringSize conn.ring) {request : Message} :
    SafeFromFailures sb stack d conn request ↔
      request.type = .getNodeInfo ∨ ¬ Touches sb conn request := by
  constructor
  · intro h
    rcases errorOnFailure_iff.1 (h fun _ => true) with htype | hf
    · exact .inl htype
    · exact .inr fun ht => hf (((attempts_server hring request).2 ht).fails fun _ => rfl)
  · rintro (htype | ht) fault
    · exact errorOnFailure_iff.2 (.inl htype)
    · exact errorOnFailure_iff.2 (.inr fun hf => ht ((attempts_server hring request).1 hf.attempts))

/-! ## Runs -/

/-- A handler leaves the ring as it should be, whatever fails. -/
theorem server_ring (hring : Wf ringSize conn.ring) (request : Message) :
    (Tracing.ext2Server sb stack conn request).Ensures fun r => Wf ringSize r.1.ring := by
  have hpure : ∀ replies, (pure (conn, replies) : Handler).Ensures
      fun r => Wf ringSize r.1.ring := fun _ => Traced.ensures_pure hring
  obtain ⟨type, data⟩ := request
  cases type with
  | setNode => exact Traced.ensures_bind fun buf => Traced.ensures_pure hring
  | findName =>
    refine Traced.ensures_bind fun cli => ?_
    split
    · exact hpure _
    · refine Traced.ensures_bind fun canRead => ?_
      split
      · exact hpure _
      · refine (Traced.ensures_get fun _ _ hrun => wf_of_read hring hrun).bind fun read hread => ?_
        exact Traced.ensures_bind fun ent => Traced.ensures_pure hread
  | getRootDir => exact Traced.ensures_bind fun buf => hpure _
  | getNodeInfo =>
    refine Traced.ensures_bind fun buf => ?_
    cases buf with
    | none => exact hpure _
    | some record => exact hpure _
  | listDir =>
    show (Tracing.handleListDir sb stack conn).Ensures _
    rw [Tracing.handleListDir]
    split
    · exact hpure _
    · split
      · exact hpure _
      · refine Traced.ensures_bind fun ok => ?_
        split
        · exact ensures_stop
        · refine (Traced.ensures_get fun _ _ hrun => wf_of_listLoop hring hrun).bind
            fun list hlist => ?_
          exact Traced.ensures_pure hlist
  | readBlock =>
    show (Tracing.handleReadBlock sb conn).Ensures _
    rw [Tracing.handleReadBlock]
    split
    · exact hpure _
    · split
      · exact hpure _
      · split
        · exact ensures_stop
        · refine Traced.ensures_bind fun canWrite => ?_
          split
          · exact hpure _
          · refine Traced.ensures_bind fun ok => ?_
            split
            · exact ensures_stop
            · refine Traced.ensures_bind fun bytes => ?_
              refine (Traced.ensures_get fun _ _ hrun => wf_of_write hring hrun).bind
                fun write hwrite => ?_
              exact Traced.ensures_pure hwrite
  | writeBlock =>
    show (Tracing.handleWriteBlock sb conn).Ensures _
    rw [Tracing.handleWriteBlock]
    split
    · exact hpure _
    · split
      · exact ensures_stop
      · split
        · exact hpure _
        · refine Traced.ensures_bind fun fsBlock => Traced.ensures_bind fun ok => ?_
          split
          · exact ensures_stop
          · refine (Traced.ensures_get fun _ _ hrun => wf_of_read hring hrun).bind
              fun read hread => ?_
            exact Traced.ensures_bind fun _ => Traced.ensures_bind fun _ =>
              Traced.ensures_pure hread
  | other => exact hpure _

/-- A step keeps the rings, whatever fails. -/
theorem Handles.ringsOk {x y : Server} {ev : Event} (hx : x.RingsOk) (hstep : Handles sb x ev y) :
    y.RingsOk := by
  cases hstep with
  | request hrun =>
    rw [← ext2Server_result, Traced.result_eq_some_iff] at hrun
    exact hx.update (server_ring (hx _) _ _ _ (by rw [hrun])) _
  | write hrun => exact hx.update (wf_of_write (hx _) hrun) _
  | read hrun => exact hx.update (wf_of_read (hx _) hrun) _

/-- The server of a disk on which transfers may fail. -/
def Server.startOn (disk : ℕ → UInt8) (fault : ℕ → Bool) : Server :=
  { Server.start disk with dev := { (Server.start disk).dev with fault := fault } }

/-- **A failing disk.** In a run of the server, whatever fails in it, each request is safe from all
failures, if and only if each one is for information about a node or does not come to a
transfer. -/
theorem failing_disk_iff (sb : Superblock) (disk : ℕ → UInt8) (fault : ℕ → Bool)
    (events : List Event) :
    (∀ pre c stack msg post x, events = pre ++ .request c stack msg :: post →
        Run (Handles sb) (Server.startOn disk fault) pre x →
          SafeFromFailures sb stack x.dev (x.conns c) msg) ↔
      ∀ pre c stack msg post x, events = pre ++ .request c stack msg :: post →
        Run (Handles sb) (Server.startOn disk fault) pre x →
          msg.type = .getNodeInfo ∨ ¬ Touches sb (x.conns c) msg := by
  have hok : ∀ {pre x}, Run (Handles sb) (Server.startOn disk fault) pre x → x.RingsOk :=
    fun hrun => hrun.keeps (Server.start_ok disk).rings fun s ev t => Handles.ringsOk
  constructor
  · exact fun hall pre c stack msg post x heq hrun =>
      (safeFromFailures_iff (hok hrun c)).1 (hall pre c stack msg post x heq hrun)
  · exact fun hall pre c stack msg post x heq hrun =>
      (safeFromFailures_iff (hok hrun c)).2 (hall pre c stack msg post x heq hrun)

/-- A client sets its node on a disk that fails. The descriptors cannot be read, and the request is
completed. -/
theorem setNode_completed : WellFormed mediumSuperblock mediumDisk ∧
    (∃ d conn, Ext2.ext2Server mediumSuperblock (fun _ => 0)
      (Server.startOn mediumDisk fun _ => true).dev
      ((Server.startOn mediumDisk fun _ => true).conns 0) ⟨.setNode, fun _ => 2⟩ =
        some (d, conn, [.completed []])) ∧
    (Tracing.ext2Server mediumSuperblock (fun _ => 0)
      ((Server.startOn mediumDisk fun _ => true).conns 0) ⟨.setNode, fun _ => 2⟩).Fails
        (Server.startOn mediumDisk fun _ => true).dev ∧
    ¬ ErrorOnFailure mediumSuperblock (fun _ => 0) (Server.startOn mediumDisk fun _ => true).dev
      ((Server.startOn mediumDisk fun _ => true).conns 0) ⟨.setNode, fun _ => 2⟩ := by
  have hring := (Server.start_ok mediumDisk).rings 0
  have hdescs : Transferred mediumSuperblock (descStart mediumSuperblock) := by
    constructor <;> decide
  have hfails : (Tracing.ext2Server mediumSuperblock (fun _ => 0)
      ((Server.startOn mediumDisk fun _ => true).conns 0) ⟨.setNode, fun _ => 2⟩).Fails
        (Server.startOn mediumDisk fun _ => true).dev :=
    ((attempts_server hring ⟨.setNode, fun _ => 2⟩).2 hdescs).fails fun _ => rfl
  refine ⟨mediumDisk_wellFormed, ⟨_, _, rfl⟩, hfails, fun herror => ?_⟩
  rcases errorOnFailure_iff.1 herror with htype | hf
  · cases htype
  · exact hf hfails

end C4OS.Ext2
