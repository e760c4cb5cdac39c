import C4OS.Ext2.Groups

/-!
# The write request

What `handle_write_block` does with the bytes in the ring: it takes those that go into the block of
the file at the index of the server, and puts them there (`handleWriteBlock_eq`). The block is the
one that `ext2_inode_alloc_block` finds, and the result of this function is not looked at. When
there is no block, it is `0`: the bytes are written to the block `0`, the index is advanced, and the
request is completed (`handleWriteBlock_noBlock`). So no request without a block fails cleanly
(`failed_write_never_clean`).
-/

namespace C4OS.Ext2

open Foundations Ringbuffer

variable {sb : Superblock} {disk : ℕ → UInt8} {d d₁ d' : Device} {conn : Conn} {cli : ClientState}
  {b off : ℕ} {l : List UInt8}

/-! ## Bytes in a block -/

/-- Bytes that are stored in a block and written are on the disk. -/
theorem storeBytes_flush (hoff : off + l.length ≤ ext2BlockSize sb)
    (h : (d.fetch sb b).storeBytes off l = some d') :
    (d'.flush sb b).disk = writeBytes d.disk (blockStart sb b + off) l := by
  unfold Device.storeBytes at h
  split at h
  · cases h
    funext c
    show (if _ then writeBytes (d.fetch sb b).buffer off l (c - blockStart sb b) else d.disk c) = _
    unfold writeBytes
    split
    · next hc =>
      by_cases hin : off ≤ c - blockStart sb b ∧ c - blockStart sb b < off + l.length
      · rw [if_pos hin, if_pos (by omega)]
        congr 1
        omega
      · rw [if_neg hin, if_neg (by omega)]
        show (if _ then d.disk _ else _) = _
        rw [if_pos (by omega)]
        congr 1
        omega
    · next hc => rw [if_neg (by omega)]
  · cases h

/-- The number of bytes that a request takes. -/
def writeSize (sb : Superblock) (i : ℕ) (l : List UInt8) : ℕ :=
  min (ext2BlockSize sb - i % ext2BlockSize sb) l.length

/-- **A write request puts the bytes into the block that is found.** -/
theorem handleWriteBlock_eq (h : sb.blockSize ≤ 2) (hcli : conn.progData = some cli)
    (hring : Holds ringSize conn.ring l) (hne : l ≠ [])
    (halloc : ext2InodeAllocBlock sb d cli.fsnode.inode (cli.index / ext2BlockSize sb) = some (d₁, b))
    (hd : d₁.Working) (hb : b ≤ sb.totalBlocks) (hn : Near sb b) :
    ∃ d' ring', handleWriteBlock sb d conn = some (d', ⟨ring', some { cli with
        index := (cli.index + writeSize sb cli.index l) % wordSize }⟩,
        [.completed [writeSize sb cli.index l]]) ∧
      0 < writeSize sb cli.index l ∧ Holds ringSize ring' (l.drop (writeSize sb cli.index l)) ∧
      d'.Working ∧ d'.disk = writeBytes d₁.disk (blockStart sb b + cli.index % ext2BlockSize sb)
        (l.take (writeSize sb cli.index l)) := by
  have hpos : 0 < ext2BlockSize sb ∧ ext2BlockSize sb ≤ 4096 :=
    ⟨ext2BlockSize_pos h, ext2BlockSize_le h⟩
  have hlt := Nat.mod_lt cli.index hpos.1
  have hlen := List.length_pos_iff.2 hne
  obtain ⟨ring', hread, hring', -⟩ := hring.read (ext2BlockSize sb - cli.index % ext2BlockSize sb)
  have htake : l.take (ext2BlockSize sb - cli.index % ext2BlockSize sb) =
      l.take (writeSize sb cli.index l) := by
    rw [writeSize, ← List.take_eq_take_min]
  have hdrop : l.drop (ext2BlockSize sb - cli.index % ext2BlockSize sb) =
      l.drop (writeSize sb cli.index l) := by
    rw [writeSize, ← List.drop_eq_drop_min]
  have hsize : (l.take (writeSize sb cli.index l)).length = writeSize sb cli.index l :=
    List.length_take_of_le (Nat.min_le_right _ _)
  have hoff : cli.index % ext2BlockSize sb + (l.take (writeSize sb cli.index l)).length ≤
      ext2BlockSize sb := by
    rw [hsize, writeSize]
    omega
  rw [htake] at hread
  rw [hdrop] at hring'
  let d₂ : Device := { d₁.fetch sb b with
    buffer := writeBytes (d₁.fetch sb b).buffer (cli.index % ext2BlockSize sb)
      (l.take (writeSize sb cli.index l)) }
  have hstore : (d₁.fetch sb b).storeBytes (cli.index % ext2BlockSize sb)
      (l.take (writeSize sb cli.index l)) = some d₂ :=
    if_pos (Nat.le_trans hoff hpos.2)
  refine ⟨d₂.flush sb b, ring', ?_, ?_, hring', hd, storeBytes_flush hoff hstore⟩
  · rw [handleWriteBlock, hcli]
    simp only
    rw [if_neg (by omega), hring.empty_eq, if_neg (by simpa using hne)]
    refine run_bind halloc (run_bind (ext2ReadBlock_eq h hd hb hn) ((if_neg (by simp)).trans ?_))
    refine run_bind hread (run_bind hstore (run_bind (ext2WriteBlock_eq h (d := d₂) hd hb hn) ?_))
    rw [hsize]
    rfl
  · rw [writeSize]
    omega

/-! ## A request without a block -/

/-- There are bytes to write, and `ext2_inode_alloc_block` finds no block for them. -/
def NoBlock (sb : Superblock) (d : Device) (conn : Conn) : Prop :=
  ∃ cli d', conn.progData = some cli ∧ c4RingbufEmpty conn.ring = false ∧
    ext2InodeAllocBlock sb d cli.fsnode.inode (cli.index / ext2BlockSize sb) = some (d', 0)

/-- A request fails and touches nothing: the reply is an error, the index of the client stays, and
the blocks that are not parts of the file system are as before. -/
def FailsCleanly (sb : Superblock) (d : Device) (conn : Conn) : Prop :=
  ∃ d' conn' e, handleWriteBlock sb d conn = some (d', conn', [.error e]) ∧
    conn'.progData.map ClientState.index = conn.progData.map ClientState.index ∧
    ∀ b < sb.totalBlocks, (∀ m : Meta, m.Valid sb → m.block sb d.disk ≠ b) →
      ∀ i < ext2BlockSize sb, d'.disk (blockStart sb b + i) = d.disk (blockStart sb b + i)

/-- What a request without a block does: the bytes go to the block zero. -/
theorem handleWriteBlock_noBlock (h : sb.blockSize ≤ 2) (hcli : conn.progData = some cli)
    (hring : Holds ringSize conn.ring l) (hne : l ≠ [])
    (halloc : ext2InodeAllocBlock sb d cli.fsnode.inode (cli.index / ext2BlockSize sb) = some (d₁, 0))
    (hd : d₁.Working) :
    ∃ d' conn', handleWriteBlock sb d conn =
        some (d', conn', [.completed [writeSize sb cli.index l]]) ∧
      0 < writeSize sb cli.index l ∧
      conn'.progData = some { cli with index := (cli.index + writeSize sb cli.index l) % wordSize } ∧
      d'.disk = writeBytes d₁.disk (blockStart sb 0 + cli.index % ext2BlockSize sb)
        (l.take (writeSize sb cli.index l)) := by
  have hnear : Near sb 0 := by
    show 0 * ext2BlockSize sb < 2 ^ 32
    omega
  obtain ⟨d', ring', hrun, hpos, -, -, hdisk⟩ :=
    handleWriteBlock_eq h hcli hring hne halloc hd (Nat.zero_le _) hnear
  exact ⟨d', _, hrun, hpos, rfl, hdisk⟩

/-- The requests of a client are completed, if they return. -/
theorem handleWriteBlock_reply {conn' : Conn} {replies : List Reply} (hcli : conn.progData = some cli)
    (hrun : handleWriteBlock sb d conn = some (d', conn', replies)) :
    ∃ n, replies = [.completed [n]] := by
  rw [handleWriteBlock, hcli] at hrun
  simp only at hrun
  split at hrun
  · cases hrun
  · split at hrun
    · cases hrun
      exact ⟨0, rfl⟩
    · simp only [takeAndWrite, Option.bind_eq_bind, Option.bind_eq_some_iff, Option.pure_def] at hrun
      obtain ⟨⟨d₁, b⟩, -, ⟨d₂, ok⟩, -, hrun⟩ := hrun
      simp only at hrun
      split at hrun
      · cases hrun
      · simp only [Option.bind_eq_some_iff] at hrun
        obtain ⟨⟨ring, bytes⟩, -, d₃, -, ⟨d₄, ok₄⟩, -, hret⟩ := hrun
        cases hret
        exact ⟨bytes.length, rfl⟩

/-- **No request without a block fails cleanly**: the reply is never an error. -/
theorem failed_write_never_clean (hno : NoBlock sb d conn) : ¬ FailsCleanly sb d conn := by
  obtain ⟨cli, d₁, hcli, -, -⟩ := hno
  rintro ⟨d', conn', e, hrun, -⟩
  obtain ⟨n, hreply⟩ := handleWriteBlock_reply hcli hrun
  cases hreply

/-- The state of a client of the file in an image, with the index behind the blocks that the
indirect block has. -/
def largeClient : ClientState :=
  ⟨⟨1, FileType.unknown.toNat, 0⟩, inodeRecord smallSuperblock tableDisk 1, 268 * 1024⟩

theorem exists_noBlock : ∃ conn : Conn, conn.progData = some largeClient ∧
    Holds ringSize conn.ring [0x61] ∧
      NoBlock smallSuperblock (System.connect tableDisk).dev conn := by
  have hroom : ([] : List UInt8).length + ([0x61] : List UInt8).length < ringSize := by decide
  obtain ⟨ring, -, hring, -⟩ := (System.connect_holds tableDisk).write hroom
  rw [List.nil_append] at hring
  refine ⟨⟨ring, some largeClient⟩, rfl, hring, largeClient, ?_⟩
  have hzero : (ext2InodeAllocBlock smallSuperblock (System.connect tableDisk).dev 1
      (268 * 1024 / ext2BlockSize smallSuperblock)).map Prod.snd = some 0 := by
    decide +kernel
  obtain ⟨⟨d', b⟩, halloc, rfl⟩ := Option.map_eq_some_iff.1 hzero
  exact ⟨d', rfl, hring.empty_eq.trans (decide_eq_false (by simp)), halloc⟩

theorem failed_write_never_clean_large : ∃ conn : Conn,
    conn.progData = some largeClient ∧ Holds ringSize conn.ring [0x61] ∧
      ¬ FailsCleanly smallSuperblock (System.connect tableDisk).dev conn := by
  obtain ⟨conn, hcli, hring, hno⟩ := exists_noBlock
  exact ⟨conn, hcli, hring, failed_write_never_clean hno⟩

/-- The byte behind the blocks that the indirect block has is written to the block zero. -/
theorem large_write_not_clean : ¬ ∀ (sb : Superblock) (d : Device) (conn : Conn),
    WellFormed sb d.disk → NoBlock sb d conn → FailsCleanly sb d conn := by
  intro h
  obtain ⟨conn, hcli, hring, hno⟩ := exists_noBlock
  have wf := tableDisk_wellFormed.connect
  obtain ⟨d', conn', e, hrun, -⟩ := h _ _ conn wf hno
  obtain ⟨n, hreply⟩ := handleWriteBlock_reply hcli hrun
  cases hreply

end C4OS.Ext2
