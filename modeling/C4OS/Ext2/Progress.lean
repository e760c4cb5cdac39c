import C4OS.Ext2.Mapping
import C4OS.Ext2.Responses

/-!
# Reading makes progress

When a request for bytes is answered with at least one byte. The server sends what is left of the
file, a block at most, in one piece, so that there has to be room for all of it in the ring, next to
the byte that stays free, and it takes the piece out of the page from the offset of the index on. A
page-sized ring has room for 4083 bytes: a block of 1024 or 2048 bytes always fits
(`readFits_iff_mapped`), but one of 4096 bytes does not, and a file that begins with it is not read
at all (`not_readFits_start`).
-/

namespace C4OS.Ext2

open Foundations Ringbuffer

variable {sb : Superblock} {d : Device} {conn : Conn} {cli : ClientState}

/-- A request for bytes is answered with at least one byte. -/
def Progresses (sb : Superblock) (d : Device) (conn : Conn) : Prop :=
  ∃ d' conn' sent, handleReadBlock sb d conn = some (d', conn', [.completed [sent]]) ∧ 0 < sent

/-- The bytes that a request sends fit into the ring, they are in the page, and the block that they
are in is there. -/
structure ReadFits (sb : Superblock) (d : Device) (cli : ClientState) : Prop where
  room : readSize sb cli < ringSize
  page : cli.index % ext2BlockSize sb + readSize sb cli ≤ pageSize
  mapped : Mapped sb d.disk cli.e2node (cli.index / ext2BlockSize sb)

theorem readSize_pos (h : Geometry sb) (hlt : cli.index < cli.e2node.lowerSize) :
    0 < readSize sb cli := by
  have hpos := h.blockSize_le.1
  exact Nat.lt_min.2 ⟨by omega, by omega⟩

section

variable (h : Geometry sb) (hd : d.Working) (hring : Holds ringSize conn.ring [])
  (hcli : conn.progData = some cli) (hlt : cli.index < cli.e2node.lowerSize)

include h hd hring hcli hlt

theorem readFits_of_progresses (hp : Progresses sb d conn) : ReadFits sb d cli := by
  obtain ⟨d', conn', sent, hsent, -⟩ := hp
  have hcan := hring.canWrite_nil (readSize sb cli)
  have hroom : readSize sb cli < ringSize := by
    by_contra hfull
    rw [decide_eq_false hfull] at hcan
    have herror : readAndSend sb d conn cli (readSize sb cli) =
        some (d, conn, [.error .queueFull]) := run_bind hcan (if_pos rfl)
    cases ((handleReadBlock_send h hcli hlt).trans herror).symm.trans hsent
  rw [decide_eq_true hroom] at hcan
  obtain ⟨hm, hpage⟩ := readAnswerable_of_run h hd hsent cli hcli hlt hcan
  exact ⟨hroom, hpage, hm⟩

theorem ReadFits.progresses (hf : ReadFits sb d cli) : Progresses sb d conn := by
  have hcan := hring.canWrite_nil (readSize sb cli)
  rw [decide_eq_true hf.room] at hcan
  obtain ⟨d', bytes, -, hlen, hsend⟩ := readAndSend_mapped h hd hcan hf.mapped hf.page
  have hfit : ([] : List UInt8).length + bytes.length < ringSize := by
    rw [List.length_nil, Nat.zero_add, hlen]
    exact hf.room
  obtain ⟨ring', hwrite, -⟩ := hring.write hfit
  refine ⟨d', _, bytes.length, (handleReadBlock_send h hcli hlt).trans (hsend _ _ hwrite), ?_⟩
  rw [hlen]
  exact readSize_pos h hlt

/-- **When reading makes progress.** With a device that works and an empty ring, for every file and
every index of the client below its size. -/
theorem read_progress_iff : Progresses sb d conn ↔ ReadFits sb d cli :=
  ⟨readFits_of_progresses h hd hring hcli hlt, ReadFits.progresses h hd hring hcli hlt⟩

end

/-- Blocks of 1024 or 2048 bytes always fit. -/
theorem readFits_iff_mapped (h : sb.blockSize ≤ 1) :
    ReadFits sb d cli ↔ Mapped sb d.disk cli.e2node (cli.index / ext2BlockSize sb) := by
  have hhalf := ext2BlockSize_le_half h
  have hmin : readSize sb cli ≤ ext2BlockSize sb := Nat.min_le_right _ _
  have hmod := Nat.mod_lt cli.index (ext2BlockSize_pos (Nat.le_succ_of_le h))
  refine ⟨ReadFits.mapped, fun hm => ⟨?_, ?_, hm⟩⟩
  · show _ < 4084
    omega
  · show _ ≤ 4096
    omega

/-- A file that begins with a whole block of 4096 bytes is not read. -/
theorem not_readFits_start (h : sb.blockSize = 2) (hindex : cli.index = 0)
    (hsize : 4084 ≤ cli.e2node.lowerSize) : ¬ ReadFits sb d cli := by
  intro hfits
  have hbs : ext2BlockSize sb = 4096 := by
    rw [ext2BlockSize, h]
    decide
  have hroom : min (cli.e2node.lowerSize - cli.index) (ext2BlockSize sb) < 4084 := hfits.room
  rw [hbs, hindex] at hroom
  omega

/-! ## Two files -/

/-- The superblock of an image with blocks of 4096 bytes. -/
def pageSuperblock : Superblock := ⟨8, 64, 2, 64, 8, 128⟩

/-- An image with a file, inode 1, whose one block is the block 5. -/
def pageDisk : ℕ → UInt8 :=
  image pageSuperblock
    [(2, 8, 4088, 256 ^ 4088 - 1), (1, 0, 4, 2), (1, 4, 4, 3), (1, 8, 4, 4), (1, 12, 2, 58),
      (2, 0, 8, 0x3f), (4, 0, 2, 0x81a4), (4, 4, 4, 4096), (4, 40, 4, 5)]

theorem pageDisk_wellFormed : WellFormed pageSuperblock pageDisk := by
  have hblocks : [Meta.desc 0, .blockMap 0, .inodeMap 0, .inodeTable 0 0].map
      (Meta.block pageSuperblock pageDisk) = [1, 2, 3, 4] := by
    decide +kernel
  refine .of_single (by decide) (by decide) (by decide) hblocks (by decide) (by decide)
    (by decide +kernel) (by decide) (by decide) (by decide) (by decide) (by decide)
    (fun n h h' => ?_) (by decide +kernel) (by decide +kernel)
  have hbytes : ∀ i < 4088, pageDisk (blockStart pageSuperblock 2 + 8 + i) = 255 := by
    intro i hi
    rw [pageDisk, image_ones (by decide) hi]
  exact bit_of_bytes hbytes h h'

theorem pageDisk_file : (inodeRecord pageSuperblock pageDisk 1).lowerSize = 4096 ∧
    formatPath pageSuperblock pageDisk (inodeRecord pageSuperblock pageDisk 1) 0 = [5] := by
  decide +kernel

/-- The connection of a client of the inode 1, after the disk was connected. -/
def connAt (sb : Superblock) (disk : ℕ → UInt8) (index : ℕ) : Conn :=
  { (System.connect disk).conn with progData := some (clientAt sb disk 1 index) }

/-- The last block of the file of `tableDisk` is sent. -/
theorem read_progress_iff_table : Progresses smallSuperblock (System.connect tableDisk).dev
    (connAt smallSuperblock tableDisk 13312) := by
  have hi := smallSuperblock_inode
  have h := tableDisk_wellFormed.toLaidOut.geometry hi
  have hblock : fileBlock smallSuperblock tableDisk
      (inodeRecord smallSuperblock tableDisk 1) 13 = 21 := by
    decide +kernel
  have hm : Mapped smallSuperblock tableDisk (inodeRecord smallSuperblock tableDisk 1)
      (13312 / ext2BlockSize smallSuperblock) := by
    have hdiv : 13312 / ext2BlockSize smallSuperblock = 13 := by decide
    rw [hdiv, Mapped, hblock]
    decide
  have hlt : 13312 < (inodeRecord smallSuperblock tableDisk 1).lowerSize := by
    rw [tableDisk_path.1]
    decide
  have hfits : ReadFits smallSuperblock (System.connect tableDisk).dev
      (clientAt smallSuperblock tableDisk 1 13312) := by
    rw [readFits_iff_mapped (by decide), System.connect_disk]
    exact hm
  have hring : Holds ringSize (connAt smallSuperblock tableDisk 13312).ring [] :=
    System.connect_holds tableDisk
  exact (read_progress_iff h (System.connect_working tableDisk) hring rfl hlt).2 hfits

/-- The request for a file of one block of 4096 bytes is answered with `FS_ERROR_QUEUE_FULL`. -/
theorem read_progress_full : ¬ ∀ (sb : Superblock) (d : Device) (conn : Conn) (cli : ClientState)
    (inode : ℕ), WellFormed sb d.disk → d.Working → IsInode sb inode →
    cli.e2node = inodeRecord sb d.disk inode → FullyMapped sb d.disk cli.e2node →
    cli.index < cli.e2node.lowerSize → Holds ringSize conn.ring [] → conn.progData = some cli →
    Progresses sb d conn := by
  intro hall
  have wf := pageDisk_wellFormed.connect
  have hi : IsInode pageSuperblock 1 := by unfold IsInode; decide
  have hd := System.connect_working pageDisk
  have hring : Holds ringSize (connAt pageSuperblock pageDisk 0).ring [] :=
    System.connect_holds pageDisk
  have he : (clientAt pageSuperblock pageDisk 1 0).e2node =
      inodeRecord pageSuperblock (System.connect pageDisk).dev.disk 1 := by
    rw [System.connect_disk]
    rfl
  have hfull : FullyMapped pageSuperblock (System.connect pageDisk).dev.disk
      (clientAt pageSuperblock pageDisk 1 0).e2node := by
    rw [he, System.connect_disk]
    exact fullyMapped_of_single pageDisk_file.1.le pageDisk_file.2 (by decide)
  have hsize := pageDisk_file.1
  have hlt : 0 < (inodeRecord pageSuperblock pageDisk 1).lowerSize := by omega
  have hle : 4084 ≤ (inodeRecord pageSuperblock pageDisk 1).lowerSize := by omega
  have hcli : (connAt pageSuperblock pageDisk 0).progData =
      some (clientAt pageSuperblock pageDisk 1 0) := rfl
  have hprogress := hall pageSuperblock (System.connect pageDisk).dev
    (connAt pageSuperblock pageDisk 0) (clientAt pageSuperblock pageDisk 1 0) 1 wf hd hi he
    hfull hlt hring hcli
  have hfits := readFits_of_progresses (wf.toLaidOut.geometry hi) hd hring hcli hlt hprogress
  have hnot : ¬ ReadFits pageSuperblock (System.connect pageDisk).dev
      (clientAt pageSuperblock pageDisk 1 0) := not_readFits_start rfl rfl hle
  exact hnot hfits

end C4OS.Ext2
