import C4OS.Ext2.Answers

/-!
# The blocks of a file in the format

Where the format puts the blocks of a file: the first twelve are the direct pointers of its inode,
and those behind them are found through one, two or three levels of tables of pointers. A pointer
that is zero stands for a hole, whose bytes are all zeros (`formatByte`).

`ext2_inode_read_block` follows the direct pointers and one level of tables. For any other block,
and for a hole, it clears the page and returns the null pointer, which its callers do not look for.
`inode_read_block_iff` says when a block is returned with its bytes, and `blockReadable_iff` what
this means for blocks in the first 4 GiB.
-/

namespace C4OS.Ext2

open Foundations

variable {sb : Superblock} {disk : ℕ → UInt8} {d : Device} {e : Inode} {b j : ℕ}

/-! ## The format -/

/-- `double_indirect_ptr`. -/
def Inode.doubleIndirectPtr (e : Inode) : ℕ := readLE 4 e.byte 92

/-- `triple_indirect_ptr`. -/
def Inode.tripleIndirectPtr (e : Inode) : ℕ := readLE 4 e.byte 96

/-- A pointer in a table; all pointers of a hole are zero. -/
def pointerAt (sb : Superblock) (disk : ℕ → UInt8) (table k : ℕ) : ℕ :=
  if table = 0 then 0 else readLE 4 (fun i => disk (blockStart sb table + i)) (4 * k)

/-- The blocks from a table over a number of levels to the block `k` under it: the tables on the
way, and the block at the end. -/
def pointerPath (sb : Superblock) (disk : ℕ → UInt8) : ℕ → ℕ → ℕ → List ℕ
  | 0, b, _ => [b]
  | n + 1, b, k =>
    let span := ext2PointersPerBlock sb ^ n
    b :: pointerPath sb disk n (pointerAt sb disk b (k / span)) (k % span)

/-- The blocks that lead to a block of a file, and this block. -/
def formatPath (sb : Superblock) (disk : ℕ → UInt8) (e : Inode) (j : ℕ) : List ℕ :=
  let p := ext2PointersPerBlock sb
  if j < 12 then [e.directPtr j]
  else if j < p + 12 then pointerPath sb disk 1 e.singleIndirectPtr (j - 12)
  else if j < p ^ 2 + p + 12 then pointerPath sb disk 2 e.doubleIndirectPtr (j - 12 - p)
  else pointerPath sb disk 3 e.tripleIndirectPtr (j - 12 - p - p ^ 2)

/-- The disk block of a block of a file, zero for a hole. -/
def formatMap (sb : Superblock) (disk : ℕ → UInt8) (e : Inode) (j : ℕ) : ℕ :=
  (formatPath sb disk e j).getLastD 0

/-- The bytes of a block of a file. -/
def formatByte (sb : Superblock) (disk : ℕ → UInt8) (e : Inode) (j c : ℕ) : UInt8 :=
  if formatMap sb disk e j = 0 then 0 else disk (blockStart sb (formatMap sb disk e j) + c)

/-- The pointers to the blocks of a file up to its size are holes or lead into the file system. -/
def FileFormed (sb : Superblock) (disk : ℕ → UInt8) (e : Inode) : Prop :=
  ∀ j, j * ext2BlockSize sb < e.lowerSize → ∀ b ∈ formatPath sb disk e j, b ≤ sb.totalBlocks

/-- A file without holes. -/
def FullyMapped (sb : Superblock) (disk : ℕ → UInt8) (e : Inode) : Prop :=
  ∀ j, j * ext2BlockSize sb < e.lowerSize → ∀ b ∈ formatPath sb disk e j,
    0 < b ∧ b ≤ sb.totalBlocks

/-- A file of one block. -/
theorem fullyMapped_of_single (hsize : e.lowerSize ≤ ext2BlockSize sb)
    (hpath : formatPath sb disk e 0 = [b]) (hb : 0 < b ∧ b ≤ sb.totalBlocks) :
    FullyMapped sb disk e := by
  intro j hj b' hb'
  obtain rfl : j = 0 := eq_zero_of_mul_lt hsize hj
  rw [hpath] at hb'
  rwa [List.mem_singleton.1 hb']

theorem formatPath_direct (hj : j < 12) : formatPath sb disk e j = [e.directPtr j] := if_pos hj

theorem formatPath_single (hj : ¬ j < 12) (hlt : j < ext2PointersPerBlock sb + 12) :
    formatPath sb disk e j =
      [e.singleIndirectPtr, pointerAt sb disk e.singleIndirectPtr (j - 12)] := by
  rw [formatPath]
  simp only [if_neg hj, if_pos hlt, pointerPath, pow_zero, Nat.div_one]

/-! ## What is read -/

/-- A block of a file is returned with the bytes that it has in the format. -/
def ReadsBlock (sb : Superblock) (d : Device) (e : Inode) (j : ℕ) : Prop :=
  ∃ d', ext2InodeReadBlock sb d e j = some (d', true) ∧
    ∀ c < ext2BlockSize sb, d'.buffer c = formatByte sb d.disk e j c

/-- The pointers that the code follows lead to a block in the file system, and in the place that
this block is transferred from there are the bytes of the block. -/
structure BlockReadable (sb : Superblock) (disk : ℕ → UInt8) (e : Inode) (j : ℕ) : Prop where
  mapped : Mapped sb disk e j
  bytes : ∀ c < ext2BlockSize sb,
    disk (blockStart sb (deviceBlock sb (fileBlock sb disk e j)) + c) = formatByte sb disk e j c

/-- The code follows the pointers of the format, where these stay in the first 4 GiB. -/
theorem fileBlock_eq (h : sb.blockSize ≤ 2) (hj : j < ext2PointersPerBlock sb + 12)
    (hin : ∀ b ∈ formatPath sb disk e j, b ≤ sb.totalBlocks ∧ Near sb b) :
    fileBlock sb disk e j = formatMap sb disk e j := by
  rw [fileBlock, formatMap]
  by_cases hdirect : j < 12
  · rw [if_pos hdirect, formatPath_direct hdirect]
    rfl
  · rw [formatPath_single hdirect hj] at hin ⊢
    obtain ⟨hle, hnear⟩ := hin e.singleIndirectPtr List.mem_cons_self
    rw [if_neg hdirect]
    show _ = pointerAt sb disk e.singleIndirectPtr (j - 12)
    rw [pointerAt]
    rcases Nat.eq_zero_or_pos e.singleIndirectPtr with hzero | hpos
    · rw [if_neg (by omega), if_pos hzero]
    · rw [if_pos ⟨hj, hpos, hle⟩, if_neg (Nat.ne_of_gt hpos), tableEntry,
        (deviceBlock_eq_iff h).2 hnear]

theorem formatMap_mem (sb : Superblock) (disk : ℕ → UInt8) (e : Inode) (j : ℕ) :
    formatMap sb disk e j ∈ formatPath sb disk e j := by
  have hpath : ∀ n b k, pointerPath sb disk n b k ≠ [] := by
    intro n b k
    cases n <;> exact List.cons_ne_nil _ _
  have hne : formatPath sb disk e j ≠ [] := by
    simp only [formatPath]
    split_ifs
    · exact List.cons_ne_nil _ _
    · exact hpath _ _ _
    · exact hpath _ _ _
    · exact hpath _ _ _
  rw [formatMap, List.getLastD_eq_getLast?, List.getLast?_eq_some_getLast hne]
  exact List.getLast_mem hne

/-- The end of a path is no hole only if none of its tables is. -/
theorem pos_of_formatMap (hj : j < ext2PointersPerBlock sb + 12)
    (hpos : 0 < formatMap sb disk e j) (hb : b ∈ formatPath sb disk e j) : 0 < b := by
  rw [formatMap] at hpos
  by_cases hdirect : j < 12
  · rw [formatPath_direct hdirect] at hpos hb
    rw [List.mem_singleton.1 hb]
    exact hpos
  · rw [formatPath_single hdirect hj] at hpos hb
    have hpos' : 0 < pointerAt sb disk e.singleIndirectPtr (j - 12) := hpos
    rcases List.mem_pair.1 hb with rfl | rfl
    · by_contra hzero
      rw [pointerAt, if_pos (by omega)] at hpos'
      exact Nat.lt_irrefl 0 hpos'
    · exact hpos'

/-- **The blocks in the first 4 GiB** that can be read are those that the direct pointers and the
first table lead to, without a hole on the way. -/
theorem blockReadable_iff (h : sb.blockSize ≤ 2)
    (hin : ∀ b ∈ formatPath sb disk e j, b ≤ sb.totalBlocks ∧ Near sb b) :
    BlockReadable sb disk e j ↔
      j < ext2PointersPerBlock sb + 12 ∧ ∀ b ∈ formatPath sb disk e j, 0 < b := by
  constructor
  · intro hr
    have hj := hr.mapped.lt
    have hpos := hr.mapped.1
    rw [fileBlock_eq h hj hin] at hpos
    exact ⟨hj, fun b => pos_of_formatMap hj hpos⟩
  · rintro ⟨hj, hpos⟩
    have hmap := fileBlock_eq h hj hin
    have hmem := formatMap_mem sb disk e j
    obtain ⟨hle, hnear⟩ := hin _ hmem
    refine ⟨?_, fun c _ => ?_⟩
    · rw [Mapped, hmap]
      exact ⟨hpos _ hmem, hle⟩
    · rw [hmap, (deviceBlock_eq_iff h).2 hnear, formatByte, if_neg (Nat.ne_of_gt (hpos _ hmem))]

/-- **When file block reads follow the mapping of the format.** With a device that works, for every
inode and every block of it. -/
theorem inode_read_block_iff (h : Geometry sb) (hd : d.Working) (e : Inode) (j : ℕ) :
    ReadsBlock sb d e j ↔ BlockReadable sb d.disk e j := by
  have hpage : ∀ c < ext2BlockSize sb, (filePage sb d e j).buffer c =
      d.disk (blockStart sb (deviceBlock sb (fileBlock sb d.disk e j)) + c) :=
    fun c hc => if_pos hc
  constructor
  · rintro ⟨d', hread, hbytes⟩
    have hm : Mapped sb d.disk e j := by
      by_contra hm
      exact ext2InodeReadBlock_not_mapped h hd hm hread
    obtain ⟨d₁, hread₁, -, hbuffer⟩ := ext2InodeReadBlock_mapped h hd hm
    cases hread.symm.trans hread₁
    refine ⟨hm, fun c hc => ?_⟩
    rw [← hpage c hc, ← hbuffer]
    exact hbytes c hc
  · intro hr
    obtain ⟨d', hread, -, hbuffer⟩ := ext2InodeReadBlock_mapped h hd hr.mapped
    refine ⟨d', hread, fun c hc => ?_⟩
    rw [hbuffer, hpage c hc]
    exact hr.bytes c hc

/-- A client of an inode of an image, at an index. -/
def clientAt (sb : Superblock) (disk : ℕ → UInt8) (inode index : ℕ) : ClientState :=
  ⟨⟨inode, FileType.unknown.toNat, 0⟩, inodeRecord sb disk inode, index⟩

/-! ## A file with holes -/

/-- The file of the image `tableDisk`: fourteen blocks, of which the last one is mapped. -/
theorem tableDisk_path : (inodeRecord smallSuperblock tableDisk 1).lowerSize = 14336 ∧
    (∀ j < 14, ∀ b ∈ formatPath smallSuperblock tableDisk (inodeRecord smallSuperblock tableDisk 1)
      j, b ≤ 64) ∧
    formatPath smallSuperblock tableDisk (inodeRecord smallSuperblock tableDisk 1) 13 = [20, 21] ∧
    fileBlock smallSuperblock tableDisk (inodeRecord smallSuperblock tableDisk 1) 0 = 0 := by
  decide +kernel

/-- The last block of the file is read. -/
theorem inode_read_block_iff_table : ReadsBlock smallSuperblock (System.connect tableDisk).dev
    (inodeRecord smallSuperblock tableDisk 1) 13 := by
  have hi := smallSuperblock_inode
  have h := tableDisk_wellFormed.toLaidOut.geometry hi
  refine (inode_read_block_iff h (System.connect_working tableDisk) _ _).2 ?_
  rw [System.connect_disk]
  obtain ⟨-, -, hpath, -⟩ := tableDisk_path
  refine (blockReadable_iff h.blockSize fun b hb => ?_).2 ⟨by decide, fun b hb => ?_⟩
  · rw [hpath] at hb
    rcases List.mem_pair.1 hb with rfl | rfl
    · exact ⟨by decide, by unfold Near; decide⟩
    · exact ⟨by decide, by unfold Near; decide⟩
  · rw [hpath] at hb
    rcases List.mem_pair.1 hb with rfl | rfl <;> decide

/-- A hole is not returned as a block of zeros. -/
theorem inode_read_block_hole : ¬ ∀ (sb : Superblock) (d : Device) (inode j : ℕ),
    WellFormed sb d.disk → d.Working → IsInode sb inode →
    FileFormed sb d.disk (inodeRecord sb d.disk inode) →
    j * ext2BlockSize sb < (inodeRecord sb d.disk inode).lowerSize →
    ReadsBlock sb d (inodeRecord sb d.disk inode) j := by
  intro hall
  have wf := tableDisk_wellFormed.connect
  have hi := smallSuperblock_inode
  have hd := System.connect_working tableDisk
  obtain ⟨hsize, hle, -, hzero⟩ := tableDisk_path
  have hbs : ext2BlockSize smallSuperblock = 1024 := by decide
  have hformed : FileFormed smallSuperblock (System.connect tableDisk).dev.disk
      (inodeRecord smallSuperblock (System.connect tableDisk).dev.disk 1) := by
    rw [System.connect_disk]
    intro j hj
    rw [hsize, hbs] at hj
    exact hle j (by omega)
  have hlt : 0 * ext2BlockSize smallSuperblock <
      (inodeRecord smallSuperblock (System.connect tableDisk).dev.disk 1).lowerSize := by
    rw [System.connect_disk, hsize, Nat.zero_mul]
    decide
  obtain ⟨d', hread, -⟩ := hall smallSuperblock (System.connect tableDisk).dev 1 0 wf hd hi hformed
    hlt
  refine ext2InodeReadBlock_not_mapped (wf.toLaidOut.geometry hi) hd (fun hm => ?_) hread
  have hpos := hm.1
  rw [System.connect_disk, hzero] at hpos
  exact Nat.lt_irrefl 0 hpos

end C4OS.Ext2
