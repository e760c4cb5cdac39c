import C4OS.Ext2.Image

/-!
# Block groups

What a well-formed image is. The blocks behind the superblock are in groups, each with a descriptor
in the table behind the superblock: it says where the bitmaps of the group and its part of the inode
table are, and how many of its blocks are free. The blocks of all these structures are given by
`Meta.block`. `LaidOut` says that they are distinct, and `WellFormed` that they are in use, that a
bitmap has ones behind the last block of its group, and that the counters are right. The inodes are
found with `inodeRecord`, and the blocks of their files with `mapping`.
-/

namespace C4OS.Ext2

open Foundations

variable {sb : Superblock} {disk : ℕ → UInt8}

/-- `superblock_block`, the block with the superblock, which is 1024 bytes behind the start. -/
def superblockBlock (sb : Superblock) : ℕ := 1024 / ext2BlockSize sb

/-- The number of block groups, the last of which may be smaller. -/
def groupCount (sb : Superblock) : ℕ :=
  (sb.totalBlocks - superblockBlock sb + (sb.blocksPerGroup - 1)) / sb.blocksPerGroup

/-- The number of blocks in a group. -/
def groupBlocks (sb : Superblock) (g : ℕ) : ℕ :=
  min sb.blocksPerGroup (sb.totalBlocks - superblockBlock sb - g * sb.blocksPerGroup)

/-- The position of the descriptor of a group. -/
def descPos (sb : Superblock) (g : ℕ) : ℕ := blockStart sb (descStart sb) + g * descSize

/-- `block_map` of a group. -/
def blockMap (sb : Superblock) (disk : ℕ → UInt8) (g : ℕ) : ℕ := readLE 4 disk (descPos sb g)

/-- `inode_map` of a group. -/
def inodeMap (sb : Superblock) (disk : ℕ → UInt8) (g : ℕ) : ℕ := readLE 4 disk (descPos sb g + 4)

/-- `inode_table` of a group. -/
def inodeTable (sb : Superblock) (disk : ℕ → UInt8) (g : ℕ) : ℕ :=
  readLE 4 disk (descPos sb g + 8)

/-- `unalloced_blocks` of a group. -/
def unallocedBlocks (sb : Superblock) (disk : ℕ → UInt8) (g : ℕ) : ℕ :=
  readLE 2 disk (descPos sb g + 12)

/-- A bit of a block. -/
def bit (sb : Superblock) (disk : ℕ → UInt8) (block n : ℕ) : Bool :=
  bitAt disk (blockStart sb block) n

/-- The bit of a block in the bitmap of its group. -/
def blockBit (sb : Superblock) (disk : ℕ → UInt8) (b : ℕ) : Bool :=
  bit sb disk (blockMap sb disk ((b - superblockBlock sb) / sb.blocksPerGroup))
    ((b - superblockBlock sb) % sb.blocksPerGroup)

/-! ## The blocks of the file system itself -/

/-- The parts of the file system that are in blocks. -/
inductive Meta
  | desc (k : ℕ)
  | blockMap (g : ℕ)
  | inodeMap (g : ℕ)
  | inodeTable (g k : ℕ)
  deriving DecidableEq

/-- The parts that an image has. -/
def Meta.Valid (sb : Superblock) : Meta → Prop
  | .desc k => k * ext2BlockSize sb < groupCount sb * descSize
  | .blockMap g => g < groupCount sb
  | .inodeMap g => g < groupCount sb
  | .inodeTable g k => g < groupCount sb ∧ k * ext2BlockSize sb < sb.inodesPerGroup * sb.inodeSize

/-- The block of a part. -/
def Meta.block (sb : Superblock) (disk : ℕ → UInt8) : Meta → ℕ
  | .desc k => descStart sb + k
  | .blockMap g => Ext2.blockMap sb disk g
  | .inodeMap g => Ext2.inodeMap sb disk g
  | .inodeTable g k => Ext2.inodeTable sb disk g + k

/-! ## Inodes -/

/-- The position of the record of an inode. -/
def inodePos (sb : Superblock) (disk : ℕ → UInt8) (inode : ℕ) : ℕ :=
  let index := (inode - 1) % sb.inodesPerGroup
  let perBlock := ext2BlockSize sb / sb.inodeSize
  blockStart sb (inodeTable sb disk ((inode - 1) / sb.inodesPerGroup) + index / perBlock) +
    index % perBlock * sb.inodeSize

/-- The record of an inode. -/
def inodeRecord (sb : Superblock) (disk : ℕ → UInt8) (inode : ℕ) : Inode :=
  ⟨fun i => disk (inodePos sb disk inode + i)⟩

/-- The disk block of a block of a file, zero when there is none. -/
def mapping (sb : Superblock) (disk : ℕ → UInt8) (inode j : ℕ) : ℕ :=
  if 12 ≤ j ∧ (inodeRecord sb disk inode).singleIndirectPtr = 0 then 0
  else fileMap sb disk (inodeRecord sb disk inode) j

/-- The numbers of inodes. -/
def IsInode (sb : Superblock) (inode : ℕ) : Prop := 0 < inode ∧ inode ≤ sb.totalInodes

/-! ## Well-formed images -/

/-- The parts of an image are in different blocks of it. -/
structure LaidOut (sb : Superblock) (disk : ℕ → UInt8) : Prop where
  blockSize : sb.blockSize ≤ 2
  totalBlocks : sb.totalBlocks < wordSize
  perGroup : 0 < sb.blocksPerGroup ∧ sb.blocksPerGroup ≤ 8 * ext2BlockSize sb ∧
    8 ∣ sb.blocksPerGroup
  inodesPerGroup : 0 < sb.inodesPerGroup ∧ sb.inodesPerGroup ≤ 8 * ext2BlockSize sb
  inodeSize : 128 ≤ sb.inodeSize ∧ sb.inodeSize ∣ ext2BlockSize sb
  totalInodes : sb.totalInodes = groupCount sb * sb.inodesPerGroup ∧ sb.totalInodes < wordSize
  inside : ∀ m : Meta, m.Valid sb →
    superblockBlock sb < m.block sb disk ∧ m.block sb disk < sb.totalBlocks
  distinct : ∀ m m' : Meta, m.Valid sb → m'.Valid sb → m.block sb disk = m'.block sb disk → m = m'

/-- An image of a file system. -/
structure WellFormed (sb : Superblock) (disk : ℕ → UInt8) : Prop extends LaidOut sb disk where
  used : ∀ m : Meta, m.Valid sb → blockBit sb disk (m.block sb disk) = true
  superblock_used : blockBit sb disk (superblockBlock sb) = true
  padding : ∀ g < groupCount sb, ∀ n, groupBlocks sb g ≤ n → n < 8 * ext2BlockSize sb →
    bit sb disk (blockMap sb disk g) n = true
  counters : ∀ g < groupCount sb, unallocedBlocks sb disk g =
    ((List.range (groupBlocks sb g)).filter fun n => !bit sb disk (blockMap sb disk g) n).length
  indirect : ∀ inode, IsInode sb inode → (inodeRecord sb disk inode).singleIndirectPtr ≠ 0 →
    superblockBlock sb < (inodeRecord sb disk inode).singleIndirectPtr ∧
    (inodeRecord sb disk inode).singleIndirectPtr < sb.totalBlocks ∧
    ∀ m : Meta, m.Valid sb → m.block sb disk ≠ (inodeRecord sb disk inode).singleIndirectPtr

/-! ## Images with one group -/

/-- The parts of an image with one group, each in one block. -/
theorem Meta.of_single (hcount : groupCount sb = 1) (hdesc : descSize ≤ ext2BlockSize sb)
    (htable : sb.inodesPerGroup * sb.inodeSize ≤ ext2BlockSize sb) {m : Meta} (h : m.Valid sb) :
    m = .desc 0 ∨ m = .blockMap 0 ∨ m = .inodeMap 0 ∨ m = .inodeTable 0 0 := by
  cases m with
  | desc k =>
    have hk : k * ext2BlockSize sb < 1 * descSize := hcount ▸ h
    rw [eq_zero_of_mul_lt (by omega) hk]
    exact .inl rfl
  | blockMap g =>
    have hg : g < 1 := hcount ▸ h
    obtain rfl : g = 0 := by omega
    exact .inr (.inl rfl)
  | inodeMap g =>
    have hg : g < 1 := hcount ▸ h
    obtain rfl : g = 0 := by omega
    exact .inr (.inr (.inl rfl))
  | inodeTable g k =>
    obtain ⟨hg, hk⟩ := h
    rw [hcount] at hg
    obtain rfl : g = 0 := by omega
    rw [eq_zero_of_mul_lt htable hk]
    exact .inr (.inr (.inr rfl))

/-- The four blocks of such an image, all of them distinct and in use. -/
theorem WellFormed.of_single {b₁ b₂ b₃ b₄ : ℕ} (hcount : groupCount sb = 1)
    (hdesc : descSize ≤ ext2BlockSize sb)
    (htable : sb.inodesPerGroup * sb.inodeSize ≤ ext2BlockSize sb)
    (hblocks : [Meta.desc 0, .blockMap 0, .inodeMap 0, .inodeTable 0 0].map
      (Meta.block sb disk) = [b₁, b₂, b₃, b₄])
    (hnodup : [b₁, b₂, b₃, b₄].Nodup)
    (hinside : ∀ b ∈ [b₁, b₂, b₃, b₄], superblockBlock sb < b ∧ b < sb.totalBlocks)
    (hused : ∀ b ∈ [superblockBlock sb, b₁, b₂, b₃, b₄], blockBit sb disk b = true)
    (hsb : sb.blockSize ≤ 2 ∧ sb.totalBlocks < wordSize)
    (hgroup : 0 < sb.blocksPerGroup ∧ sb.blocksPerGroup ≤ 8 * ext2BlockSize sb ∧
      8 ∣ sb.blocksPerGroup)
    (hinodes : 0 < sb.inodesPerGroup ∧ sb.inodesPerGroup ≤ 8 * ext2BlockSize sb)
    (hsize : 128 ≤ sb.inodeSize ∧ sb.inodeSize ∣ ext2BlockSize sb)
    (htotal : sb.totalInodes = 1 * sb.inodesPerGroup ∧ sb.totalInodes < wordSize)
    (hpadding : ∀ n, groupBlocks sb 0 ≤ n → n < 8 * ext2BlockSize sb → bit sb disk b₂ n = true)
    (hcounter : unallocedBlocks sb disk 0 =
      ((List.range (groupBlocks sb 0)).filter fun n => !bit sb disk b₂ n).length)
    (hindirect : ∀ inode, inode ≤ sb.totalInodes →
      (inodeRecord sb disk inode).singleIndirectPtr = 0 ∨
        superblockBlock sb < (inodeRecord sb disk inode).singleIndirectPtr ∧
        (inodeRecord sb disk inode).singleIndirectPtr < sb.totalBlocks ∧
        (inodeRecord sb disk inode).singleIndirectPtr ∉ [b₁, b₂, b₃, b₄]) :
    WellFormed sb disk := by
  simp only [List.map_cons, List.map_nil, List.cons.injEq, and_true] at hblocks
  obtain ⟨h₁, h₂, h₃, h₄⟩ := hblocks
  have hmem : ∀ {m : Meta}, m.Valid sb → m.block sb disk ∈ [b₁, b₂, b₃, b₄] := by
    intro m hm
    rcases Meta.of_single hcount hdesc htable hm with rfl | rfl | rfl | rfl
    · simp [h₁]
    · simp [h₂]
    · simp [h₃]
    · simp [h₄]
  simp only [List.nodup_cons, List.mem_cons, List.not_mem_nil, or_false, not_or] at hnodup
  refine ⟨⟨hsb.1, hsb.2, hgroup, hinodes, hsize, hcount.symm ▸ htotal,
    fun m hm => hinside _ (hmem hm), fun m m' hm hm' he => ?_⟩,
    fun m hm => hused _ (List.mem_cons_of_mem _ (hmem hm)), hused _ List.mem_cons_self,
    fun g hg => ?_, fun g hg => ?_, fun inode hi hne => ?_⟩
  · rcases Meta.of_single hcount hdesc htable hm with rfl | rfl | rfl | rfl
    all_goals rcases Meta.of_single hcount hdesc htable hm' with rfl | rfl | rfl | rfl
    all_goals simp only [h₁, h₂, h₃, h₄] at he
    all_goals first | rfl | omega
  · obtain rfl : g = 0 := by omega
    rw [show blockMap sb disk 0 = b₂ from h₂]
    exact hpadding
  · obtain rfl : g = 0 := by omega
    rw [show blockMap sb disk 0 = b₂ from h₂]
    exact hcounter
  · obtain ⟨hlo, hhi, hnot⟩ := (hindirect inode hi.2).resolve_left hne
    exact ⟨hlo, hhi, fun m hm he => hnot (he ▸ hmem hm)⟩

/-- The bits of bytes that are all ones. -/
theorem bit_of_bytes {b o k n : ℕ} (h : ∀ i < k, disk (blockStart sb b + o + i) = 255)
    (hn : 8 * o ≤ n) (hn' : n < 8 * (o + k)) : bit sb disk b n = true := by
  have hbits : ∀ j < 8, Nat.testBit 255 j = true := by decide
  have hbyte := h (n / 8 - o) (by omega)
  have hpos : blockStart sb b + o + (n / 8 - o) = blockStart sb b + n / 8 := by omega
  rw [bit, bitAt, ← hpos, hbyte]
  exact hbits _ (Nat.mod_lt _ (by decide))

/-- The bytes of a number with ones only, at the head of an image. -/
theorem image_ones {b o k i : ℕ} {numbers : List (ℕ × ℕ × ℕ × ℕ)}
    (h : blockStart sb b = ext2BlockToSector sb b * 512) (hi : i < k) :
    image sb ((b, o, k, 256 ^ k - 1) :: numbers) (blockStart sb b + o + i) = 255 := by
  rw [h]
  exact writeLE_ones hi

/-- An image with the superblock `smallSuperblock` and its parts in the blocks from 2 on. -/
theorem WellFormed.of_small
    (hblocks : [Meta.desc 0, .blockMap 0, .inodeMap 0, .inodeTable 0 0].map
      (Meta.block smallSuperblock disk) = [2, 3, 4, 5])
    (hused : ∀ b ∈ [1, 2, 3, 4, 5], blockBit smallSuperblock disk b = true)
    (hlast : bit smallSuperblock disk 3 63 = true)
    (hones : ∀ i < 1016, disk (blockStart smallSuperblock 3 + 8 + i) = 255)
    (hcounter : unallocedBlocks smallSuperblock disk 0 =
      ((List.range (groupBlocks smallSuperblock 0)).filter fun n =>
        !bit smallSuperblock disk 3 n).length)
    (hindirect : ∀ inode, inode ≤ smallSuperblock.totalInodes →
      (inodeRecord smallSuperblock disk inode).singleIndirectPtr = 0 ∨
        superblockBlock smallSuperblock <
          (inodeRecord smallSuperblock disk inode).singleIndirectPtr ∧
        (inodeRecord smallSuperblock disk inode).singleIndirectPtr < smallSuperblock.totalBlocks ∧
        (inodeRecord smallSuperblock disk inode).singleIndirectPtr ∉ [2, 3, 4, 5]) :
    WellFormed smallSuperblock disk := by
  refine .of_single (by decide) (by decide) (by decide) hblocks (by decide) (by decide) hused
    (by decide) (by decide) (by decide) (by decide) (by decide) (fun n h h' => ?_) hcounter hindirect
  have hn : 63 ≤ n := h
  have hn' : n < 8192 := h'
  rcases Nat.eq_or_lt_of_le hn with rfl | hlt
  · exact hlast
  · exact bit_of_bytes hones (by omega) (by omega)

/-- A disk that was just connected. -/
theorem WellFormed.connect (wf : WellFormed sb disk) :
    WellFormed sb (System.connect disk).dev.disk := wf

/-- An image with a file, inode 1, whose block 13 is the block 21, by the table in the block 20. -/
def tableDisk : ℕ → UInt8 :=
  image smallSuperblock
    [(3, 8, 1016, 256 ^ 1016 - 1), (2, 0, 4, 3), (2, 4, 4, 4), (2, 8, 4, 5), (2, 12, 2, 56),
      (3, 0, 8, 0x800000000018001f), (5, 0, 2, 0x81a4), (5, 4, 4, 14336), (5, 88, 4, 20),
      (20, 4, 4, 21)]

theorem tableDisk_wellFormed : WellFormed smallSuperblock tableDisk :=
  .of_small (by decide +kernel) (by decide +kernel) (by decide +kernel)
    (fun i hi => by rw [tableDisk, image_ones (by decide) hi]) (by decide +kernel)
    (by decide +kernel)

theorem smallSuperblock_inode : IsInode smallSuperblock 1 := ⟨by decide, by decide⟩

end C4OS.Ext2
