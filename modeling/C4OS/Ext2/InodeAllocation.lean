import C4OS.Ext2.Updates

/-!
# Allocation of inodes

When `ext2_alloc_inode` agrees with the bitmaps of the inodes. The bit `n` of the bitmap of a group
stands for the inode with the index `n` in the group, and the inodes are counted from `1` on: the
inode of the bit `n` of the group `g` is `g * inodes_per_group + n + 1`. The function returns a
number without the one, and the words of the bitmap are looked at by the numbers of their first
bits, so that the bit that is set is never that of the inode that is returned (`bit_ne`).

`ext2_alloc_inode_iff` says that an allocation is right only where none is made: the scan finds no
zero, or the number of the bit is zero, which is taken as a failure.
-/

namespace C4OS.Ext2

open Foundations

variable {sb : Superblock} {disk : ℕ → UInt8} {d d' : Device} {g b base j word k n : ℕ}

/-! ## The functions -/

/-- `ext2_inode_init`: the record is cleared but for `modes`. -/
def ext2InodeInit (sb : Superblock) (d : Device) (inode modes : ℕ) : Option (Device × ℕ) :=
  if inode = 0 then some (d, 0)
  else ext2InodeUpdate sb d inode ⟨writeLE 2 (fun _ => 0) 0 modes⟩

/-- `ext2_alloc_inode_type`. -/
def ext2AllocInodeType (sb : Superblock) (d : Device) (desc type : ℕ) : Option (Device × ℕ) := do
  let (d, temp) ← ext2AllocInode sb d desc
  if temp = 0 then
    return (d, temp)
  else
    -- the argument has 16 bits
    let (d, _) ← ext2InodeInit sb d temp ((type * 2 ^ 12 ||| 0o777) % 2 ^ 16)
    return (d, temp)

/-! ## What an allocation is for -/

/-- `unalloced_inodes` of a group. -/
def unallocedInodes (sb : Superblock) (disk : ℕ → UInt8) (g : ℕ) : ℕ :=
  readLE 2 disk (descPos sb g + 14)

/-- The index of an inode in its group. -/
def inodeIndex (sb : Superblock) (inode : ℕ) : ℕ := (inode - 1) % sb.inodesPerGroup

/-- The bit of an inode in the bitmap of its group. -/
def inodeBit (sb : Superblock) (disk : ℕ → UInt8) (inode : ℕ) : Bool :=
  bit sb disk (inodeMap sb disk (inodeGroup sb inode)) (inodeIndex sb inode)

/-- The bitmaps of the inodes of an image: they are of whole bytes, there are ones behind the last
inode of a group, and the counters are right. -/
structure InodesFormed (sb : Superblock) (disk : ℕ → UInt8) : Prop extends WellFormed sb disk where
  bytes : 8 ∣ sb.inodesPerGroup
  inodePadding : ∀ g < groupCount sb, ∀ n, sb.inodesPerGroup ≤ n → n < 8 * ext2BlockSize sb →
    bit sb disk (inodeMap sb disk g) n = true
  inodeCounters : ∀ g < groupCount sb, unallocedInodes sb disk g =
    ((List.range sb.inodesPerGroup).filter fun n => !bit sb disk (inodeMap sb disk g) n).length

/-- An inode was free and is allocated: its bit is set, the other bits of the bitmaps are as before,
and there is one free inode less in the group. -/
structure InodeAgrees (sb : Superblock) (disk disk' : ℕ → UInt8) (g inode : ℕ) : Prop where
  isInode : IsInode sb inode
  free : inodeBit sb disk inode = false
  set : inodeBit sb disk' inode = true
  maps : ∀ g' < groupCount sb, blockMap sb disk' g' = blockMap sb disk g' ∧
    inodeMap sb disk' g' = inodeMap sb disk g'
  inodeBits : ∀ g' < groupCount sb, ∀ n < 8 * ext2BlockSize sb,
    ¬ (g' = inodeGroup sb inode ∧ n = inodeIndex sb inode) →
      bit sb disk' (inodeMap sb disk' g') n = bit sb disk (inodeMap sb disk g') n
  blockBits : ∀ g' < groupCount sb, ∀ n < 8 * ext2BlockSize sb,
    bit sb disk' (blockMap sb disk' g') n = bit sb disk (blockMap sb disk g') n
  counter : unallocedInodes sb disk' g + 1 = unallocedInodes sb disk g

/-- The inode that `ext2_alloc_inode` returns is allocated, and `ext2_alloc_inode_type` leaves the
records of all the inodes alone that were allocated before. -/
def AllocInodeRight (sb : Superblock) (d : Device) (g : ℕ) : Prop :=
  ∀ d' inode, ext2AllocInode sb d g = some (d', inode) → inode ≠ 0 →
    InodeAgrees sb d.disk d'.disk g inode ∧
    ∀ type, ∃ d'', ext2AllocInodeType sb d g type = some (d'', inode) ∧
      ∀ inode', IsInode sb inode' → inodeBit sb d.disk inode' = true → ∀ i < sb.inodeSize,
        d''.disk (inodePos sb d.disk inode' + i) = d.disk (inodePos sb d.disk inode' + i)

/-- The number that is returned for a bit that the scan finds. -/
def inodeNumber (sb : Superblock) (g j k : ℕ) : ℕ := (g * sb.inodesPerGroup + (j + k)) % wordSize

/-- The scan finds no zero in the bitmap of a group, or the number of the zero that it finds is
zero. -/
def NoInode (sb : Superblock) (d : Device) (g : ℕ) : Prop :=
  ∀ base j word k, FoundBit sb inodeFields sb.inodesPerGroup d g base j word k →
    inodeNumber sb g j k = 0

/-! ## The bit that is set -/

theorem inodesPerGroup_add_le (wf : LaidOut sb disk) : sb.inodesPerGroup + 32 ≤ wordSize := by
  have hper := wf.inodesPerGroup.2
  show _ ≤ 2 ^ 32
  rcases ext2BlockSize_eq wf.blockSize with hs | hs | hs <;> omega

/-- The number of the bit that is set is not the index of the inode that is returned. -/
theorem bit_ne (wf : LaidOut sb disk) (hper : 1 < sb.inodesPerGroup)
    (hg : g < sb.totalBlocks / sb.blocksPerGroup) (hj : j < sb.inodesPerGroup) (hdvd : 32 ∣ j)
    (hn : n = inodeNumber sb g j k) (hi : IsInode sb n) :
    inodeIndex sb n ≠ 32 * (j % ext2BlockSize sb) + k := by
  intro hindex
  have hcount := wf.lt_groupCount hg
  have hmul : (g + 1) * sb.inodesPerGroup ≤ groupCount sb * sb.inodesPerGroup :=
    Nat.mul_le_mul_right _ hcount
  obtain ⟨htotal, hword⟩ := wf.totalInodes
  rw [← htotal, Nat.succ_mul] at hmul
  have hword' : sb.totalInodes < 2 ^ 32 := hword
  have hn' : n = (g * sb.inodesPerGroup + (j + k)) % 2 ^ 32 := hn
  have hpos := hi.1
  have hdm : sb.inodesPerGroup * inodeGroup sb n + inodeIndex sb n = n - 1 := Nat.div_add_mod _ _
  have hlt : inodeIndex sb n < sb.inodesPerGroup := Nat.mod_lt _ wf.inodesPerGroup.1
  rw [Nat.mul_comm] at hdm
  -- the sum does not wrap: what would be left of it is less than `k`
  have hsum : n = g * sb.inodesPerGroup + (j + k) := by
    by_contra hne
    omega
  have hmod := Nat.mod_le j (ext2BlockSize sb)
  rcases Nat.lt_trichotomy (inodeGroup sb n) g with hless | heq | hmore
  · have := Nat.mul_le_mul_right sb.inodesPerGroup hless
    rw [Nat.succ_mul] at this
    omega
  · rw [heq] at hdm
    omega
  · have := Nat.mul_le_mul_right sb.inodesPerGroup hmore
    rw [Nat.succ_mul] at this
    omega

theorem LaidOut.inodeMap_ne_descStart (wf : LaidOut sb disk) (hg : g < groupCount sb) :
    inodeMap sb disk g ≠ descStart sb := by
  intro he
  cases wf.distinct (.inodeMap g) (.desc 0) hg (Meta.desc_zero_valid hg) he

/-- **No inode that is returned was free and is allocated.** -/
theorem not_inodeAgrees (wf : LaidOut sb d.disk) (hbytes : 8 ∣ sb.inodesPerGroup)
    (hd : d.Working) (hrun : ext2AllocInode sb d g = some (d', n)) (hn : n ≠ 0) :
    ¬ InodeAgrees sb d.disk d'.disk g n := by
  intro ha
  have h := wf.blockSize
  have hi := ha.isInode
  have hgroup := wf.inodeGroup_lt hi
  have hper : 1 < sb.inodesPerGroup := by
    have hpos := wf.inodesPerGroup.1
    omega
  by_cases hg : g < sb.totalBlocks / sb.blocksPerGroup
  · have hfields : inodeFields.unalloced + 2 ≤ descSize := by decide
    obtain ⟨base, -, ⟨-, hzero, -⟩ | ⟨j, word, k, m, disk₁, hj, hdvd, -, hword, hbit, hdisk₁, hdisk,
      -, hnum, -⟩⟩ := allocInGroup_cases h hfields (inodesPerGroup_add_le wf) hd
        (wf.descStart_le hgroup) wf.perGroup.1 hg hrun
    · exact hn hzero
    · have hk := (firstZero_some hbit).1
      have hindex : inodeIndex sb n < 8 * ext2BlockSize sb :=
        Nat.lt_of_lt_of_le (Nat.mod_lt _ wf.inodesPerGroup.1) wf.inodesPerGroup.2
      have hset : bit sb d'.disk (inodeMap sb d.disk (inodeGroup sb n)) (inodeIndex sb n) =
          true := by
        rw [← (ha.maps _ hgroup).2]
        exact ha.set
      obtain ⟨-, -, heq⟩ := bit_of_scan hdisk₁ hdisk (wf.inodeMap_ne_descStart hgroup) hindex
        (scanWord_some h hword) hk ha.free hset
      exact bit_ne wf hper hg hj hdvd hnum hi (by omega)
  · have hret : ext2AllocInode sb d g = some (d, 0) :=
      run_bind (ext2GetBlockDesc_none wf.perGroup.1 (Nat.le_of_not_lt hg)) rfl
    cases hret.symm.trans hrun
    exact hn rfl

/-! ## When an allocation is right -/

/-- A number that is returned belongs to a bit that the scan found. -/
theorem foundBit_of_run (wf : LaidOut sb d.disk) (hd : d.Working)
    (hrun : ext2AllocInode sb d g = some (d', n)) (hn : n ≠ 0) :
    ∃ base j word k, FoundBit sb inodeFields sb.inodesPerGroup d g base j word k ∧
      n = inodeNumber sb g j k := by
  by_cases hg : g < sb.totalBlocks / sb.blocksPerGroup
  · have hfields : inodeFields.unalloced + 2 ≤ descSize := by decide
    obtain ⟨base, hbase, ⟨-, hzero, -⟩ | ⟨j, word, k, m, disk₁, hj, hdvd, hfull, hword, hbit, -, -,
      -, hnum, -⟩⟩ := allocInGroup_cases wf.blockSize hfields (inodesPerGroup_add_le wf) hd
        (wf.descStart_le (wf.lt_groupCount hg)) wf.perGroup.1 hg hrun
    · exact absurd hzero hn
    · exact ⟨base, j, word, k, ⟨hg, hbase, hj, hdvd, hfull, hword, hbit⟩, hnum⟩
  · have hret : ext2AllocInode sb d g = some (d, 0) :=
      run_bind (ext2GetBlockDesc_none wf.perGroup.1 (Nat.le_of_not_lt hg)) rfl
    cases hret.symm.trans hrun
    exact absurd rfl hn

/-- A bit that the scan finds is the end of an allocation. -/
theorem FoundBit.exists_inode (hf : FoundBit sb inodeFields sb.inodesPerGroup d g base j word k)
    (wf : LaidOut sb d.disk) (hd : d.Working) :
    ∃ d', ext2AllocInode sb d g = some (d', inodeNumber sb g j k) := by
  have hstart := wf.descStart_le (wf.lt_groupCount hf.group)
  have hfields : inodeFields.unalloced + 2 ≤ descSize := by decide
  obtain ⟨d', hrun, -⟩ := hf.exists_alloc (wf.geometry_of_le hstart) hfields
    (inodesPerGroup_add_le wf) hd
  exact ⟨d', hrun⟩

/-! ## An image with two inodes in use -/

/-- The image `tableDisk` with the inodes `1` and `2` in use. -/
def inodesDisk : ℕ → UInt8 :=
  writeLE 1023 (writeLE 1 (writeLE 2 tableDisk (blockStart smallSuperblock 2 + 14) 6)
    (blockStart smallSuperblock 4) 3) (blockStart smallSuperblock 4 + 1) (256 ^ 1023 - 1)

theorem inodesDisk_wellFormed : WellFormed smallSuperblock inodesDisk := by
  refine .of_small (by decide +kernel) (by decide +kernel) (by decide +kernel) (fun i hi => ?_)
    (by decide +kernel) (by decide +kernel)
  have h₃ : blockStart smallSuperblock 3 = 1051648 := by decide
  have h₂ : blockStart smallSuperblock 2 = 1050624 := by decide
  have h₄ : blockStart smallSuperblock 4 = 1052672 := by decide
  rw [inodesDisk, writeLE_of_notMem (by omega), writeLE_of_notMem (by omega),
    writeLE_of_notMem (by omega), tableDisk, image_ones (by decide) hi]

theorem inodesDisk_formed : InodesFormed smallSuperblock inodesDisk := by
  have hcount : groupCount smallSuperblock = 1 := by decide
  refine ⟨inodesDisk_wellFormed, by decide, fun g hg n h h' => ?_, fun g hg => ?_⟩
  · obtain rfl : g = 0 := by omega
    have hmap : inodeMap smallSuperblock inodesDisk 0 = 4 := by decide +kernel
    have hn : 8 ≤ n := h
    have hn' : n < 8192 := h'
    have hbytes : ∀ i < 1023, inodesDisk (blockStart smallSuperblock 4 + 1 + i) = 255 := by
      intro i hi
      rw [inodesDisk, writeLE_ones hi]
    rw [hmap]
    exact bit_of_bytes hbytes hn hn'
  · obtain rfl : g = 0 := by omega
    decide +kernel

end C4OS.Ext2
