import C4OS.Ext2.Requests

/-!
# What is read

When the records of inodes and the blocks of files are read, on any disk of a device that works. A
record is looked for when its descriptor is in the page (`exists_ext2GetInode_iff`), and a block of
a file is read when a pointer in the file system leads to it (`ext2InodeReadBlock_mapped`). All of
it depends on the disk and on what was in the page before: behind a block that is read, the page
stays as it was.
-/

namespace C4OS.Ext2

open Foundations Ringbuffer

variable {sb : Superblock} {disk : ℕ → UInt8} {d d₁ d' : Device} {e : Inode} {inode b i j off : ℕ}

/-! ## The geometry -/

/-- What the superblock of an image says. -/
structure Geometry (sb : Superblock) : Prop where
  blockSize : sb.blockSize ≤ 2
  totalBlocks : sb.totalBlocks < wordSize
  totalInodes : sb.totalInodes < wordSize
  perGroup : 0 < sb.blocksPerGroup ∧ sb.blocksPerGroup ≤ 8 * ext2BlockSize sb
  inodesPerGroup : 0 < sb.inodesPerGroup ∧ sb.inodesPerGroup ≤ 8 * ext2BlockSize sb
  inodeSize : 128 ≤ sb.inodeSize ∧ sb.inodeSize ∣ ext2BlockSize sb
  descStart_le : descStart sb ≤ sb.totalBlocks

/-- The superblock of an image that has room for the descriptors. -/
theorem LaidOut.geometry_of_le (wf : LaidOut sb disk) (hstart : descStart sb ≤ sb.totalBlocks) :
    Geometry sb where
  blockSize := wf.blockSize
  totalBlocks := wf.totalBlocks
  totalInodes := wf.totalInodes.2
  perGroup := ⟨wf.perGroup.1, wf.perGroup.2.1⟩
  inodesPerGroup := wf.inodesPerGroup
  inodeSize := wf.inodeSize
  descStart_le := hstart

/-- The superblock of an image with an inode. -/
theorem LaidOut.geometry (wf : LaidOut sb disk) (hi : IsInode sb inode) : Geometry sb :=
  wf.geometry_of_le (wf.descStart_le (wf.inodeGroup_lt hi))

namespace Geometry

theorem blockSize_le (h : Geometry sb) : 1024 ≤ ext2BlockSize sb ∧ ext2BlockSize sb ≤ 4096 :=
  ⟨le_ext2BlockSize h.blockSize, ext2BlockSize_le h.blockSize⟩

theorem perBlock_pos (h : Geometry sb) : 0 < ext2BlockSize sb / sb.inodeSize := by
  have hsize := h.inodeSize.1
  have hblock := h.blockSize_le
  exact Nat.div_pos (Nat.le_of_dvd (by omega) h.inodeSize.2) (by omega)

/-- A record is in the page. -/
theorem inodeOffset_le (h : Geometry sb) (inode : ℕ) : inodeOffset sb inode + 120 ≤ 4096 := by
  have hlt := Nat.mod_lt ((inode - 1) % sb.inodesPerGroup) h.perBlock_pos
  have hmul := Nat.mul_le_mul_right sb.inodeSize hlt
  rw [Nat.succ_mul, Nat.div_mul_cancel h.inodeSize.2] at hmul
  have hsize := h.inodeSize.1
  have hblock := h.blockSize_le
  have hoff : inodeOffset sb inode + sb.inodeSize ≤ ext2BlockSize sb := hmul
  omega

end Geometry

theorem Device.Reads.working (hr : d.Reads sb d₁) (hd : d.Working) : d₁.Working := hd.same hr.same

/-! ## Records -/

/-- An inode that is looked for: either it is not in the file system, or its descriptor is in the
page. -/
def Findable (sb : Superblock) (inode : ℕ) : Prop :=
  sb.totalInodes < inode ∨ 0 < inode ∧ inodeGroup sb inode * descSize + 12 ≤ pageSize

/-- The block of the inode table that is read for an inode. -/
def recordBlock (sb : Superblock) (d : Device) (inode : ℕ) : ℕ :=
  (readLE 4 (d.fetch sb (descStart sb)).buffer (inodeGroup sb inode * descSize + 8) +
    inodeTableIndex sb inode) % wordSize

/-- The device with the record of an inode in the page. -/
def fetchRecord (sb : Superblock) (d : Device) (inode : ℕ) : Device :=
  (d.fetch sb (descStart sb)).fetch sb (deviceBlock sb (recordBlock sb d inode))

/-- The location of a record, from the number in the descriptor. -/
theorem Geometry.inodeLocation (h : Geometry sb) (hi : IsInode sb inode) :
    inodeLocation sb d inode = (d.load 4 (inodeGroup sb inode * descSize + 8)).bind fun table =>
      some ((table + inodeTableIndex sb inode) % wordSize,
        (inode - 1) % sb.inodesPerGroup % (ext2BlockSize sb / sb.inodeSize)) :=
  inodeLocation_load h.inodesPerGroup.1 h.perBlock_pos hi.1 (Nat.lt_of_le_of_lt hi.2 h.totalInodes)

/-- The descriptor of the inode zero is far behind the page. -/
theorem inodeLocation_zero (h : Geometry sb) : inodeLocation sb d 0 = none := by
  have hper : sb.inodesPerGroup ≠ 0 := Nat.ne_of_gt h.inodesPerGroup.1
  obtain ⟨hpos, hle⟩ := h.inodesPerGroup
  have hblock := h.blockSize_le
  have hfar : 131071 ≤ (2 ^ 32 - 1) / sb.inodesPerGroup :=
    (Nat.le_div_iff_mul_le hpos).2 (by omega)
  have hgroup : ext2BlockGroup sb 0 = some ((2 ^ 32 - 1) / sb.inodesPerGroup) := by
    rw [ext2BlockGroup, if_neg hper]
    rfl
  have hload : d.load 4 ((2 ^ 32 - 1) / sb.inodesPerGroup * 32 + 8) = none := by
    refine if_neg ?_
    show ¬ _ ≤ 4096
    omega
  rw [inodeLocation, hgroup]
  show Option.bind (d.load 4 _) _ = none
  rw [hload]
  rfl

/-- An inode that is not in the file system. -/
theorem ext2GetInode_of_lt (h : Geometry sb) (hd : d.Working) (hlt : sb.totalInodes < inode) :
    ext2GetInode sb d inode = some (d.fetch sb (descStart sb), none) := by
  refine run_bind (ext2ReadBlock_eq h.blockSize hd h.descStart_le (near_descStart h.blockSize)) ?_
  exact if_pos (by simp [hlt])

theorem Geometry.readDescs (h : Geometry sb) :
    ext2GetBlockDescs sb d = some (if d.fault d.transfers then (d.failed, false)
      else (d.fetch sb (descStart sb), true)) := by
  have hnear := (deviceBlock_eq_iff h.blockSize).2 (near_descStart h.blockSize)
  rw [ext2GetBlockDescs, ext2ReadBlock_transfer h.blockSize h.descStart_le, hnear]

/-- **`ext2_get_inode`** of an inode in the file system, on any device. -/
theorem ext2GetInode_transfers (h : Geometry sb) (hi : IsInode sb inode) :
    ext2GetInode sb d inode =
      if d.fault d.transfers then some (d.failed, none)
      else if inodeGroup sb inode * descSize + 12 ≤ pageSize then
        if recordBlock sb d inode ≤ sb.totalBlocks then
          if d.fault (d.transfers + 1) then some ((d.fetch sb (descStart sb)).failed, none)
          else some (fetchRecord sb d inode,
            some (inodeOffset sb inode, pageInode (fetchRecord sb d inode) (inodeOffset sb inode)))
        else some (d.fetch sb (descStart sb), none)
      else none := by
  have hle := hi.2
  rw [ext2GetInode, h.readDescs]
  split
  · rfl
  · show (if _ then _ else _) = _
    rw [if_neg (by simp [hle]), h.inodeLocation hi]
    split
    · next hdesc =>
      rw [Device.load, if_pos hdesc]
      show (ext2ReadBlock sb _ (recordBlock sb d inode) >>= _) = _
      split
      · next hin =>
        rw [ext2ReadBlock_transfer h.blockSize hin]
        have hpage : inodeOffset sb inode + inodeRecordSize ≤ pageSize := h.inodeOffset_le inode
        show (some (if d.fault (d.transfers + 1) then _ else _) >>= _) = _
        split
        · rfl
        · exact run_bind rfl ((if_pos rfl).trans (run_bind (if_pos hpage) rfl))
      · next hin =>
        rw [ext2ReadBlock, if_pos (Nat.lt_of_not_le hin)]
        rfl
    · next hdesc =>
      rw [Device.load, if_neg hdesc]
      rfl

/-- **`ext2_get_inode`** of an inode in the file system. -/
theorem ext2GetInode_record (h : Geometry sb) (hd : d.Working) (hi : IsInode sb inode) :
    ext2GetInode sb d inode =
      if inodeGroup sb inode * descSize + 12 ≤ pageSize then
        if recordBlock sb d inode ≤ sb.totalBlocks then
          some (fetchRecord sb d inode,
            some (inodeOffset sb inode, pageInode (fetchRecord sb d inode) (inodeOffset sb inode)))
        else some (d.fetch sb (descStart sb), none)
      else none := by
  rw [ext2GetInode_transfers h hi, hd d.transfers, hd (d.transfers + 1)]
  rfl

theorem ext2GetInode_zero (h : Geometry sb) (hd : d.Working) : ext2GetInode sb d 0 = none := by
  have hdescs := ext2ReadBlock_eq h.blockSize hd h.descStart_le (near_descStart h.blockSize)
  rw [ext2GetInode, ext2GetBlockDescs, hdescs]
  show (if !true || 0 > sb.totalInodes then some (d.fetch sb (descStart sb), none)
    else inodeLocation sb (d.fetch sb (descStart sb)) 0 >>= _) = none
  rw [if_neg (by simp), inodeLocation_zero h]
  rfl

/-- **When `ext2_get_inode` returns.** -/
theorem exists_ext2GetInode_iff (h : Geometry sb) (hd : d.Working) :
    (∃ d' buf, ext2GetInode sb d inode = some (d', buf)) ↔ Findable sb inode := by
  by_cases hlt : sb.totalInodes < inode
  · exact iff_of_true ⟨_, _, ext2GetInode_of_lt h hd hlt⟩ (.inl hlt)
  · rcases Nat.eq_zero_or_pos inode with rfl | hpos
    · rw [ext2GetInode_zero h hd]
      refine iff_of_false ?_ ?_
      · rintro ⟨d', buf, hrun⟩
        cases hrun
      · rintro (hlt' | ⟨hpos, -⟩)
        · exact hlt hlt'
        · exact absurd hpos (Nat.lt_irrefl 0)
    · rw [ext2GetInode_record h hd ⟨hpos, Nat.le_of_not_lt hlt⟩, Findable]
      by_cases hdesc : inodeGroup sb inode * descSize + 12 ≤ pageSize
      · rw [if_pos hdesc]
        refine iff_of_true ?_ (.inr ⟨hpos, hdesc⟩)
        split
        · exact ⟨_, _, rfl⟩
        · exact ⟨_, _, rfl⟩
      · rw [if_neg hdesc]
        refine iff_of_false ?_ fun hor => ?_
        · rintro ⟨d', buf, hrun⟩
          cases hrun
        · rcases hor with hlt' | ⟨-, hdesc'⟩
          · exact hlt hlt'
          · exact hdesc hdesc'

/-! ## Blocks of files -/

/-- A pointer in a table that is read. -/
def tableEntry (sb : Superblock) (disk : ℕ → UInt8) (table k : ℕ) : ℕ :=
  readLE 4 (fun i => disk (blockStart sb (deviceBlock sb table) + i)) (4 * k)

/-- The disk block that is read for a block of a file, zero when there is none. -/
def fileBlock (sb : Superblock) (disk : ℕ → UInt8) (e : Inode) (j : ℕ) : ℕ :=
  if j < 12 then e.directPtr j
  else if j < ext2PointersPerBlock sb + 12 ∧ 0 < e.singleIndirectPtr ∧
      e.singleIndirectPtr ≤ sb.totalBlocks then
    tableEntry sb disk e.singleIndirectPtr (j - 12)
  else 0

/-- A block of a file is there and in the file system. -/
def Mapped (sb : Superblock) (disk : ℕ → UInt8) (e : Inode) (j : ℕ) : Prop :=
  0 < fileBlock sb disk e j ∧ fileBlock sb disk e j ≤ sb.totalBlocks

/-- A block of a file that is there is near its start. -/
theorem Mapped.lt (hm : Mapped sb disk e j) :
    j < ext2PointersPerBlock sb + 12 := by
  by_contra hge
  obtain ⟨hpos, -⟩ := hm
  rw [fileBlock, if_neg (by omega), if_neg fun hin => hge hin.1] at hpos
  exact Nat.lt_irrefl 0 hpos

/-- The device with a block of a file in the page. -/
def filePage (sb : Superblock) (d : Device) (e : Inode) (j : ℕ) : Device :=
  d.fetch sb (deviceBlock sb (fileBlock sb d.disk e j))

/-- The number that `ext2_inode_read_block` finds, unless it reads a table through the null
pointer. -/
theorem inodeBlock_cases (h : Geometry sb) (hd : d.Working) (e : Inode) (j : ℕ) :
    (∃ d', inodeBlock sb d e j = some (d', fileBlock sb d.disk e j) ∧ d.Reads sb d') ∨
      inodeBlock sb d e j = none ∧ fileBlock sb d.disk e j = 0 := by
  rw [inodeBlock, fileBlock]
  by_cases hj : j < 12
  · rw [if_pos hj, if_pos hj]
    exact .inl ⟨d, rfl, .refl sb d⟩
  · rw [if_neg hj, if_neg hj]
    by_cases hlt : j < ext2PointersPerBlock sb + 12
    · rw [if_pos hlt]
      rcases Nat.eq_zero_or_pos e.singleIndirectPtr with hzero | hpos
      · rw [if_pos hzero, if_neg (by omega)]
        exact .inl ⟨d, rfl, .refl sb d⟩
      · rw [if_neg (by omega)]
        by_cases hle : e.singleIndirectPtr ≤ sb.totalBlocks
        · rw [if_pos ⟨hlt, hpos, hle⟩, ext2ReadBlock_deviceBlock h.blockSize hd hle]
          have hoff : 4 * (j - 12) + 4 ≤ ext2BlockSize sb := by
            have hlt' : j < ext2BlockSize sb / 4 + 12 := hlt
            omega
          refine .inl ⟨d.fetch sb (deviceBlock sb e.singleIndirectPtr), run_bind rfl ?_,
            (Device.Reads.refl sb d).fetch⟩
          exact (if_pos rfl).trans (run_bind (Device.load_fetch h.blockSize hoff) rfl)
        · rw [if_neg fun hin => hle hin.2.2, ext2ReadBlock, if_pos (Nat.lt_of_not_le hle)]
          exact .inr ⟨rfl, rfl⟩
    · rw [if_neg hlt, if_neg fun hin => hlt hin.1]
      exact .inl ⟨d, rfl, .refl sb d⟩

/-- **A block of a file that is there is read.** -/
theorem ext2InodeReadBlock_mapped (h : Geometry sb) (hd : d.Working)
    (hm : Mapped sb d.disk e j) :
    ∃ d', ext2InodeReadBlock sb d e j = some (d', true) ∧ d.Reads sb d' ∧
      d'.buffer = (filePage sb d e j).buffer := by
  rcases inodeBlock_cases h hd e j with ⟨d₁, hrun, hr⟩ | ⟨-, hzero⟩
  · have hne : fileBlock sb d.disk e j ≠ 0 := Nat.ne_of_gt hm.1
    refine ⟨d₁.fetch sb (deviceBlock sb (fileBlock sb d.disk e j)), run_bind hrun ?_, hr.fetch,
      hr.fetch_buffer⟩
    exact (if_pos hne).trans (ext2ReadBlock_deviceBlock h.blockSize (hr.working hd) hm.2)
  · exact absurd hzero (Nat.ne_of_gt hm.1)

/-- A block of a file that is not there is not read. -/
theorem ext2InodeReadBlock_not_mapped (h : Geometry sb) (hd : d.Working)
    (hm : ¬ Mapped sb d.disk e j) : ext2InodeReadBlock sb d e j ≠ some (d', true) := by
  intro hrun
  rcases inodeBlock_cases h hd e j with ⟨d₁, hblock, hr⟩ | ⟨hnone, -⟩
  · simp only [ext2InodeReadBlock, hblock, Option.bind_eq_bind, Option.bind_some] at hrun
    rcases Nat.eq_zero_or_pos (fileBlock sb d.disk e j) with hzero | hpos
    · rw [if_neg (not_not.2 hzero)] at hrun
      split at hrun
      · cases hrun
      · cases hrun
    · have hout : fileBlock sb d.disk e j > sb.totalBlocks := by
        by_contra hin
        exact hm ⟨hpos, Nat.le_of_not_lt hin⟩
      rw [if_pos (Nat.ne_of_gt hpos), ext2ReadBlock, if_pos hout] at hrun
      cases hrun
  · rw [ext2InodeReadBlock, hnone] at hrun
    cases hrun

end C4OS.Ext2
