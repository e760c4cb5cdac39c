import C4OS.Ext2.Bitmaps

/-!
# Records of inodes

Where `ext2_get_inode` finds the record of an inode, and what `ext2_inode_update` does to the disk.
Both are right for an inode whose group has its descriptor in the first block of descriptors, and
whose block of the inode table is in the first 4 GiB (`Located`). The records of different inodes
have no byte in common (`inodePos_disjoint`), so that an update changes one record only
(`recordDisk`).
-/

namespace C4OS.Ext2

open Foundations

variable {sb : Superblock} {disk : ℕ → UInt8} {d d' : Device} {e : Inode} {inode inode' : ℕ}

/-! ## Where the records are -/

/-- The group of an inode. -/
def inodeGroup (sb : Superblock) (inode : ℕ) : ℕ := (inode - 1) / sb.inodesPerGroup

/-- The number of the block of an inode in the table of its group. -/
def inodeTableIndex (sb : Superblock) (inode : ℕ) : ℕ :=
  (inode - 1) % sb.inodesPerGroup / (ext2BlockSize sb / sb.inodeSize)

/-- The block of the inode table with the record of an inode. -/
def inodeTableBlock (sb : Superblock) (disk : ℕ → UInt8) (inode : ℕ) : ℕ :=
  inodeTable sb disk (inodeGroup sb inode) + inodeTableIndex sb inode

/-- The offset of a record in its block. -/
def inodeOffset (sb : Superblock) (inode : ℕ) : ℕ :=
  (inode - 1) % sb.inodesPerGroup % (ext2BlockSize sb / sb.inodeSize) * sb.inodeSize

theorem inodePos_eq (sb : Superblock) (disk : ℕ → UInt8) (inode : ℕ) : inodePos sb disk inode =
    blockStart sb (inodeTableBlock sb disk inode) + inodeOffset sb inode := rfl

/-- The descriptor and the record of an inode are where the code looks for them. -/
structure Located (sb : Superblock) (disk : ℕ → UInt8) (inode : ℕ) : Prop where
  desc : inodeGroup sb inode * descSize + descSize ≤ ext2BlockSize sb
  near : Near sb (inodeTableBlock sb disk inode)

namespace LaidOut

theorem inodeGroup_lt (wf : LaidOut sb disk) (hi : IsInode sb inode) :
    inodeGroup sb inode < groupCount sb := by
  have hle := hi.2
  have hpos := hi.1
  rw [wf.totalInodes.1] at hle
  rw [inodeGroup, Nat.div_lt_iff_lt_mul wf.inodesPerGroup.1]
  omega

/-- The number of records in a block. -/
theorem perBlock_mul (wf : LaidOut sb disk) :
    ext2BlockSize sb / sb.inodeSize * sb.inodeSize = ext2BlockSize sb :=
  Nat.div_mul_cancel wf.inodeSize.2

theorem perBlock_pos (wf : LaidOut sb disk) : 0 < ext2BlockSize sb / sb.inodeSize := by
  rcases Nat.eq_zero_or_pos (ext2BlockSize sb / sb.inodeSize) with h | h
  · have hmul := wf.perBlock_mul
    rw [h] at hmul
    rcases ext2BlockSize_eq wf.blockSize with hs | hs | hs <;> omega
  · exact h

/-- The block of a record is a part of the file system. -/
theorem inodeTable_valid (wf : LaidOut sb disk) (hi : IsInode sb inode) :
    (Meta.inodeTable (inodeGroup sb inode) (inodeTableIndex sb inode)).Valid sb := by
  refine ⟨wf.inodeGroup_lt hi, ?_⟩
  have hlt := Nat.mod_lt (inode - 1) wf.inodesPerGroup.1
  have hmul : inodeTableIndex sb inode * (ext2BlockSize sb / sb.inodeSize) ≤
      (inode - 1) % sb.inodesPerGroup := Nat.div_mul_le_self _ _
  have hsize : 0 < sb.inodeSize := Nat.lt_of_lt_of_le (by decide) wf.inodeSize.1
  calc inodeTableIndex sb inode * ext2BlockSize sb
      = inodeTableIndex sb inode * (ext2BlockSize sb / sb.inodeSize) * sb.inodeSize := by
        rw [Nat.mul_assoc, wf.perBlock_mul]
    _ ≤ (inode - 1) % sb.inodesPerGroup * sb.inodeSize := Nat.mul_le_mul_right _ hmul
    _ < sb.inodesPerGroup * sb.inodeSize := Nat.mul_lt_mul_of_pos_right hlt hsize

theorem inodeTableBlock_lt (wf : LaidOut sb disk) (hi : IsInode sb inode) :
    inodeTableBlock sb disk inode < sb.totalBlocks :=
  (wf.inside _ (wf.inodeTable_valid hi)).2

/-- A record does not go over the end of its block. -/
theorem inodeOffset_le (wf : LaidOut sb disk) (inode : ℕ) :
    inodeOffset sb inode + sb.inodeSize ≤ ext2BlockSize sb := by
  have hlt := Nat.mod_lt ((inode - 1) % sb.inodesPerGroup) wf.perBlock_pos
  have hmul := Nat.mul_le_mul_right sb.inodeSize hlt
  rw [Nat.succ_mul, wf.perBlock_mul] at hmul
  exact hmul

/-- The place of a record says which inode it is. -/
theorem inode_eq (wf : LaidOut sb disk) (hi : IsInode sb inode) (hi' : IsInode sb inode')
    (hblock : inodeTableBlock sb disk inode = inodeTableBlock sb disk inode')
    (hoff : inodeOffset sb inode = inodeOffset sb inode') : inode = inode' := by
  have hmeta := wf.distinct _ _ (wf.inodeTable_valid hi) (wf.inodeTable_valid hi') hblock
  simp only [Meta.inodeTable.injEq] at hmeta
  obtain ⟨hgroup, hindex⟩ := hmeta
  have hsize : 0 < sb.inodeSize := Nat.lt_of_lt_of_le (by decide) wf.inodeSize.1
  have hmod := Nat.eq_of_mul_eq_mul_right hsize hoff
  have hdm := Nat.div_add_mod ((inode - 1) % sb.inodesPerGroup) (ext2BlockSize sb / sb.inodeSize)
  have hdm' := Nat.div_add_mod ((inode' - 1) % sb.inodesPerGroup) (ext2BlockSize sb / sb.inodeSize)
  change _ * inodeTableIndex sb inode + _ = _ at hdm
  change _ * inodeTableIndex sb inode' + _ = _ at hdm'
  rw [hindex, hmod, hdm'] at hdm
  have hi₁ := Nat.div_add_mod (inode - 1) sb.inodesPerGroup
  have hi₂ := Nat.div_add_mod (inode' - 1) sb.inodesPerGroup
  change _ * inodeGroup sb inode + _ = _ at hi₁
  change _ * inodeGroup sb inode' + _ = _ at hi₂
  rw [hgroup, ← hdm, hi₂] at hi₁
  have hpos := hi.1
  have hpos' := hi'.1
  omega

end LaidOut

/-- The records of two inodes have no byte in common. -/
theorem inodePos_disjoint (wf : LaidOut sb disk) (hi : IsInode sb inode)
    (hi' : IsInode sb inode') (hne : inode ≠ inode') :
    inodePos sb disk inode + sb.inodeSize ≤ inodePos sb disk inode' ∨
      inodePos sb disk inode' + sb.inodeSize ≤ inodePos sb disk inode := by
  have hle := wf.inodeOffset_le inode
  have hle' := wf.inodeOffset_le inode'
  rw [inodePos_eq, inodePos_eq]
  by_cases hblock : inodeTableBlock sb disk inode = inodeTableBlock sb disk inode'
  · rw [hblock]
    have hoff : inodeOffset sb inode ≠ inodeOffset sb inode' :=
      fun h => hne (wf.inode_eq hi hi' hblock h)
    unfold inodeOffset at hoff ⊢
    generalize (inode - 1) % sb.inodesPerGroup % (ext2BlockSize sb / sb.inodeSize) = i at hoff ⊢
    generalize (inode' - 1) % sb.inodesPerGroup % (ext2BlockSize sb / sb.inodeSize) = j at hoff ⊢
    have hij : i ≠ j := fun h => hoff (by rw [h])
    rcases Nat.lt_or_gt_of_ne hij with hlt | hlt
    · have := Nat.mul_le_mul_right sb.inodeSize hlt
      rw [Nat.succ_mul] at this
      omega
    · have := Nat.mul_le_mul_right sb.inodeSize hlt
      rw [Nat.succ_mul] at this
      omega
  · have := blockStart_disjoint sb hblock
    omega

/-! ## Reading a record -/

/-- The number before that of an inode, in a word. -/
theorem inode_pred (hpos : 0 < inode) (hlt : inode < wordSize) :
    (inode + (wordSize - 1)) % wordSize = inode - 1 := by
  have hlt' : inode < 2 ^ 32 := hlt
  show (inode + (2 ^ 32 - 1)) % 2 ^ 32 = inode - 1
  omega

theorem ext2BlockGroup_of_pos (hper : 0 < sb.inodesPerGroup) (hpos : 0 < inode)
    (hlt : inode < wordSize) : ext2BlockGroup sb inode = some (inodeGroup sb inode) := by
  rw [ext2BlockGroup, if_neg (Nat.ne_of_gt hper), inode_pred hpos hlt]
  rfl

theorem ext2GroupIndex_of_pos (hper : 0 < sb.inodesPerGroup) (hpos : 0 < inode)
    (hlt : inode < wordSize) :
    ext2GroupIndex sb inode = some ((inode - 1) % sb.inodesPerGroup) := by
  rw [ext2GroupIndex, if_neg (Nat.ne_of_gt hper), inode_pred hpos hlt]

/-- The location of a record, from the number in the descriptor. -/
theorem inodeLocation_load (hper : 0 < sb.inodesPerGroup)
    (hblock : 0 < ext2BlockSize sb / sb.inodeSize) (hpos : 0 < inode) (hlt : inode < wordSize) :
    inodeLocation sb d inode = (d.load 4 (inodeGroup sb inode * descSize + 8)).bind fun table =>
      some ((table + inodeTableIndex sb inode) % wordSize,
        (inode - 1) % sb.inodesPerGroup % (ext2BlockSize sb / sb.inodeSize)) := by
  have hsize : sb.inodeSize ≠ 0 := by
    intro hzero
    rw [hzero, Nat.div_zero] at hblock
    exact Nat.lt_irrefl 0 hblock
  have hperBlock : ext2InodesPerBlock sb = some (ext2BlockSize sb / sb.inodeSize) := if_neg hsize
  simp only [inodeLocation, ext2BlockGroup_of_pos hper hpos hlt, ext2GroupIndex_of_pos hper hpos hlt,
    hperBlock, Option.bind_eq_bind, Option.bind_some, if_neg (Nat.ne_of_gt hblock)]
  rfl

/-- The location of a record, with the descriptors in the page. -/
theorem inodeLocation_eq (wf : LaidOut sb d.disk) (hi : IsInode sb inode)
    (hl : Loaded sb d (descStart sb)) (hloc : Located sb d.disk inode) :
    inodeLocation sb d inode = some (inodeTableBlock sb d.disk inode,
      (inode - 1) % sb.inodesPerGroup % (ext2BlockSize sb / sb.inodeSize)) := by
  have hlt : inode < wordSize := Nat.lt_of_le_of_lt hi.2 wf.totalInodes.2
  have hdesc : inodeGroup sb inode * 32 + 32 ≤ ext2BlockSize sb := hloc.desc
  have hoff : inodeGroup sb inode * descSize + 8 + 4 ≤ ext2BlockSize sb := by
    show inodeGroup sb inode * 32 + 8 + 4 ≤ _
    omega
  have htable : d.load 4 (inodeGroup sb inode * descSize + 8) =
      some (inodeTable sb d.disk (inodeGroup sb inode)) := by
    rw [load_eq wf.blockSize hl hoff, ← Nat.add_assoc]
    rfl
  have hmod : inodeTableBlock sb d.disk inode % wordSize = inodeTableBlock sb d.disk inode :=
    Nat.mod_eq_of_lt (Nat.lt_trans (wf.inodeTableBlock_lt hi) wf.totalBlocks)
  rw [inodeLocation_load wf.inodesPerGroup.1 wf.perBlock_pos hi.1 hlt, htable]
  show some (inodeTableBlock sb d.disk inode % wordSize, _) = _
  rw [hmod]

/-- The record that is in the page. -/
def pageInode (d : Device) (off : ℕ) : Inode := ⟨fun i => d.buffer (off + i)⟩

/-- The device after the record of an inode was read. -/
def fetchInode (sb : Superblock) (d : Device) (inode : ℕ) : Device :=
  (d.fetch sb (descStart sb)).fetch sb (inodeTableBlock sb d.disk inode)

/-- **`ext2_get_inode` finds the record of an inode.** -/
theorem ext2GetInode_eq (wf : LaidOut sb d.disk) (hd : d.Working) (hi : IsInode sb inode)
    (hloc : Located sb d.disk inode) :
    ext2GetInode sb d inode = some (fetchInode sb d inode,
      some (inodeOffset sb inode, pageInode (fetchInode sb d inode) (inodeOffset sb inode))) := by
  have hstart := wf.descStart_le (wf.inodeGroup_lt hi)
  have hle := hi.2
  have hsize := wf.inodeSize.1
  have hoff := wf.inodeOffset_le inode
  have hpage : inodeOffset sb inode + inodeRecordSize ≤ pageSize := by
    show _ + 120 ≤ 4096
    rcases ext2BlockSize_eq wf.blockSize with hs | hs | hs <;> omega
  refine run_bind (ext2ReadBlock_eq wf.blockSize hd hstart (near_descStart wf.blockSize)) ?_
  refine (if_neg (by simp [hle])).trans ?_
  refine run_bind (inodeLocation_eq (d := d.fetch sb (descStart sb)) wf hi loaded_fetch hloc) ?_
  refine run_bind (ext2ReadBlock_eq wf.blockSize (d := d.fetch sb (descStart sb)) hd
    (Nat.le_of_lt (wf.inodeTableBlock_lt hi)) hloc.near) ((if_pos rfl).trans ?_)
  refine run_bind (if_pos hpage) rfl

/-- The record is that of the disk. -/
theorem pageInode_byte (wf : LaidOut sb d.disk) {i : ℕ} (hlt : i < sb.inodeSize) :
    (pageInode (fetchInode sb d inode) (inodeOffset sb inode)).byte i =
      (inodeRecord sb d.disk inode).byte i := by
  have hoff := wf.inodeOffset_le inode
  show (if inodeOffset sb inode + i < ext2BlockSize sb then _ else _) = d.disk (inodePos sb _ _ + i)
  rw [if_pos (by omega), inodePos_eq, Nat.add_assoc]
  rfl

/-- The copy that the server makes of a record. -/
theorem pageInode_agrees (wf : LaidOut sb d.disk) :
    (pageInode (fetchInode sb d inode) (inodeOffset sb inode)).Agrees
      (inodeRecord sb d.disk inode) := by
  intro i hi
  have hi' : i < 120 := hi
  have hsize := wf.inodeSize.1
  exact pageInode_byte wf (by omega)

/-- `fs_set_node` gives the server a copy of the record. -/
theorem fsSetNode_eq {sys : System} (wf : LaidOut sb sys.dev.disk) (hd : sys.dev.Working)
    (hi : IsInode sb inode) (hloc : Located sb sys.dev.disk inode) (hinbox : sys.inbox = []) :
    fsSetNode sb sys inode = some (⟨fetchInode sb sys.dev inode, ⟨sys.conn.ring,
      some ⟨⟨inode, FileType.unknown.toNat, 0⟩,
        pageInode (fetchInode sb sys.dev inode) (inodeOffset sb inode), 0⟩⟩, [], sys.index⟩,
      .completed []) := by
  rw [fsSetNode, handleSetNode, ext2GetInode_eq wf hd hi hloc]
  simp only [Option.bind_eq_bind, Option.bind_some, Option.pure_def, receive, hinbox, List.nil_append]
  rfl

/-! ## Updating a record -/

/-- The disk with the record of an inode. -/
def recordDisk (sb : Superblock) (disk : ℕ → UInt8) (inode : ℕ) (e : Inode) : ℕ → UInt8 := fun c =>
  if inodePos sb disk inode ≤ c ∧ c < inodePos sb disk inode + inodeRecordSize then
    e.byte (c - inodePos sb disk inode)
  else disk c

/-- **`ext2_inode_update` writes the record.** -/
theorem ext2InodeUpdate_eq (wf : LaidOut sb d.disk) (hd : d.Working) (hi : IsInode sb inode)
    (hloc : Located sb d.disk inode) (e : Inode) :
    ∃ d', ext2InodeUpdate sb d inode e = some (d', inode) ∧
      d'.disk = recordDisk sb d.disk inode e ∧ d'.Working := by
  have hstart := wf.descStart_le (wf.inodeGroup_lt hi)
  have hsize := wf.inodeSize.1
  have hoff := wf.inodeOffset_le inode
  have hpage : inodeOffset sb inode + inodeRecordSize ≤ pageSize := by
    show _ + 120 ≤ 4096
    rcases ext2BlockSize_eq wf.blockSize with hs | hs | hs <;> omega
  have htable : ext2InodeTableBlock sb d inode =
      some (d.fetch sb (descStart sb), inodeTableBlock sb d.disk inode) := by
    refine run_bind (ext2ReadBlock_eq wf.blockSize hd hstart (near_descStart wf.blockSize)) ?_
    refine (if_pos rfl).trans ?_
    exact run_bind (inodeLocation_eq (d := d.fetch sb (descStart sb)) wf hi loaded_fetch hloc) rfl
  let d₁ := fetchInode sb (d.fetch sb (descStart sb)) inode
  let d₂ : Device := { d₁ with
    buffer := fun c =>
      if inodeOffset sb inode ≤ c ∧ c < inodeOffset sb inode + inodeRecordSize then
        e.byte (c - inodeOffset sb inode)
      else d₁.buffer c }
  have hstore : d₁.storeInode (inodeOffset sb inode) e = some d₂ := if_pos hpage
  refine ⟨d₂.flush sb (inodeTableBlock sb d.disk inode), run_bind htable <|
    run_bind (ext2GetInode_eq (d := d.fetch sb (descStart sb)) wf hd hi hloc) <|
    run_bind hstore <| run_bind (ext2WriteBlock_eq wf.blockSize (d := d₂) hd
      (Nat.le_of_lt (wf.inodeTableBlock_lt hi)) hloc.near) rfl, ?_, hd⟩
  funext c
  show (if _ then (if _ then e.byte (c - blockStart sb (inodeTableBlock sb d.disk inode) -
    inodeOffset sb inode) else d₁.buffer _) else d.disk c) = if _ then _ else _
  have hrecord : inodeRecordSize = 120 := rfl
  rw [inodePos_eq]
  split
  · next hc =>
    split
    · next hin =>
      rw [if_pos (by omega)]
      congr 1
      omega
    · next hin =>
      rw [if_neg (by omega)]
      show (if _ then d.disk _ else _) = _
      rw [if_pos (by omega)]
      congr 1
      show blockStart sb (inodeTableBlock sb d.disk inode) + _ = _
      omega
  · next hc => rw [if_neg (by omega)]

end C4OS.Ext2
