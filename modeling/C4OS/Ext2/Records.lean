import C4OS.Ext2.Answers

/-!
# Finding the record of an inode

What `ext2_get_inode` copies into its caller's record, for every number and on any device. The
descriptors of the groups are behind each other from the block after the superblock on, but one
block of them is read, and the descriptor of a later group is taken from what was in `block_buffer`
before. The product in `ext2_block_to_sector` has 32 bits, so that a record behind 4 GiB is looked
for in another place. The inode zero belongs to no group: its descriptor is far behind the page.

`ext2_get_inode_iff` says when the record is that of the inode, or the null pointer is returned for
a number that is not one of an inode; `Located.recordFound` that a record in the first 4 GiB, whose
descriptor is in the first block of them, is found.
-/

namespace C4OS.Ext2

open Foundations

variable {sb : Superblock} {disk : ℕ → UInt8} {d d' : Device} {e buffer : Inode} {inode : ℕ}

/-- `ext2_get_inode` with the record `buffer` of the caller: the place of the record in the page,
or nothing for the null pointer, and what is in `buffer` afterwards. -/
def ext2GetInodeTo (sb : Superblock) (d : Device) (buffer : Inode) (inode : ℕ) :
    Option (Device × Option ℕ × Inode) := do
  let (d, ok) ← ext2GetBlockDescs sb d
  if !ok then
    return (d, none, buffer)
  else if inode > sb.totalInodes then
    return (d, none, buffer)
  else
    let (block, index) ← inodeLocation sb d inode
    let (d, ok) ← ext2ReadBlock sb d block
    if ok then
      let e ← d.loadInode (index * sb.inodeSize)
      return (d, some (index * sb.inodeSize), e)
    else
      return (d, none, buffer)

/-- The record of the caller is assigned when a pointer is returned. -/
theorem ext2GetInodeTo_eq (sb : Superblock) (d : Device) (buffer : Inode) (inode : ℕ) :
    ext2GetInodeTo sb d buffer inode = (ext2GetInode sb d inode).map fun r =>
      (r.1, r.2.map Prod.fst, (r.2.map Prod.snd).getD buffer) := by
  rw [ext2GetInodeTo, ext2GetInode]
  cases ext2GetBlockDescs sb d with
  | none => rfl
  | some r =>
    obtain ⟨d₁, ok⟩ := r
    cases ok with
    | false => rfl
    | true =>
      by_cases hlt : inode > sb.totalInodes
      · simp [hlt]
      · simp only [Option.bind_eq_bind, Option.bind_some, Bool.not_true, Bool.false_eq_true,
          if_false, if_neg hlt, Bool.false_or, decide_eq_false hlt]
        cases inodeLocation sb d₁ inode with
        | none => rfl
        | some loc =>
          simp only [Option.bind_some]
          cases ext2ReadBlock sb d₁ loc.1 with
          | none => rfl
          | some r₂ =>
            obtain ⟨d₂, ok₂⟩ := r₂
            cases ok₂ with
            | false => rfl
            | true =>
              simp only [Option.bind_some, if_true]
              cases d₂.loadInode (loc.2 * sb.inodeSize) <;> rfl

/-! ## What is right -/

/-- The record of an inode is copied, and for any other number the null pointer is returned and
nothing is copied. -/
def RecordRight (sb : Superblock) (d : Device) (inode : ℕ) : Prop :=
  ∀ buffer : Inode, ∃ d' ptr e, ext2GetInodeTo sb d buffer inode = some (d', ptr, e) ∧
    (IsInode sb inode → ptr ≠ none ∧ e.Agrees (inodeRecord sb d.disk inode)) ∧
    (¬ IsInode sb inode → ptr = none ∧ e = buffer)

/-- The descriptors of the groups are not read: they are not in the file system, or the device
reports an error. -/
def DescsUnread (sb : Superblock) (d : Device) : Prop :=
  sb.totalBlocks < descStart sb ∨ d.fault d.transfers = true

/-- The position on the disk where the record of an inode is looked for. -/
def recordPos (sb : Superblock) (d : Device) (inode : ℕ) : ℕ :=
  blockStart sb (deviceBlock sb (recordBlock sb d inode)) + inodeOffset sb inode

/-- The record of an inode is found: the device transfers the two blocks, the descriptor of the
group is in the page, the block that it leads to is in the file system, and at the place of the
record in it there are the bytes of the record. -/
structure RecordFound (sb : Superblock) (d : Device) (inode : ℕ) : Prop where
  descs : d.fault d.transfers = false
  desc : inodeGroup sb inode * descSize + 12 ≤ pageSize
  block : recordBlock sb d inode ≤ sb.totalBlocks
  table : d.fault (d.transfers + 1) = false
  bytes : ∀ i < inodeRecordSize,
    d.disk (recordPos sb d inode + i) = (inodeRecord sb d.disk inode).byte i

/-- When `ext2_get_inode` is right. -/
def RecordCondition (sb : Superblock) (d : Device) (inode : ℕ) : Prop :=
  sb.totalInodes < inode ∨ inode = 0 ∧ DescsUnread sb d ∨
    IsInode sb inode ∧ RecordFound sb d inode

/-! ## Numbers that are not those of inodes -/

/-- A number behind the last inode. -/
theorem ext2GetInode_beyond (h : sb.blockSize ≤ 2) (hlt : sb.totalInodes < inode) :
    ∃ d', ext2GetInode sb d inode = some (d', none) := by
  have hread : ∃ r, ext2GetBlockDescs sb d = some r := by
    by_cases hb : descStart sb ≤ sb.totalBlocks
    · exact ⟨_, ext2ReadBlock_transfer h hb⟩
    · exact ⟨_, if_pos (Nat.lt_of_not_le hb)⟩
  obtain ⟨⟨d', ok⟩, hread⟩ := hread
  refine ⟨d', ?_⟩
  rw [ext2GetInode, hread]
  show (if _ then _ else _) = _
  rw [if_pos (by simp [hlt])]
  rfl

/-- The descriptors that are not read. -/
theorem DescsUnread.ext2GetInode (hun : DescsUnread sb d) (h : sb.blockSize ≤ 2) (inode : ℕ) :
    ∃ d', Ext2.ext2GetInode sb d inode = some (d', none) := by
  have hread : ∃ d', ext2GetBlockDescs sb d = some (d', false) := by
    by_cases hb : descStart sb ≤ sb.totalBlocks
    · have hfault := hun.resolve_left (Nat.not_lt_of_le hb)
      exact ⟨d.failed, (ext2ReadBlock_transfer h hb).trans (by rw [if_pos hfault])⟩
    · exact ⟨d, if_pos (Nat.lt_of_not_le hb)⟩
  obtain ⟨d', hread⟩ := hread
  exact ⟨d', run_bind hread rfl⟩

/-- The inode zero has no result once the descriptors are read. -/
theorem ext2GetInode_zero_none (wf : LaidOut sb disk) (hun : ¬ DescsUnread sb d) :
    ext2GetInode sb d 0 = none := by
  rw [DescsUnread, not_or, Nat.not_lt, Bool.not_eq_true] at hun
  have h := wf.geometry_of_le hun.1
  rw [ext2GetInode, h.readDescs, hun.2]
  show (if !true || 0 > sb.totalInodes then some (d.fetch sb (descStart sb), none)
    else inodeLocation sb (d.fetch sb (descStart sb)) 0 >>= _) = none
  rw [if_neg (by simp), inodeLocation_zero h]
  rfl

/-! ## Records -/

/-- The copy of a record is made of the bytes at the position where it is looked for. -/
theorem pageInode_fetchRecord (h : Geometry sb) {i : ℕ} (hi : i < inodeRecordSize) :
    (pageInode (fetchRecord sb d inode) (inodeOffset sb inode)).byte i =
      d.disk (recordPos sb d inode + i) := by
  have hlt := Nat.mod_lt ((inode - 1) % sb.inodesPerGroup) h.perBlock_pos
  have hmul := Nat.mul_le_mul_right sb.inodeSize hlt
  rw [Nat.succ_mul, Nat.div_mul_cancel h.inodeSize.2] at hmul
  have hoff : inodeOffset sb inode + sb.inodeSize ≤ ext2BlockSize sb := hmul
  have hsize := h.inodeSize.1
  have hi' : i < 120 := hi
  show (if inodeOffset sb inode + i < ext2BlockSize sb then _ else _) = _
  rw [if_pos (by omega), recordPos, Nat.add_assoc]
  rfl

/-- A record that is found is fetched. -/
theorem RecordFound.ext2GetInode (hf : RecordFound sb d inode) (h : Geometry sb)
    (hi : IsInode sb inode) :
    Ext2.ext2GetInode sb d inode = some (fetchRecord sb d inode,
      some (inodeOffset sb inode, pageInode (fetchRecord sb d inode) (inodeOffset sb inode))) := by
  rw [ext2GetInode_transfers h hi, hf.descs, hf.table, if_pos hf.desc, if_pos hf.block]
  rfl

theorem RecordFound.agrees (hf : RecordFound sb d inode) (h : Geometry sb) :
    (pageInode (fetchRecord sb d inode) (inodeOffset sb inode)).Agrees
      (inodeRecord sb d.disk inode) := by
  intro i hi
  rw [pageInode_fetchRecord h hi, hf.bytes i hi]

/-- A pointer is returned only when the two blocks are read. -/
theorem recordFound_of_run {off : ℕ} (h : Geometry sb) (hi : IsInode sb inode)
    (hrun : ext2GetInode sb d inode = some (d', some (off, e)))
    (hagrees : e.Agrees (inodeRecord sb d.disk inode)) : RecordFound sb d inode := by
  rw [ext2GetInode_transfers h hi] at hrun
  split at hrun
  · cases hrun
  · next hdescs =>
    split at hrun
    · next hdesc =>
      split at hrun
      · next hblock =>
        split at hrun
        · cases hrun
        · next htable =>
          cases hrun
          refine ⟨Bool.eq_false_iff.2 hdescs, hdesc, hblock, Bool.eq_false_iff.2 htable,
            fun i hi => ?_⟩
          rw [← pageInode_fetchRecord h hi]
          exact hagrees i hi
      · cases hrun
    · cases hrun

/-- The block that is read for an inode whose descriptor is in the first block of descriptors. -/
theorem recordBlock_eq (h : sb.blockSize ≤ 2)
    (hdesc : inodeGroup sb inode * descSize + descSize ≤ ext2BlockSize sb)
    (hlt : inodeTableBlock sb d.disk inode < wordSize) :
    recordBlock sb d inode = inodeTableBlock sb d.disk inode := by
  have hdesc' : inodeGroup sb inode * 32 + 32 ≤ ext2BlockSize sb := hdesc
  have hoff : inodeGroup sb inode * descSize + 8 + 4 ≤ ext2BlockSize sb := by
    show inodeGroup sb inode * 32 + 8 + 4 ≤ _
    omega
  have hl : Loaded sb (d.fetch sb (descStart sb)) (descStart sb) := loaded_fetch
  have hload := load_eq h hl hoff
  rw [Device.load] at hload
  split at hload
  · have hread := Option.some.inj hload
    rw [recordBlock, hread, ← Nat.add_assoc]
    exact Nat.mod_eq_of_lt hlt
  · cases hload

/-- A descriptor in the first block of descriptors is in the page. -/
theorem desc_in_page (h : sb.blockSize ≤ 2)
    (hdesc : inodeGroup sb inode * descSize + descSize ≤ ext2BlockSize sb) :
    inodeGroup sb inode * descSize + 12 ≤ pageSize := by
  have hdesc' : inodeGroup sb inode * 32 + 32 ≤ ext2BlockSize sb := hdesc
  show inodeGroup sb inode * 32 + 12 ≤ 4096
  rcases ext2BlockSize_eq h with hs | hs | hs <;> omega

/-- The records that are in their places are found by a device that works. -/
theorem Located.recordFound (hloc : Located sb d.disk inode) (wf : LaidOut sb d.disk)
    (hd : d.Working) (hi : IsInode sb inode) : RecordFound sb d inode := by
  have hlt : inodeTableBlock sb d.disk inode < sb.totalBlocks := wf.inodeTableBlock_lt hi
  have hblock := recordBlock_eq wf.blockSize hloc.desc (Nat.lt_trans hlt wf.totalBlocks)
  refine ⟨hd _, desc_in_page wf.blockSize hloc.desc, ?_, hd _, fun i _ => ?_⟩
  · rw [hblock]
    exact Nat.le_of_lt hlt
  · rw [recordPos, hblock, (deviceBlock_eq_iff wf.blockSize).2 hloc.near]
    rfl

/-- **When inodes are located as the format says.** On any device with a well-formed image, for
every number: the record of the inode is copied, or the null pointer is returned for a number that
is not one of an inode, if and only if `RecordCondition` holds. -/
theorem ext2_get_inode_iff (wf : LaidOut sb d.disk) :
    RecordRight sb d inode ↔ RecordCondition sb d inode := by
  have hrun : ∀ buffer, ext2GetInodeTo sb d buffer inode = _ :=
    fun buffer => ext2GetInodeTo_eq sb d buffer inode
  by_cases hlt : sb.totalInodes < inode
  · obtain ⟨d', hget⟩ := ext2GetInode_beyond (d := d) wf.blockSize hlt
    refine iff_of_true (fun buffer => ⟨d', none, buffer, by rw [hrun, hget]; rfl,
      fun hi => absurd hi.2 (Nat.not_le_of_lt hlt), fun _ => ⟨rfl, rfl⟩⟩) (.inl hlt)
  · rcases Nat.eq_zero_or_pos inode with rfl | hpos
    · have hnot : ¬ IsInode sb 0 := fun hi => absurd hi.1 (Nat.lt_irrefl 0)
      by_cases hun : DescsUnread sb d
      · obtain ⟨d', hget⟩ := hun.ext2GetInode wf.blockSize 0
        exact iff_of_true (fun buffer => ⟨d', none, buffer, by rw [hrun, hget]; rfl,
          fun hi => absurd hi hnot, fun _ => ⟨rfl, rfl⟩⟩) (.inr (.inl ⟨rfl, hun⟩))
      · refine iff_of_false (fun hright => ?_) ?_
        · obtain ⟨d', ptr, e, hget, -⟩ := hright ⟨fun _ => 0⟩
          rw [hrun, ext2GetInode_zero_none wf hun] at hget
          cases hget
        · rintro (h | ⟨-, h⟩ | ⟨h, -⟩)
          · exact hlt h
          · exact hun h
          · exact hnot h
    · have hi : IsInode sb inode := ⟨hpos, Nat.le_of_not_lt hlt⟩
      have h := wf.geometry hi
      constructor
      · intro hright
        obtain ⟨d', ptr, e, hget, hin, -⟩ := hright ⟨fun _ => 0⟩
        obtain ⟨hptr, hagrees⟩ := hin hi
        rw [hrun, Option.map_eq_some_iff] at hget
        obtain ⟨⟨d₁, buf⟩, hget, heq⟩ := hget
        cases buf with
        | none =>
          cases heq
          exact absurd rfl hptr
        | some r =>
          obtain ⟨off, e₁⟩ := r
          cases heq
          exact .inr (.inr ⟨hi, recordFound_of_run h hi hget hagrees⟩)
      · rintro (hlt' | ⟨rfl, -⟩ | ⟨-, hf⟩)
        · exact absurd hlt' hlt
        · exact absurd hpos (Nat.lt_irrefl 0)
        · exact fun buffer => ⟨_, _, _, by rw [hrun, hf.ext2GetInode h hi]; rfl,
            fun _ => ⟨by simp, hf.agrees h⟩, fun hnot => absurd hi hnot⟩

theorem tableDisk_recordFound :
    RecordFound smallSuperblock (System.connect tableDisk).dev 1 := by
  have hloc : Located smallSuperblock (System.connect tableDisk).dev.disk 1 := by
    refine ⟨by decide, ?_⟩
    unfold Near
    decide +kernel
  exact hloc.recordFound tableDisk_wellFormed.connect.toLaidOut (System.connect_working tableDisk)
    smallSuperblock_inode

/-- The record of the inode `1` of an image. -/
theorem ext2_get_inode_iff_table :
    RecordRight smallSuperblock (System.connect tableDisk).dev 1 :=
  (ext2_get_inode_iff tableDisk_wellFormed.connect.toLaidOut).2
    (.inr (.inr ⟨smallSuperblock_inode, tableDisk_recordFound⟩))

/-- The inode zero is looked for behind the page. -/
theorem ext2_get_inode_zero : ¬ ∀ (sb : Superblock) (d : Device) (inode : ℕ),
    WellFormed sb d.disk → d.Working → inode < wordSize → RecordRight sb d inode := by
  intro h
  have wf := tableDisk_wellFormed.connect
  have hun : ¬ DescsUnread smallSuperblock (System.connect tableDisk).dev := by
    unfold DescsUnread
    decide
  obtain ⟨d', ptr, e, hget, -⟩ := h smallSuperblock _ 0 wf (System.connect_working tableDisk)
    (by decide) ⟨fun _ => 0⟩
  rw [ext2GetInodeTo_eq, ext2GetInode_zero_none wf.toLaidOut hun] at hget
  cases hget

end C4OS.Ext2
