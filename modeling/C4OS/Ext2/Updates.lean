import C4OS.Ext2.Growth
import C4OS.Ext2.Records
import C4OS.Ext2.WriteRequests

/-!
# Updates of records

What `ext2_inode_update` does to the disk and to what `ext2_get_inode` returns afterwards, for every
inode of an image whose descriptors are in one block. The record is written where the one that
`ext2_get_inode` reads is, so that it is read back. This place is the entry of the inode when the
entry is in the first 4 GiB (`Near`). Behind them the place is that of another block, which may
have anything in it, and for the same reason an entry behind the first 4 GiB may be read from the
place of the one that is updated.

`ext2_inode_update_iff` says when an update is local: the entry is near and no other inode is read
from it, or the bytes of the record are at the place already.
-/

namespace C4OS.Ext2

open Foundations

variable {sb : Superblock} {disk : ℕ → UInt8} {d d' : Device} {e : Inode} {inode inode' i : ℕ}

/-! ## What is read -/

/-- The bytes of a record on the disk. -/
def recordBytes (disk : ℕ → UInt8) (pos : ℕ) : List UInt8 :=
  (List.range inodeRecordSize).map fun i => disk (pos + i)

/-- The bytes of a record. -/
def Inode.bytes (e : Inode) : List UInt8 := (List.range inodeRecordSize).map e.byte

/-- What `ext2_get_inode` returns: the place of the record in the page and its bytes, or nothing
for the null pointer. -/
def recordRead (sb : Superblock) (d : Device) (inode : ℕ) : Option (Option (ℕ × List UInt8)) :=
  (ext2GetInode sb d inode).map fun r => r.2.map fun buf => (buf.1, buf.2.bytes)

/-- The place of the block of the inode table, as the device is asked for it, and of the record in
it. -/
def tablePos (sb : Superblock) (disk : ℕ → UInt8) (inode : ℕ) : ℕ :=
  blockStart sb (deviceBlock sb (inodeTableBlock sb disk inode)) + inodeOffset sb inode

/-- Bytes that are equal. -/
theorem map_range_eq_iff {f g : ℕ → UInt8} {n : ℕ} :
    (List.range n).map f = (List.range n).map g ↔ ∀ i < n, f i = g i := by
  rw [List.map_inj_left]
  simp only [List.mem_range]

/-- An image whose descriptors are in one block. -/
structure DescsInBlock (sb : Superblock) (disk : ℕ → UInt8) : Prop extends LaidOut sb disk where
  descs : groupCount sb * descSize ≤ ext2BlockSize sb

theorem DescsInBlock.desc (wf : DescsInBlock sb disk) (hi : IsInode sb inode) :
    inodeGroup sb inode * descSize + descSize ≤ ext2BlockSize sb := by
  have hlt := wf.inodeGroup_lt hi
  have hdescs : groupCount sb * 32 ≤ ext2BlockSize sb := wf.descs
  show inodeGroup sb inode * 32 + 32 ≤ _
  omega

/-- **What is read of an inode.** -/
theorem recordRead_eq (wf : LaidOut sb d.disk) (hd : d.Working) (hi : IsInode sb inode)
    (hdesc : inodeGroup sb inode * descSize + descSize ≤ ext2BlockSize sb)
    (hle : inodeTableBlock sb d.disk inode ≤ sb.totalBlocks) :
    recordRead sb d inode =
      some (some (inodeOffset sb inode, recordBytes d.disk (tablePos sb d.disk inode))) := by
  have h := wf.geometry hi
  have hblock := recordBlock_eq (d := d) h.blockSize hdesc (Nat.lt_of_le_of_lt hle h.totalBlocks)
  rw [recordRead, ext2GetInode_record h hd hi, if_pos (desc_in_page h.blockSize hdesc), hblock,
    if_pos hle]
  show some (some (inodeOffset sb inode, Inode.bytes _)) = _
  rw [Inode.bytes, recordBytes, map_range_eq_iff.2 fun i hi => ?_]
  rw [pageInode_fetchRecord h hi, recordPos, hblock, tablePos]

/-- Two disks with the same descriptors. -/
theorem SameMaps.recordRead_eq {disk' : ℕ → UInt8} (hs : SameMaps sb disk disk')
    (wf : DescsInBlock sb disk) (hi : IsInode sb inode) (hd : d.Working) (hdisk : d.disk = disk') :
    recordRead sb d inode =
      some (some (inodeOffset sb inode, recordBytes disk' (tablePos sb disk inode))) := by
  subst hdisk
  have hblock := hs.inodeTableBlock_eq wf.toLaidOut hi
  have hle := Nat.le_of_lt (wf.inodeTableBlock_lt hi)
  rw [Ext2.recordRead_eq (hs.laidOut wf.toLaidOut) hd hi (wf.desc hi) (hblock ▸ hle), tablePos,
    tablePos, hblock]

/-- What is read for a number that is not one of an inode does not depend on the disk. -/
theorem recordRead_of_not_isInode {d₁ d₂ : Device} (h : Geometry sb) (hd₁ : d₁.Working)
    (hd₂ : d₂.Working) (hi : ¬ IsInode sb inode) :
    recordRead sb d₁ inode = recordRead sb d₂ inode := by
  rcases Nat.eq_zero_or_pos inode with rfl | hpos
  · rw [recordRead, recordRead, ext2GetInode_zero h hd₁, ext2GetInode_zero h hd₂]
  · have hlt : sb.totalInodes < inode := Nat.lt_of_not_le fun hle => hi ⟨hpos, hle⟩
    rw [recordRead, recordRead, ext2GetInode_of_lt h hd₁ hlt, ext2GetInode_of_lt h hd₂ hlt]
    rfl

/-! ## What is written -/

/-- The disk with a record at a position. -/
def recordAt (disk : ℕ → UInt8) (pos : ℕ) (e : Inode) : ℕ → UInt8 := fun c =>
  if pos ≤ c ∧ c < pos + inodeRecordSize then e.byte (c - pos) else disk c

theorem recordAt_of_notMem {pos c : ℕ} (h : c < pos ∨ pos + inodeRecordSize ≤ c) :
    recordAt disk pos e c = disk c := if_neg (by omega)

theorem recordAt_add {pos : ℕ} (hi : i < inodeRecordSize) :
    recordAt disk pos e (pos + i) = e.byte i := by
  rw [recordAt, if_pos (by omega), Nat.add_sub_cancel_left]

/-- A record that is there already. -/
theorem recordAt_eq_self {pos : ℕ} (h : ∀ i < inodeRecordSize, disk (pos + i) = e.byte i) :
    recordAt disk pos e = disk := by
  funext c
  rw [recordAt]
  split
  · next hc =>
    rw [← h (c - pos) (by omega)]
    congr 1
    omega
  · rfl

/-- The record of an inode is within its block. -/
theorem LaidOut.record_mem (wf : LaidOut sb disk) (inode : ℕ) :
    inodeOffset sb inode + inodeRecordSize ≤ ext2BlockSize sb := by
  have hoff := wf.inodeOffset_le inode
  have hsize := wf.inodeSize.1
  show _ + 120 ≤ _
  omega

/-- The disk after a record is stored in the page and the page is written to its block. -/
theorem flush_record {b off : ℕ} (hl : Loaded sb d b)
    (hoff : off + inodeRecordSize ≤ ext2BlockSize sb) :
    (Device.flush { d with
      buffer := fun c => if off ≤ c ∧ c < off + inodeRecordSize then e.byte (c - off)
        else d.buffer c } sb b).disk = recordAt d.disk (blockStart sb b + off) e := by
  funext c
  show (if blockStart sb b ≤ c ∧ c < blockStart sb b + ext2BlockSize sb then
    (if off ≤ c - blockStart sb b ∧ c - blockStart sb b < off + inodeRecordSize then
      e.byte (c - blockStart sb b - off) else d.buffer (c - blockStart sb b))
    else d.disk c) = _
  split
  · next hc =>
    split
    · next hin =>
      rw [recordAt, if_pos (by omega), Nat.sub_sub]
    · next hin =>
      rw [recordAt, if_neg (by omega), hl _ (by omega)]
      congr 1
      omega
  · next hc => rw [recordAt, if_neg (by omega)]

/-- **The disk after `ext2_inode_update`.** -/
theorem ext2InodeUpdate_tablePos (wf : DescsInBlock sb d.disk) (hd : d.Working)
    (hi : IsInode sb inode) (e : Inode) :
    ∃ d', ext2InodeUpdate sb d inode e = some (d', inode) ∧ d'.Working ∧
      d'.disk = recordAt d.disk (tablePos sb d.disk inode) e := by
  have h := wf.geometry hi
  have hlt := wf.inodeTableBlock_lt hi
  have hblock := recordBlock_eq (d := d) h.blockSize (wf.desc hi) (Nat.lt_trans hlt h.totalBlocks)
  have hle : recordBlock sb d inode ≤ sb.totalBlocks := hblock ▸ Nat.le_of_lt hlt
  obtain ⟨d', r, hrun, hd', hlike, hr⟩ :=
    exists_inodeUpdate h hd hi (desc_in_page h.blockSize (wf.desc hi)) e
  rw [hr hle] at hrun
  refine ⟨d', hrun, hd', ?_⟩
  have hl : Loaded sb (fetchRecord sb d inode) (deviceBlock sb (recordBlock sb d inode)) :=
    loaded_fetch
  rw [hlike.1, recordPage, if_pos hle, flush_record hl (wf.record_mem inode), hblock]
  rfl

/-! ## When an update is local -/

/-- An update returns, the record is read back, what is read of other inodes is as before, and no
byte outside of the entry of the inode is changed. -/
def UpdateRight (sb : Superblock) (d : Device) (inode : ℕ) (e : Inode) : Prop :=
  ∃ d', ext2InodeUpdate sb d inode e = some (d', inode) ∧
    recordRead sb d' inode = some (some (inodeOffset sb inode, e.bytes)) ∧
    (∀ j, j ≠ inode → recordRead sb d' j = recordRead sb d j) ∧
    ∀ c, c < inodePos sb d.disk inode ∨ inodePos sb d.disk inode + sb.inodeSize ≤ c →
      d'.disk c = d.disk c

/-- No other inode is looked for in the entry of an inode. -/
def Unaliased (sb : Superblock) (disk : ℕ → UInt8) (inode : ℕ) : Prop :=
  ∀ j, IsInode sb j → j ≠ inode →
    ¬ (deviceBlock sb (inodeTableBlock sb disk j) = inodeTableBlock sb disk inode ∧
      inodeOffset sb j = inodeOffset sb inode)

/-- When an update is local. -/
def UpdateFits (sb : Superblock) (d : Device) (inode : ℕ) (e : Inode) : Prop :=
  (∀ i < inodeRecordSize, d.disk (tablePos sb d.disk inode + i) = e.byte i) ∨
    Near sb (inodeTableBlock sb d.disk inode) ∧ Unaliased sb d.disk inode

/-- The records at different offsets of one block, or in different blocks, have no byte in common.
-/
theorem apart_of_offset (wf : LaidOut sb disk) (inode inode' : ℕ) {b b' : ℕ} (hne : b = b' →
    inodeOffset sb inode ≠ inodeOffset sb inode') :
    blockStart sb b + inodeOffset sb inode + sb.inodeSize ≤
        blockStart sb b' + inodeOffset sb inode' ∨
      blockStart sb b' + inodeOffset sb inode' + sb.inodeSize ≤
        blockStart sb b + inodeOffset sb inode := by
  have hle := wf.inodeOffset_le inode
  have hle' := wf.inodeOffset_le inode'
  by_cases hb : b = b'
  · have hoff := hne hb
    rw [hb]
    unfold inodeOffset at hoff ⊢
    generalize (inode - 1) % sb.inodesPerGroup % (ext2BlockSize sb / sb.inodeSize) = x at hoff ⊢
    generalize (inode' - 1) % sb.inodesPerGroup % (ext2BlockSize sb / sb.inodeSize) = y at hoff ⊢
    have hxy : x ≠ y := fun h => hoff (by rw [h])
    rcases Nat.lt_or_gt_of_ne hxy with hlt | hlt
    · have := Nat.mul_le_mul_right sb.inodeSize hlt
      rw [Nat.succ_mul] at this
      omega
    · have := Nat.mul_le_mul_right sb.inodeSize hlt
      rw [Nat.succ_mul] at this
      omega
  · have := blockStart_disjoint sb hb
    omega

theorem tablePos_of_near (wf : LaidOut sb disk) (hn : Near sb (inodeTableBlock sb disk inode)) :
    tablePos sb disk inode = inodePos sb disk inode := by
  rw [tablePos, (deviceBlock_eq_iff wf.blockSize).2 hn, inodePos_eq]

/-- The update of a near entry leaves the descriptors alone. -/
theorem sameMaps_recordAt (wf : LaidOut sb disk) (hi : IsInode sb inode)
    (hn : Near sb (inodeTableBlock sb disk inode)) :
    SameMaps sb disk (recordAt disk (tablePos sb disk inode) e) := by
  rw [tablePos_of_near wf hn]
  exact recordDisk_sameMaps wf hi

theorem recordBytes_congr {disk' : ℕ → UInt8} {pos : ℕ}
    (h : ∀ i < inodeRecordSize, disk' (pos + i) = disk (pos + i)) :
    recordBytes disk' pos = recordBytes disk pos := map_range_eq_iff.2 h

/-- An update that fits is local. -/
theorem UpdateFits.right (hf : UpdateFits sb d inode e) (wf : DescsInBlock sb d.disk)
    (hd : d.Working) (hi : IsInode sb inode) : UpdateRight sb d inode e := by
  have h := wf.geometry hi
  have hrefl : SameMaps sb d.disk d.disk := fun _ _ _ _ => rfl
  obtain ⟨d', hrun, hd', hdisk⟩ := ext2InodeUpdate_tablePos wf hd hi e
  have hself : recordBytes (recordAt d.disk (tablePos sb d.disk inode) e)
      (tablePos sb d.disk inode) = e.bytes :=
    map_range_eq_iff.2 fun i hi => recordAt_add hi
  rcases hf with hsame | ⟨hnear, hun⟩
  · -- nothing is changed
    rw [recordAt_eq_self hsame] at hself hdisk
    refine ⟨d', hrun, ?_, fun j _ => ?_, fun c _ => by rw [hdisk]⟩
    · rw [hrefl.recordRead_eq wf hi hd' hdisk, hself]
    · by_cases hj : IsInode sb j
      · rw [hrefl.recordRead_eq wf hj hd' hdisk, hrefl.recordRead_eq wf hj hd rfl]
      · exact recordRead_of_not_isInode h hd' hd hj
  · have hs := sameMaps_recordAt (e := e) wf.toLaidOut hi hnear
    refine ⟨d', hrun, ?_, fun j hne => ?_, fun c hc => ?_⟩
    · rw [hs.recordRead_eq wf hi hd' hdisk, hself]
    · by_cases hj : IsInode sb j
      · rw [hs.recordRead_eq wf hj hd' hdisk, hrefl.recordRead_eq wf hj hd rfl]
        have hsize := wf.inodeSize.1
        have hrecord : inodeRecordSize = 120 := rfl
        have hoff : deviceBlock sb (inodeTableBlock sb d.disk j) =
            deviceBlock sb (inodeTableBlock sb d.disk inode) →
            inodeOffset sb j ≠ inodeOffset sb inode := fun hb hoff =>
          hun j hj hne ⟨hb.trans ((deviceBlock_eq_iff wf.blockSize).2 hnear), hoff⟩
        have hapart := apart_of_offset wf.toLaidOut j inode hoff
        rw [recordBytes_congr fun i hi => recordAt_of_notMem ?_]
        rw [tablePos, tablePos]
        omega
      · exact recordRead_of_not_isInode h hd' hd hj
    · have hsize := wf.inodeSize.1
      have hrecord : inodeRecordSize = 120 := rfl
      rw [hdisk, tablePos_of_near wf.toLaidOut hnear]
      exact recordAt_of_notMem (by omega)

/-- A local update fits. -/
theorem UpdateRight.fits (hr : UpdateRight sb d inode e) (wf : DescsInBlock sb d.disk)
    (hd : d.Working) (hi : IsInode sb inode) : UpdateFits sb d inode e := by
  obtain ⟨d', hrun, -, hothers, hbytes⟩ := hr
  obtain ⟨d₁, hrun₁, hd', hdisk⟩ := ext2InodeUpdate_tablePos wf hd hi e
  cases hrun.symm.trans hrun₁
  by_cases hsame : ∀ i < inodeRecordSize, d.disk (tablePos sb d.disk inode + i) = e.byte i
  · exact .inl hsame
  · right
    simp only [not_forall] at hsame
    obtain ⟨i, hlt, hne⟩ := hsame
    have hwritten : d'.disk (tablePos sb d.disk inode + i) = e.byte i := by
      rw [hdisk, recordAt_add hlt]
    -- the byte that is changed is in the entry, so that the block is where it is looked for
    have hnear : Near sb (inodeTableBlock sb d.disk inode) := by
      by_contra hfar
      have hmem := wf.record_mem inode
      have hentry := wf.inodeOffset_le inode
      have hdis := blockStart_disjoint sb fun h => hfar ((deviceBlock_eq_iff wf.blockSize).1 h)
      have hkept := hbytes (tablePos sb d.disk inode + i) (by
        rw [tablePos, inodePos_eq]
        omega)
      exact hne (hkept.symm.trans hwritten)
    refine ⟨hnear, fun j hj hji ⟨hb, hoff⟩ => ?_⟩
    have hpos : tablePos sb d.disk j = tablePos sb d.disk inode := by
      rw [tablePos, tablePos, hb, hoff, (deviceBlock_eq_iff wf.blockSize).2 hnear]
    have hs := sameMaps_recordAt (e := e) wf.toLaidOut hi hnear
    have hrefl : SameMaps sb d.disk d.disk := fun _ _ _ _ => rfl
    have hread := hothers j hji
    rw [hs.recordRead_eq wf hj hd' hdisk, hrefl.recordRead_eq wf hj hd rfl, hpos, ← hdisk] at hread
    simp only [Option.some.injEq, Prod.mk.injEq, true_and] at hread
    exact hne ((map_range_eq_iff.1 hread i hlt).symm.trans hwritten)

/-- When all entries are near, no other inode is looked for in the entry of an inode. -/
theorem unaliased_of_near (wf : LaidOut sb disk) (hi : IsInode sb inode)
    (hnear : ∀ j, IsInode sb j → Near sb (inodeTableBlock sb disk j)) :
    Unaliased sb disk inode := by
  rintro j hj hne ⟨hb, hoff⟩
  rw [(deviceBlock_eq_iff wf.blockSize).2 (hnear j hj)] at hb
  exact hne (wf.inode_eq hj hi hb hoff)

/-- **When an inode update round-trips and is local.** On every image whose descriptors are in one
block, with a device that works, for every inode and every record. -/
theorem ext2_inode_update_iff (wf : DescsInBlock sb d.disk) (hd : d.Working)
    (hi : IsInode sb inode) : UpdateRight sb d inode e ↔ UpdateFits sb d inode e :=
  ⟨fun hr => hr.fits wf hd hi, fun hf => hf.right wf hd hi⟩

/-- An update in an image that ends before 4 GiB. -/
theorem ext2_inode_update_iff_table :
    UpdateRight smallSuperblock (System.connect tableDisk).dev 1 ⟨fun _ => 1⟩ := by
  have wf : DescsInBlock smallSuperblock (System.connect tableDisk).dev.disk := by
    rw [System.connect_disk]
    exact ⟨tableDisk_wellFormed.toLaidOut, by decide⟩
  have hi := smallSuperblock_inode
  have hnear : ∀ j, IsInode smallSuperblock j → Near smallSuperblock
      (inodeTableBlock smallSuperblock (System.connect tableDisk).dev.disk j) := by
    intro j hj
    have hlt : _ < 64 := wf.inodeTableBlock_lt hj
    show _ * 1024 < 2 ^ 32
    omega
  exact (ext2_inode_update_iff wf (System.connect_working tableDisk) hi).2
    (.inr ⟨hnear 1 hi, unaliased_of_near wf.toLaidOut hi hnear⟩)

/-! ## An image that is larger than 4 GiB -/

/-- The superblock of an image with 33 groups of blocks of 4096 bytes. -/
def wideSuperblock : Superblock := ⟨33 * 32, 33 * 32768, 2, 32768, 32, 128⟩

/-- The descriptor of a group of the image: the bitmaps and the table are in its blocks 2, 3, 4. -/
def wideDesc (g : ℕ) : ℕ → UInt8 :=
  writeLE 2 (writeLE 4 (writeLE 4 (writeLE 4 (fun _ => 0) 0 (g * 32768 + 2)) 4 (g * 32768 + 3)) 8
    (g * 32768 + 4)) 12 (if g = 0 then 32763 else 32765)

/-- The bytes of the blocks of the image: the descriptors, and the first bytes of the bitmaps. -/
def wideByte (b o : ℕ) : UInt8 :=
  if b = 1 then wideDesc (o / 32) (o % 32)
  else if b % 32768 = 2 ∧ o = 0 then (if b = 2 then 0x1f else 0x1c)
  else 0

/-- An image with 33 groups, of which the last is behind the first 4 GiB. -/
def wideDisk : ℕ → UInt8 := fun c => wideByte ((c - 2 ^ 20) / 4096) ((c - 2 ^ 20) % 4096)

theorem wideDisk_block {b o : ℕ} (ho : o < 4096) :
    wideDisk (blockStart wideSuperblock b + o) = wideByte b o := by
  have hstart : blockStart wideSuperblock b + o = 2 ^ 20 + (b * 4096 + o) := Nat.add_assoc _ _ _
  have hb : (b * 4096 + o) / 4096 = b := by omega
  have ho' : (b * 4096 + o) % 4096 = o := by omega
  rw [wideDisk, hstart, Nat.add_sub_cancel_left, hb, ho']

/-- The numbers in the descriptors. -/
theorem wideDisk_desc : ∀ g < 33, blockMap wideSuperblock wideDisk g = g * 32768 + 2 ∧
    inodeMap wideSuperblock wideDisk g = g * 32768 + 3 ∧
    inodeTable wideSuperblock wideDisk g = g * 32768 + 4 ∧
    unallocedBlocks wideSuperblock wideDisk g = if g = 0 then 32763 else 32765 := by
  decide +kernel

/-- The parts of the image. -/
theorem wideDisk_parts {m : Meta} (hm : m.Valid wideSuperblock) :
    m = .desc 0 ∨ ∃ g < 33, m = .blockMap g ∨ m = .inodeMap g ∨ m = .inodeTable g 0 := by
  have hcount : groupCount wideSuperblock = 33 := by decide
  cases m with
  | desc k =>
    have hk : k * 4096 < groupCount wideSuperblock * 32 := hm
    rw [hcount] at hk
    obtain rfl : k = 0 := by omega
    exact .inl rfl
  | blockMap g => exact .inr ⟨g, hcount ▸ hm, .inl rfl⟩
  | inodeMap g => exact .inr ⟨g, hcount ▸ hm, .inr (.inl rfl)⟩
  | inodeTable g k =>
    obtain ⟨hg, hk⟩ := hm
    have hk' : k * 4096 < 32 * 128 := hk
    obtain rfl : k = 0 := by omega
    exact .inr ⟨g, hcount ▸ hg, .inr (.inr rfl)⟩

/-- The block of a part. -/
theorem wideDisk_meta {m : Meta} (hm : m.Valid wideSuperblock) :
    m = .desc 0 ∧ m.block wideSuperblock wideDisk = 1 ∨
    ∃ g < 33, m = .blockMap g ∧ m.block wideSuperblock wideDisk = g * 32768 + 2 ∨
      m = .inodeMap g ∧ m.block wideSuperblock wideDisk = g * 32768 + 3 ∨
      m = .inodeTable g 0 ∧ m.block wideSuperblock wideDisk = g * 32768 + 4 := by
  rcases wideDisk_parts hm with rfl | ⟨g, hg, rfl | rfl | rfl⟩
  · exact .inl ⟨rfl, by rw [Meta.block]; decide⟩
  · exact .inr ⟨g, hg, .inl ⟨rfl, by rw [Meta.block, (wideDisk_desc g hg).1]⟩⟩
  · exact .inr ⟨g, hg, .inr (.inl ⟨rfl, by rw [Meta.block, (wideDisk_desc g hg).2.1]⟩)⟩
  · exact .inr ⟨g, hg, .inr (.inr ⟨rfl, by
      rw [Meta.block, (wideDisk_desc g hg).2.2.1, Nat.add_zero]⟩)⟩

/-- The bits of the bitmaps. -/
theorem wideDisk_bit {g n : ℕ} (hn : n < 32768) :
    bit wideSuperblock wideDisk (g * 32768 + 2) n =
      (decide (n < 8) && (if g = 0 then 0x1f else 0x1c : ℕ).testBit n) := by
  have hb : (g * 32768 + 2) % 32768 = 2 := by omega
  have hne : ¬ g * 32768 + 2 = 1 := by omega
  rw [bit, bitAt, wideDisk_block (by omega), wideByte, if_neg hne]
  by_cases hlt : n < 8
  · rw [if_pos ⟨hb, by omega⟩, Nat.mod_eq_of_lt hlt, decide_eq_true hlt, Bool.true_and]
    by_cases hg : g = 0
    · rw [if_pos (by omega), if_pos hg]
      rfl
    · rw [if_neg (by omega), if_neg hg]
      rfl
  · rw [if_neg (by omega), decide_eq_false hlt, Bool.false_and]
    exact Nat.zero_testBit _

/-- The numbers that are kept, all from `m` on. -/
theorem length_filter_add {p : ℕ → Bool} {m n : ℕ} (h : ∀ j < n, p (m + j) = true) :
    ((List.range (m + n)).filter p).length = ((List.range m).filter p).length + n := by
  have hrest : ((List.range n).map (m + ·)).filter p = (List.range n).map (m + ·) := by
    rw [List.filter_eq_self]
    intro k hk
    obtain ⟨j, hj, rfl⟩ := List.mem_map.1 hk
    exact h j (List.mem_range.1 hj)
  rw [List.range_add, List.filter_append, hrest, List.length_append, List.length_map,
    List.length_range]

/-- The free blocks of a group. -/
theorem wideDisk_free {g k : ℕ} (hk : ((List.range 8).filter fun n =>
    !(if g = 0 then 0x1f else 0x1c : ℕ).testBit n).length = k) :
    ((List.range 32768).filter fun n =>
      !bit wideSuperblock wideDisk (g * 32768 + 2) n).length = k + 32760 := by
  have hfirst : (List.range 8).filter (fun n =>
      !bit wideSuperblock wideDisk (g * 32768 + 2) n) =
      (List.range 8).filter fun n => !(if g = 0 then 0x1f else 0x1c : ℕ).testBit n := by
    refine List.filter_congr fun n hn => ?_
    have hlt := List.mem_range.1 hn
    rw [wideDisk_bit (by omega), decide_eq_true hlt, Bool.true_and]
  have hall : ∀ j < 32760, (!bit wideSuperblock wideDisk (g * 32768 + 2) (8 + j)) = true := by
    intro j hj
    rw [wideDisk_bit (by omega), decide_eq_false (by omega), Bool.false_and]
    rfl
  have hsum := length_filter_add (m := 8) (n := 32760)
    (p := fun n => !bit wideSuperblock wideDisk (g * 32768 + 2) n) hall
  rw [hfirst, hk] at hsum
  exact hsum

/-- The bit of a block. -/
theorem wideDisk_blockBit {g j : ℕ} (hg : g < 33) (hj : j < 32768) :
    blockBit wideSuperblock wideDisk (g * 32768 + j) =
      (decide (j < 8) && (if g = 0 then 0x1f else 0x1c : ℕ).testBit j) := by
  have hsuper : superblockBlock wideSuperblock = 0 := by decide
  have hdiv : (g * 32768 + j) / 32768 = g := by omega
  have hmod : (g * 32768 + j) % 32768 = j := by omega
  rw [blockBit, hsuper, Nat.sub_zero]
  show bit _ _ (blockMap _ _ ((g * 32768 + j) / 32768)) ((g * 32768 + j) % 32768) = _
  rw [hdiv, hmod, (wideDisk_desc g hg).1, wideDisk_bit hj]

/-- The inodes are clear. -/
theorem wideDisk_inode {inode i : ℕ} (hi : IsInode wideSuperblock inode) (hlt : i < 128) :
    (inodeRecord wideSuperblock wideDisk inode).byte i = 0 := by
  have hle : inode ≤ 1056 := hi.2
  have hpos := hi.1
  have hgroup : (inode - 1) / 32 < 33 := by omega
  have hindex : (inode - 1) % 32 / (4096 / 128) = 0 := by omega
  have hpos : inodePos wideSuperblock wideDisk inode =
      blockStart wideSuperblock ((inode - 1) / 32 * 32768 + 4) + (inode - 1) % 32 % 32 * 128 := by
    show blockStart wideSuperblock (inodeTable wideSuperblock wideDisk ((inode - 1) / 32) +
      (inode - 1) % 32 / (4096 / 128)) + _ = _
    rw [(wideDisk_desc _ hgroup).2.2.1, hindex]
    rfl
  show wideDisk (inodePos _ _ _ + i) = 0
  rw [hpos, Nat.add_assoc, wideDisk_block (by omega), wideByte, if_neg (by omega),
    if_neg (by omega)]

theorem wideDisk_wellFormed : WellFormed wideSuperblock wideDisk := by
  have hcount : groupCount wideSuperblock = 33 := by decide
  have hsuper : superblockBlock wideSuperblock = 0 := by decide
  have hblocks : ∀ g < 33, groupBlocks wideSuperblock g = 32768 := by decide
  constructor
  · constructor
    · decide
    · decide
    · decide
    · decide
    · decide
    · rw [hcount]
      decide
    · intro m hm
      show superblockBlock wideSuperblock < _ ∧ _ < 33 * 32768
      rw [hsuper]
      rcases wideDisk_meta hm with ⟨-, hb⟩ | ⟨g, hg, ⟨-, hb⟩ | ⟨-, hb⟩ | ⟨-, hb⟩⟩ <;> omega
    · intro m m' hm hm' he
      rcases wideDisk_meta hm with ⟨rfl, hb⟩ | ⟨g, hg, ⟨rfl, hb⟩ | ⟨rfl, hb⟩ | ⟨rfl, hb⟩⟩
      all_goals rcases wideDisk_meta hm' with
        ⟨rfl, hb'⟩ | ⟨g', hg', ⟨rfl, hb'⟩ | ⟨rfl, hb'⟩ | ⟨rfl, hb'⟩⟩
      all_goals simp only [hb, hb'] at he
      all_goals first | rfl | omega | (obtain rfl : g = g' := by omega); rfl
  · intro m hm
    rcases wideDisk_meta hm with ⟨-, hb⟩ | ⟨g, hg, ⟨-, hb⟩ | ⟨-, hb⟩ | ⟨-, hb⟩⟩
    · rw [hb, ← Nat.zero_add 1, ← Nat.zero_mul 32768, wideDisk_blockBit (by decide) (by decide)]
      decide
    all_goals
      rw [hb, wideDisk_blockBit hg (by decide)]
      split <;> decide
  · rw [hsuper, ← Nat.zero_add 0, ← Nat.zero_mul 32768,
      wideDisk_blockBit (by decide) (by decide)]
    decide
  · intro g hg n hn hn'
    rw [hblocks g (hcount ▸ hg)] at hn
    exact absurd hn (Nat.not_le_of_lt hn')
  · intro g hg
    have hg' : g < 33 := hcount ▸ hg
    rw [hblocks g hg', (wideDisk_desc g hg').1, (wideDisk_desc g hg').2.2.2]
    by_cases hzero : g = 0
    · rw [if_pos hzero, wideDisk_free (k := 3) (by rw [if_pos hzero]; decide)]
    · rw [if_neg hzero, wideDisk_free (k := 5) (by rw [if_neg hzero]; decide)]
  · intro inode hi hne
    refine absurd ?_ hne
    have hzero : ∀ i < 4, (inodeRecord wideSuperblock wideDisk inode).byte (88 + i) = 0 :=
      fun i hi' => wideDisk_inode hi (by omega)
    have h₁ := hzero 1 (by decide)
    have h₂ := hzero 2 (by decide)
    have h₃ := hzero 3 (by decide)
    simp [Inode.singleIndirectPtr, readLE, hzero 0, h₁, h₂, h₃]

/-- The record of the first inode of the last group is written over that of the inode `1`. -/
theorem ext2_inode_update_wide : ¬ ∀ (sb : Superblock) (d : Device) (inode : ℕ) (e : Inode),
    WellFormed sb d.disk → groupCount sb * descSize ≤ ext2BlockSize sb → d.Working →
      IsInode sb inode → UpdateRight sb d inode e := by
  intro h
  have wf := wideDisk_wellFormed.connect
  have hdescs : groupCount wideSuperblock * descSize ≤ ext2BlockSize wideSuperblock := by decide
  have hi : IsInode wideSuperblock 1025 := by unfold IsInode; decide
  have hd := System.connect_working wideDisk
  have hright := h wideSuperblock _ 1025 ⟨fun _ => 1⟩ wf hdescs hd hi
  rcases hright.fits ⟨wf.toLaidOut, hdescs⟩ hd hi with hsame | ⟨hnear, -⟩
  · have hclear : wideDisk (tablePos wideSuperblock wideDisk 1025 + 0) = 0 := by decide +kernel
    have hone := hsame 0 (by decide)
    rw [System.connect_disk, hclear] at hone
    exact absurd hone (by decide)
  · have hfar : ¬ Near wideSuperblock (inodeTableBlock wideSuperblock wideDisk 1025) := by
      unfold Near
      decide +kernel
    rw [System.connect_disk] at hnear
    exact hfar hnear

end C4OS.Ext2
