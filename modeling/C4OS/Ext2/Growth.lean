import C4OS.Ext2.Inodes

/-!
# Growing a file

When `ext2_inode_alloc_block` leaves the blocks of files where they are. A block that is mapped
already is returned and nothing is written. A new block that is found through the direct pointers is
put into the record of the inode: an allocation changes the bitmap and a counter only
(`OnlyBitmap`), and the update one record only (`recordDisk`), so that all other blocks of files are
where they were (`grows_of_fits`).

A new block behind them is put into the table of the indirect block, in `block_buffer`. The
allocation has brought the descriptors of the groups there, and they are what is written as the
table (`growth_overwrites_table`).
-/

namespace C4OS.Ext2

open Foundations

variable {sb : Superblock} {disk disk' : ℕ → UInt8} {d d₁ d' : Device} {e : Inode}
  {g b j block inode inode' : ℕ}

/-! ## What does not change a mapping -/

/-- The block of a file depends on the record of the inode and the table of the indirect block. -/
theorem mapping_congr
    (hrecord : ∀ i < inodeRecordSize, (inodeRecord sb disk' inode).byte i =
      (inodeRecord sb disk inode).byte i)
    (hj : j < ext2PointersPerBlock sb + 12)
    (htable : (inodeRecord sb disk inode).singleIndirectPtr ≠ 0 → ∀ i < ext2BlockSize sb,
      disk' (blockStart sb (inodeRecord sb disk inode).singleIndirectPtr + i) =
        disk (blockStart sb (inodeRecord sb disk inode).singleIndirectPtr + i)) :
    mapping sb disk' inode j = mapping sb disk inode j := by
  have hsingle : (inodeRecord sb disk' inode).singleIndirectPtr =
      (inodeRecord sb disk inode).singleIndirectPtr :=
    readLE_congr fun i hi => hrecord (88 + i) (by show 88 + i < 120; omega)
  rw [mapping, mapping, hsingle]
  split
  · rfl
  · next hcond =>
    unfold fileMap
    split
    · next hlt =>
      exact readLE_congr fun i hi => hrecord (40 + 4 * j + i) (by show 40 + 4 * j + i < 120; omega)
    · next hge =>
      have hne : (inodeRecord sb disk inode).singleIndirectPtr ≠ 0 := fun h => hcond ⟨by omega, h⟩
      have hlt : j < ext2BlockSize sb / 4 + 12 := hj
      rw [hsingle]
      exact readLE_congr fun i hi => htable hne (4 * (j - 12) + i) (by omega)

/-- The table of the indirect block of an inode is no part of the file system. -/
def IndirectApart (sb : Superblock) (disk : ℕ → UInt8) : Prop :=
  ∀ inode, IsInode sb inode → (inodeRecord sb disk inode).singleIndirectPtr ≠ 0 →
    ∀ m : Meta, m.Valid sb → m.block sb disk ≠ (inodeRecord sb disk inode).singleIndirectPtr

theorem WellFormed.indirectApart (wf : WellFormed sb disk) : IndirectApart sb disk :=
  fun inode hi hne => (wf.indirect inode hi hne).2.2

/-! ## The parts of the file system stay where they are -/

/-- The descriptors say the same about where the parts of the file system are. -/
def SameMaps (sb : Superblock) (disk disk' : ℕ → UInt8) : Prop :=
  ∀ g < groupCount sb, ∀ i < 12, disk' (descPos sb g + i) = disk (descPos sb g + i)

namespace SameMaps

theorem desc_eq (hs : SameMaps sb disk disk') {off k : ℕ} (hg : g < groupCount sb)
    (hoff : off + k ≤ 12) :
    readLE k disk' (descPos sb g + off) = readLE k disk (descPos sb g + off) := by
  refine readLE_congr fun i hi => ?_
  rw [Nat.add_assoc]
  exact hs g hg (off + i) (by omega)

theorem metaBlock_eq (hs : SameMaps sb disk disk') {m : Meta} (hm : m.Valid sb) :
    m.block sb disk' = m.block sb disk := by
  cases m with
  | desc k => rfl
  | blockMap g => exact hs.desc_eq hm (by decide : 0 + 4 ≤ 12)
  | inodeMap g => exact hs.desc_eq hm (by decide)
  | inodeTable g k =>
    show readLE 4 disk' (descPos sb g + 8) + k = _
    rw [hs.desc_eq hm.1 (by decide)]
    rfl

theorem laidOut (hs : SameMaps sb disk disk') (wf : LaidOut sb disk) : LaidOut sb disk' := by
  refine ⟨wf.blockSize, wf.totalBlocks, wf.perGroup, wf.inodesPerGroup, wf.inodeSize,
    wf.totalInodes, ?_, ?_⟩
  · intro m hm
    rw [hs.metaBlock_eq hm]
    exact wf.inside m hm
  · intro m m' hm hm' he
    rw [hs.metaBlock_eq hm, hs.metaBlock_eq hm'] at he
    exact wf.distinct m m' hm hm' he

theorem inodeTableBlock_eq (hs : SameMaps sb disk disk') (wf : LaidOut sb disk)
    (hi : IsInode sb inode) : inodeTableBlock sb disk' inode = inodeTableBlock sb disk inode :=
  hs.metaBlock_eq (wf.inodeTable_valid hi)

theorem inodePos_eq (hs : SameMaps sb disk disk') (wf : LaidOut sb disk) (hi : IsInode sb inode) :
    inodePos sb disk' inode = inodePos sb disk inode := by
  rw [Ext2.inodePos_eq, Ext2.inodePos_eq, hs.inodeTableBlock_eq wf hi]

theorem located (hs : SameMaps sb disk disk') (wf : LaidOut sb disk) (hi : IsInode sb inode)
    (hloc : Located sb disk inode) : Located sb disk' inode :=
  ⟨hloc.desc, (hs.inodeTableBlock_eq wf hi).symm ▸ hloc.near⟩

end SameMaps

/-! ## An allocation changes the bitmap of a group only -/

/-- Only the bitmap of a group and its counter are changed. -/
def OnlyBitmap (sb : Superblock) (disk disk' : ℕ → UInt8) (g : ℕ) : Prop :=
  ∀ c, disk' c ≠ disk c →
    (blockStart sb (blockMap sb disk g) ≤ c ∧
      c < blockStart sb (blockMap sb disk g) + ext2BlockSize sb) ∨
    (descPos sb g + 12 ≤ c ∧ c < descPos sb g + 14)

namespace OnlyBitmap

/-- A block that is neither the bitmap nor the block of the descriptor. -/
theorem block_eq (ho : OnlyBitmap sb disk disk' g) (wf : LaidOut sb disk) (hg : g < groupCount sb)
    (hb : ∀ m : Meta, m.Valid sb → (m = .blockMap g ∨ ∃ k, m = .desc k) → m.block sb disk ≠ b)
    {i : ℕ} (hi : i < ext2BlockSize sb) :
    disk' (blockStart sb b + i) = disk (blockStart sb b + i) := by
  by_contra hne
  have hmem : blockStart sb b ≤ blockStart sb b + i ∧
      blockStart sb b + i < blockStart sb b + ext2BlockSize sb := by omega
  rcases ho _ hne with hc | hc
  · exact hb (.blockMap g) hg (.inl rfl) (eq_of_mem_block hc hmem)
  · obtain ⟨hlo, hhi⟩ := descPos_mem wf.blockSize disk g
    have hsize : descSize = 32 := rfl
    exact hb _ (Meta.desc_valid hg) (.inr ⟨_, rfl⟩) (eq_of_mem_block ⟨by omega, by omega⟩ hmem)

theorem sameMaps (ho : OnlyBitmap sb disk disk' g) (wf : LaidOut sb disk) (hg : g < groupCount sb) :
    SameMaps sb disk disk' := by
  intro g' hg' i hi
  by_contra hne
  obtain ⟨hlo, hhi⟩ := descPos_mem wf.blockSize disk g'
  have hsize : descSize = 32 := rfl
  rcases ho _ hne with hc | hc
  · exact wf.blockMap_ne_desc hg hg' (eq_of_mem_block hc ⟨by omega, by omega⟩)
  · have h₁ : descPos sb g = blockStart sb (descStart sb) + g * 32 := rfl
    have h₂ : descPos sb g' = blockStart sb (descStart sb) + g' * 32 := rfl
    omega

theorem inodeRecord_byte (ho : OnlyBitmap sb disk disk' g) (wf : LaidOut sb disk)
    (hg : g < groupCount sb) (hi : IsInode sb inode) {i : ℕ} (hlt : i < inodeRecordSize) :
    (inodeRecord sb disk' inode).byte i = (inodeRecord sb disk inode).byte i := by
  have hoff := wf.inodeOffset_le inode
  have hsize := wf.inodeSize.1
  have hlt' : i < 120 := hlt
  show disk' (inodePos sb disk' inode + i) = disk (inodePos sb disk inode + i)
  rw [(ho.sameMaps wf hg).inodePos_eq wf hi, inodePos_eq, Nat.add_assoc]
  refine ho.block_eq wf hg ?_ (by omega)
  rintro m hm hcase he
  have := wf.distinct _ _ hm (wf.inodeTable_valid hi) he
  rcases hcase with rfl | ⟨k, rfl⟩
  · cases this
  · cases this

theorem indirectApart (ho : OnlyBitmap sb disk disk' g) (wf : LaidOut sb disk)
    (hapart : IndirectApart sb disk) (hg : g < groupCount sb) : IndirectApart sb disk' := by
  intro inode hi
  have hsingle : (inodeRecord sb disk' inode).singleIndirectPtr =
      (inodeRecord sb disk inode).singleIndirectPtr :=
    readLE_congr fun i h₄ => ho.inodeRecord_byte wf hg hi (by show 88 + i < 120; omega)
  rw [hsingle]
  intro hne m hm
  rw [(ho.sameMaps wf hg).metaBlock_eq hm]
  exact hapart inode hi hne m hm

/-- **An allocation leaves the blocks of files where they are.** -/
theorem mapping_eq (ho : OnlyBitmap sb disk disk' g) (wf : LaidOut sb disk)
    (hapart : IndirectApart sb disk) (hg : g < groupCount sb) (hi : IsInode sb inode)
    (hj : j < ext2PointersPerBlock sb + 12) : mapping sb disk' inode j = mapping sb disk inode j :=
  mapping_congr (fun _ hlt => ho.inodeRecord_byte wf hg hi hlt) hj fun hne _ hlt =>
    ho.block_eq wf hg (fun m hm _ => hapart inode hi hne m hm) hlt

end OnlyBitmap

/-! ## The allocations that are tame -/

/-- The scan finds a zero in the first block of the bitmap, or in what is behind it in the page, if
it finds one at all. -/
def FirstBlock (sb : Superblock) (d : Device) (g : ℕ) : Prop :=
  sb.blocksPerGroup ≤ ext2BlockSize sb ∨ ∃ i < ext2BlockSize sb, 32 ∣ i ∧
    ∃ word k, scanWord sb d (blockMap sb d.disk g) i = some word ∧ firstZero word = some k

theorem FirstBlock.reads (hf : FirstBlock sb d g) (hr : d.Reads sb d₁) : FirstBlock sb d₁ g := by
  rcases hf with hle | ⟨i, hi, hdvd, word, k, hword, hzero⟩
  · exact .inl hle
  · refine .inr ⟨i, hi, hdvd, word, k, ?_, hzero⟩
    rw [hr.same.1, hr.scanWord_eq]
    exact hword

/-- An allocation that stays in the first block of the bitmap. -/
theorem onlyBitmap_of_alloc (wf : LaidOut sb d.disk) (hd : d.Working)
    (hg : g < sb.totalBlocks / sb.blocksPerGroup) (hdesc : g * descSize + descSize ≤ ext2BlockSize sb)
    (hnear : Near sb (blockMap sb d.disk g)) (hfirst : FirstBlock sb d g)
    (hrun : ext2AllocBlock sb d g = some (d', b)) (hne : b ≠ 0) :
    OnlyBitmap sb d.disk d'.disk g ∧ d'.Working ∧ b < wordSize := by
  have h := wf.blockSize
  obtain ⟨base, hbase, ⟨-, hb, -⟩ | ⟨i, word, k, n, disk₁, hi, hdvd, hfull, -, -, hdisk₁, hdisk, -, hb,
    hd'⟩⟩ := ext2AllocBlock_cases wf hd hg hrun
  · exact absurd hb hne
  · rw [scanBase_eq h hdesc, Option.some.injEq] at hbase
    subst hbase
    have hlt : i < ext2BlockSize sb := by
      rcases hfirst with hle | ⟨i', hi', hdvd', word', k', hword', hzero'⟩
      · omega
      · by_contra hge
        obtain ⟨word'', hword'', hnone⟩ := hfull i' (Nat.zero_le _) (by omega) (by simpa using hdvd')
        rw [hword', Option.some.injEq] at hword''
        rw [← hword'', hzero'] at hnone
        cases hnone
    have hmod : (blockMap sb d.disk g + i / ext2BlockSize sb) % wordSize = blockMap sb d.disk g := by
      rw [Nat.div_eq_of_lt hlt, Nat.add_zero]
      exact Nat.mod_eq_of_lt (blockMap_lt g)
    rw [hmod, (deviceBlock_eq_iff h).2 hnear] at hdisk₁
    refine ⟨fun c hc => ?_, hd', hb ▸ Nat.mod_lt _ (by decide)⟩
    by_cases hc₁ : disk₁ c = d.disk c
    · rw [← hc₁, hdisk] at hc
      obtain ⟨-, hlo, hhi⟩ := storeDisk_ne hc
      have hpos : descPos sb g = blockStart sb (descStart sb) + g * 32 := rfl
      have hsize : g * descSize = g * 32 := rfl
      exact .inr (by omega)
    · rw [hdisk₁] at hc₁
      obtain ⟨hin, hlo, hhi⟩ := storeDisk_ne hc₁
      exact .inl (by omega)

/-! ## An update changes one record only -/

theorem recordDisk_of_notMem {c : ℕ}
    (h : c < inodePos sb disk inode ∨ inodePos sb disk inode + inodeRecordSize ≤ c) :
    recordDisk sb disk inode e c = disk c := if_neg (by omega)

theorem recordDisk_block_eq {i : ℕ} (wf : LaidOut sb disk)
    (hb : b ≠ inodeTableBlock sb disk inode) (hi : i < ext2BlockSize sb) :
    recordDisk sb disk inode e (blockStart sb b + i) = disk (blockStart sb b + i) := by
  have hoff := wf.inodeOffset_le inode
  have hsize := wf.inodeSize.1
  have hdis := blockStart_disjoint sb hb
  have hrecord : inodeRecordSize = 120 := rfl
  have hpos := inodePos_eq sb disk inode
  exact recordDisk_of_notMem (by omega)

/-- The parts of the file system are where they were. -/
theorem recordDisk_sameMaps (wf : LaidOut sb disk) (hi : IsInode sb inode) :
    SameMaps sb disk (recordDisk sb disk inode e) := by
  intro g hg i hlt
  obtain ⟨hlo, hhi⟩ := descPos_mem wf.blockSize disk g
  have hsize : descSize = 32 := rfl
  have hrecord : inodeRecordSize = 120 := rfl
  have hoff := wf.inodeOffset_le inode
  have hinode := wf.inodeSize.1
  have hpos := inodePos_eq sb disk inode
  have hne : Meta.block sb disk (.desc (g * descSize / ext2BlockSize sb)) ≠
      inodeTableBlock sb disk inode := by
    intro he
    cases wf.distinct _ _ (Meta.desc_valid hg) (wf.inodeTable_valid hi) he
  have hdis := blockStart_disjoint sb hne
  exact recordDisk_of_notMem (by omega)

/-- The record of another inode. -/
theorem inodeRecord_byte_of_ne (wf : LaidOut sb disk) (hi : IsInode sb inode)
    (hi' : IsInode sb inode') (hne : inode ≠ inode') {i : ℕ} (hlt : i < inodeRecordSize) :
    (inodeRecord sb (recordDisk sb disk inode e) inode').byte i =
      (inodeRecord sb disk inode').byte i := by
  have hdis := inodePos_disjoint wf hi hi' hne
  have hsize := wf.inodeSize.1
  have hrecord : inodeRecordSize = 120 := rfl
  show recordDisk sb disk inode e (inodePos sb (recordDisk sb disk inode e) inode' + i) = _
  rw [(recordDisk_sameMaps wf hi).inodePos_eq wf hi']
  exact recordDisk_of_notMem (by omega)

/-- The record that was written. -/
theorem inodeRecord_byte_self (wf : LaidOut sb disk) (hi : IsInode sb inode) {i : ℕ}
    (hlt : i < inodeRecordSize) :
    (inodeRecord sb (recordDisk sb disk inode e) inode).byte i = e.byte i := by
  show recordDisk sb disk inode e (inodePos sb (recordDisk sb disk inode e) inode + i) = _
  rw [(recordDisk_sameMaps wf hi).inodePos_eq wf hi, recordDisk, if_pos (by omega),
    Nat.add_sub_cancel_left]

/-- The blocks of the files of other inodes. -/
theorem mapping_recordDisk_of_ne (wf : LaidOut sb disk) (hapart : IndirectApart sb disk)
    (hi : IsInode sb inode) (hi' : IsInode sb inode') (hne : inode ≠ inode')
    (hj : j < ext2PointersPerBlock sb + 12) :
    mapping sb (recordDisk sb disk inode e) inode' j = mapping sb disk inode' j :=
  mapping_congr (fun _ hlt => inodeRecord_byte_of_ne wf hi hi' hne hlt) hj fun h₀ _ hlt =>
    recordDisk_block_eq wf (Ne.symm (hapart inode' hi' h₀ _ (wf.inodeTable_valid hi))) hlt

/-- The blocks of the file whose record gets a pointer. -/
theorem mapping_setDirectPtr (wf : LaidOut sb disk) (hapart : IndirectApart sb disk)
    (hi : IsInode sb inode)
    (he : ∀ i < inodeRecordSize, e.byte i = (inodeRecord sb disk inode).byte i) (hblock : block < 12)
    (hb : b < wordSize) (hj : j < ext2PointersPerBlock sb + 12) :
    mapping sb (recordDisk sb disk inode (e.setDirectPtr block b)) inode j =
      if j = block then b else mapping sb disk inode j := by
  have hbyte : ∀ i < inodeRecordSize,
      (inodeRecord sb (recordDisk sb disk inode (e.setDirectPtr block b)) inode).byte i =
        writeLE 4 e.byte (40 + 4 * block) b i := fun i hlt => inodeRecord_byte_self wf hi hlt
  by_cases hj₁ : j < 12
  · have hlt : ∀ i < 4, 40 + 4 * j + i < inodeRecordSize := by
      intro i hlt
      show _ < 120
      omega
    have hread : mapping sb (recordDisk sb disk inode (e.setDirectPtr block b)) inode j =
        readLE 4 (writeLE 4 e.byte (40 + 4 * block) b) (40 + 4 * j) := by
      rw [mapping, if_neg (by omega), fileMap, if_pos hj₁]
      exact readLE_congr fun i h₄ => hbyte _ (hlt i h₄)
    have hold : mapping sb disk inode j = readLE 4 e.byte (40 + 4 * j) := by
      rw [mapping, if_neg (by omega), fileMap, if_pos hj₁]
      exact readLE_congr fun i h₄ => (he _ (hlt i h₄)).symm
    rw [hread, hold]
    split
    · next heq =>
      rw [heq, readLE_writeLE_self]
      exact Nat.mod_eq_of_lt hb
    · next hne => exact readLE_writeLE_of_disjoint (by omega)
  · rw [if_neg (by omega)]
    have hsingle : (inodeRecord sb (recordDisk sb disk inode (e.setDirectPtr block b))
        inode).singleIndirectPtr = (inodeRecord sb disk inode).singleIndirectPtr := by
      refine readLE_congr fun i h₄ => ?_
      have hlt : 88 + i < inodeRecordSize := by
        show _ < 120
        omega
      rw [hbyte _ hlt, writeLE_of_notMem (by omega), he _ hlt]
    unfold mapping
    rw [hsingle]
    split
    · rfl
    · next hcond =>
      have hne : (inodeRecord sb disk inode).singleIndirectPtr ≠ 0 := fun h => hcond ⟨by omega, h⟩
      have hlt : j < ext2BlockSize sb / 4 + 12 := hj
      unfold fileMap
      rw [if_neg hj₁, if_neg hj₁, hsingle]
      exact readLE_congr fun i h₄ => recordDisk_block_eq wf
        (Ne.symm (hapart inode hi hne _ (wf.inodeTable_valid hi))) (by omega)

/-! ## When the mapping grows without damage -/

/-- A block of a file is mapped to `b`, and nothing else of a mapping is changed; a block that was
mapped already keeps its block, and nothing is written. -/
structure GrowsRightly (sb : Superblock) (disk disk' : ℕ → UInt8) (inode block b : ℕ) : Prop where
  mapped : mapping sb disk' inode block = b
  others : ∀ inode' j, IsInode sb inode' → j < ext2PointersPerBlock sb + 12 →
    ¬ (inode' = inode ∧ j = block) → mapping sb disk' inode' j = mapping sb disk inode' j
  kept : mapping sb disk inode block ≠ 0 → b = mapping sb disk inode block ∧ disk' = disk

/-- When `ext2_inode_alloc_block` returns a block, the mapping grew without damage. -/
def Grows (sb : Superblock) (d : Device) (inode block : ℕ) : Prop :=
  ∀ d' b, ext2InodeAllocBlock sb d inode block = some (d', b) → b ≠ 0 →
    GrowsRightly sb d.disk d'.disk inode block b

/-- The record of the inode and its indirect block are where the code looks for them, and the block
is mapped already, or no block is found, or it gets a direct pointer and the bitmap is in the first
4 GiB and is left only behind its first block. -/
structure GrowFits (sb : Superblock) (d : Device) (inode block : ℕ) : Prop where
  located : Located sb d.disk inode
  near : 12 ≤ block → (inodeRecord sb d.disk inode).singleIndirectPtr ≠ 0 →
    Near sb (inodeRecord sb d.disk inode).singleIndirectPtr
  fits : mapping sb d.disk inode block ≠ 0 ∨ ScanFails sb d (inodeGroup sb inode) ∨
    block < 12 ∧ Near sb (blockMap sb d.disk (inodeGroup sb inode)) ∧
      FirstBlock sb d (inodeGroup sb inode)

theorem GrowsRightly.refl (hb : mapping sb disk inode block = b) :
    GrowsRightly sb disk disk inode block b :=
  ⟨hb, fun _ _ _ _ _ => rfl, fun _ => ⟨hb.symm, rfl⟩⟩

/-- The number of the group of an inode. -/
theorem ext2BlockGroup_eq (wf : LaidOut sb disk) (hi : IsInode sb inode) :
    ext2BlockGroup sb inode = some (inodeGroup sb inode) :=
  ext2BlockGroup_of_pos wf.inodesPerGroup.1 hi.1 (Nat.lt_of_le_of_lt hi.2 wf.totalInodes.2)

/-- The branch of the direct pointers. -/
theorem allocDirect_grows (wf : LaidOut sb d.disk) (hapart : IndirectApart sb d.disk) (hd : d.Working)
    (hi : IsInode sb inode) (hblock : block < 12) (hloc : Located sb d.disk inode)
    (he : ∀ i < inodeRecordSize, e.byte i = (inodeRecord sb d.disk inode).byte i)
    (hfits : mapping sb d.disk inode block ≠ 0 ∨ ScanFails sb d (inodeGroup sb inode) ∨
      Near sb (blockMap sb d.disk (inodeGroup sb inode)) ∧ FirstBlock sb d (inodeGroup sb inode))
    (hrun : allocDirect sb d inode block e = some (d', b)) (hne : b ≠ 0) :
    GrowsRightly sb d.disk d'.disk inode block b := by
  have hptr : mapping sb d.disk inode block = e.directPtr block := by
    rw [mapping, if_neg (by omega), fileMap, if_pos hblock]
    refine readLE_congr fun i h₄ => (he _ ?_).symm
    show 40 + 4 * block + i < 120
    omega
  rw [allocDirect] at hrun
  split at hrun
  · cases hrun
    exact .refl hptr
  · next hnone =>
    have hfree : mapping sb d.disk inode block = 0 := hptr.trans (not_not.1 hnone)
    simp only [ext2BlockGroup_eq wf hi, Option.bind_eq_bind, Option.bind_some,
      Option.bind_eq_some_iff] at hrun
    obtain ⟨⟨d₁, n⟩, halloc, hrun⟩ := hrun
    simp only at hrun
    have hg : inodeGroup sb inode < groupCount sb := wf.inodeGroup_lt hi
    split at hrun
    · cases hrun
      exact absurd rfl hne
    · next hn =>
      -- the bitmap is changed first, then the record
      have hfound : ¬ ScanFails sb d (inodeGroup sb inode) := by
        intro hfails
        obtain ⟨d₂, hzero, -⟩ := hfails.alloc wf hd
        rw [halloc] at hzero
        cases hzero
        exact hn rfl
      have hlt : inodeGroup sb inode < sb.totalBlocks / sb.blocksPerGroup := by
        by_contra hge
        exact hfound (.inl (Nat.le_of_not_lt hge))
      obtain ⟨hnear, hfirst⟩ := (hfits.resolve_left (fun h => h hfree)).resolve_left hfound
      obtain ⟨ho, hd₁, hword⟩ := onlyBitmap_of_alloc wf hd hlt hloc.desc hnear hfirst halloc hn
      have hs := ho.sameMaps wf hg
      have wf₁ := hs.laidOut wf
      have hapart₁ := ho.indirectApart wf hapart hg
      have hloc₁ := hs.located wf hi hloc
      obtain ⟨d₂, hupdate, hdisk, -⟩ := ext2InodeUpdate_eq wf₁ hd₁ hi hloc₁ (e.setDirectPtr block n)
      rw [hupdate] at hrun
      cases hrun
      have he₁ : ∀ i < inodeRecordSize, e.byte i = (inodeRecord sb d₁.disk inode).byte i :=
        fun i hlt => (he i hlt).trans (ho.inodeRecord_byte wf hg hi hlt).symm
      rw [hdisk]
      constructor
      · rw [mapping_setDirectPtr wf₁ hapart₁ hi he₁ hblock hword (by omega), if_pos rfl]
      · intro inode' j hi' hj hother
        rw [← ho.mapping_eq wf hapart hg hi' hj]
        by_cases hsame : inode' = inode
        · rw [hsame, mapping_setDirectPtr wf₁ hapart₁ hi he₁ hblock hword hj,
            if_neg fun h => hother ⟨hsame, h⟩]
        · exact mapping_recordDisk_of_ne wf₁ hapart₁ hi hi' (Ne.symm hsame) hj
      · exact fun h => absurd hfree h

/-- The branch of the indirect block, where a block is returned only if it is in the table. -/
theorem allocTable_grows (wf : WellFormed sb d.disk) (hd : d.Working) (hi : IsInode sb inode)
    (hblock : 12 ≤ block) (hlt : block < ext2PointersPerBlock sb + 12)
    (he : ∀ i < inodeRecordSize, e.byte i = (inodeRecord sb d.disk inode).byte i)
    (hnear : (inodeRecord sb d.disk inode).singleIndirectPtr ≠ 0 →
      Near sb (inodeRecord sb d.disk inode).singleIndirectPtr)
    (hfits : mapping sb d.disk inode block ≠ 0 ∨ ScanFails sb d (inodeGroup sb inode))
    (hrun : (allocIndirect sb d inode e >>= fun r => match r.2 with
      | none => some (r.1, 0)
      | some e => allocEntry sb r.1 inode block e) = some (d', b)) (hne : b ≠ 0) :
    GrowsRightly sb d.disk d'.disk inode block b := by
  have hsingle : e.singleIndirectPtr = (inodeRecord sb d.disk inode).singleIndirectPtr :=
    readLE_congr fun i h₄ => he (88 + i) (by show 88 + i < 120; omega)
  have hgroup := ext2BlockGroup_eq wf.toLaidOut hi
  rw [Option.bind_eq_bind, Option.bind_eq_some_iff] at hrun
  obtain ⟨⟨d₁, r⟩, hindirect, hrun⟩ := hrun
  rw [allocIndirect] at hindirect
  split at hindirect
  · next h₀ =>
    cases hindirect
    rw [hsingle] at h₀
    have hin : (inodeRecord sb d.disk inode).singleIndirectPtr ≤ sb.totalBlocks :=
      Nat.le_of_lt (wf.indirect inode hi h₀).2.1
    have hoff : 4 * (block - 12) + 4 ≤ ext2BlockSize sb := by
      have hlt' : block < ext2BlockSize sb / 4 + 12 := hlt
      omega
    have hmap : readLE 4 (fun i => d.disk (blockStart sb
        (inodeRecord sb d.disk inode).singleIndirectPtr + i)) (4 * (block - 12)) =
        mapping sb d.disk inode block := by
      rw [mapping, if_neg fun h => h₀ h.2, fileMap, if_neg (by omega)]
    simp only [allocEntry, hsingle, ext2ReadBlock_eq wf.blockSize hd hin (hnear h₀),
      Device.load_fetch wf.blockSize hoff, hmap, Option.bind_eq_bind, Option.bind_some,
      if_pos] at hrun
    split at hrun
    · cases hrun
      exact .refl rfl
    · next hnone =>
      have hr : d.Reads sb (d.fetch sb (inodeRecord sb d.disk inode).singleIndirectPtr) :=
        (Device.Reads.refl sb d).fetch
      obtain ⟨d₂, hzero, -⟩ := ((hfits.resolve_left hnone).reads hr).alloc wf.toLaidOut hd
      simp only [hgroup, hzero, Option.bind_some, if_pos] at hrun
      cases hrun
      exact absurd rfl hne
  · next h₀ =>
    rw [not_not] at h₀
    have hnone : mapping sb d.disk inode block = 0 := by
      rw [mapping, if_pos ⟨hblock, hsingle ▸ h₀⟩]
    obtain ⟨d₂, hzero, -⟩ := (hfits.resolve_left (fun h => h hnone)).alloc wf.toLaidOut hd
    simp only [hgroup, hzero, Option.bind_eq_bind, Option.bind_some, if_pos, Option.pure_def,
      Option.some.injEq, Prod.mk.injEq] at hindirect
    obtain ⟨rfl, rfl⟩ := hindirect
    cases hrun
    exact absurd rfl hne

/-- **The mapping of a file grows without damage** when the block is mapped already, when no block
is found, or when it is put into the record of the inode. -/
theorem grows_of_fits (wf : WellFormed sb d.disk) (hd : d.Working) (hi : IsInode sb inode)
    (hblock : block < ext2PointersPerBlock sb + 12) (hf : GrowFits sb d inode block) :
    Grows sb d inode block := by
  intro d' b hrun hne
  have hr : d.Reads sb (fetchInode sb d inode) := (Device.Reads.refl sb d).fetch.fetch
  have he : ∀ i < inodeRecordSize, (pageInode (fetchInode sb d inode) (inodeOffset sb inode)).byte i =
      (inodeRecord sb d.disk inode).byte i := by
    intro i hlt
    have hlt' : i < 120 := hlt
    have hsize := wf.inodeSize.1
    exact pageInode_byte wf.toLaidOut (by omega)
  rw [ext2InodeAllocBlock, ext2GetInode_eq wf.toLaidOut hd hi hf.located] at hrun
  simp only [Option.bind_eq_bind, Option.bind_some] at hrun
  by_cases hlt : block < 12
  · rw [if_pos hlt] at hrun
    refine allocDirect_grows (d := fetchInode sb d inode) wf.toLaidOut wf.indirectApart hd hi hlt
      hf.located he ?_ hrun hne
    rcases hf.fits with h | h | h
    · exact .inl h
    · exact .inr (.inl (h.reads hr))
    · exact .inr (.inr ⟨h.2.1, h.2.2.reads hr⟩)
  · rw [if_neg hlt, if_pos hblock] at hrun
    have hge := Nat.le_of_not_lt hlt
    refine allocTable_grows (d := fetchInode sb d inode) wf hd hi hge hblock he (hf.near hge) ?_ hrun
      hne
    rcases hf.fits with h | h | h
    · exact .inl h
    · exact .inr (h.reads hr)
    · exact absurd h.1 hlt

/-! ## Two files -/

/-- The first block of an empty file. -/
theorem grows_of_fits_empty : ∃ d',
    ext2InodeAllocBlock mediumSuperblock (System.connect mediumDisk).dev 1 0 = some (d', 5) ∧
      GrowsRightly mediumSuperblock mediumDisk d'.disk 1 0 5 := by
  have wf := mediumDisk_wellFormed.connect
  have hfive : (ext2InodeAllocBlock mediumSuperblock (System.connect mediumDisk).dev 1 0).map
      Prod.snd = some 5 := by
    decide +kernel
  obtain ⟨⟨d', b⟩, hrun, rfl⟩ := Option.map_eq_some_iff.1 hfive
  have hfits : GrowFits mediumSuperblock (System.connect mediumDisk).dev 1 0 := by
    refine ⟨⟨by decide, ?_⟩, fun h => absurd h (by decide), .inr (.inr ⟨by decide, ?_, ?_⟩)⟩
    · unfold Near
      decide +kernel
    · unfold Near
      decide +kernel
    · exact .inl (by decide)
  have hgrows := grows_of_fits wf (System.connect_working mediumDisk) ⟨by decide, by decide⟩
    (by decide) hfits d' 5 hrun (by decide)
  rw [System.connect_disk] at hgrows
  exact ⟨d', hrun, hgrows⟩

/-- When the first block of a table is allocated, the second one is afterwards the inode bitmap. -/
theorem growth_overwrites_table : ¬ ∀ (sb : Superblock) (d : Device) (inode block : ℕ),
    WellFormed sb d.disk → d.Working → IsInode sb inode → block < ext2PointersPerBlock sb + 12 →
    Grows sb d inode block := by
  intro h
  have wf := tableDisk_wellFormed.connect
  have hafter : (ext2InodeAllocBlock smallSuperblock (System.connect tableDisk).dev 1 12).map
      (fun r => (r.2, mapping smallSuperblock r.1.disk 1 13)) = some (5, 4) := by
    decide +kernel
  have hbefore : mapping smallSuperblock tableDisk 1 13 = 21 := by decide +kernel
  obtain ⟨⟨d', b⟩, hrun, hview⟩ := Option.map_eq_some_iff.1 hafter
  obtain ⟨rfl, hmap⟩ := Prod.mk.inj hview
  have hgrows := h _ _ 1 12 wf (System.connect_working tableDisk) ⟨by decide, by decide⟩ (by decide)
    d' 5 hrun (by decide)
  have hkept := hgrows.others 1 13 ⟨by decide, by decide⟩ (by decide) (by decide)
  rw [System.connect_disk, hbefore] at hkept
  exact absurd (hmap.symm.trans hkept) (by decide)

end C4OS.Ext2
