import C4OS.Ext2.Answers

/-!
# Blocks for write requests

When `ext2_inode_alloc_block` comes to an end with a block of the file system, on any disk of a
device that works. The scan of a bitmap ends with the first zero that it looks at (`FreeBit`) or
without one (`ScanFails`); what an allocation and the update of a record do to the device is given
by `markPage` and `recordPage`. `BlockFound` puts this together (`BlockFound.exists_alloc`,
`blockFound_of_alloc`).
-/

namespace C4OS.Ext2

open Foundations

variable {sb : Superblock} {d d₁ d₂ d' : Device} {e : Inode} {last : Option ℕ}
  {inode g b base i j k off block word : ℕ}

/-! ## Devices with the same contents -/

/-- The same disk and the same page. -/
structure Device.Like (d d' : Device) : Prop where
  disk : d'.disk = d.disk
  buffer : d'.buffer = d.buffer

namespace Device.Like

theorem fetch (h : d.Like d') : (d.fetch sb b).Like (d'.fetch sb b) := by
  refine ⟨h.disk, ?_⟩
  rw [Device.fetch, Device.fetch, h.disk, h.buffer]

theorem flush (h : d.Like d') : (d.flush sb b).Like (d'.flush sb b) := by
  refine ⟨?_, h.buffer⟩
  rw [Device.flush, Device.flush, h.disk, h.buffer]

/-- A page that is changed. -/
theorem page (h : d.Like d') (f : (ℕ → UInt8) → ℕ → UInt8) :
    Device.Like { d with buffer := f d.buffer } { d' with buffer := f d'.buffer } :=
  ⟨h.disk, congrArg f h.buffer⟩

theorem reads (h : d.Like d') (hd : d.Working) (hd' : d'.Working) : d.Reads sb d' where
  same := ⟨h.disk, funext fun k => (hd' k).trans (hd k).symm⟩
  rest := fun c _ => congrFun h.buffer c

end Device.Like

/-! ## The scan of a bitmap -/

/-- The first zero that the scan of the bitmap of a group looks at. -/
structure FreeBit (sb : Superblock) (d : Device) (g base j word k : ℕ) : Prop where
  group : g < sb.totalBlocks / sb.blocksPerGroup
  base_eq : scanBase sb d g = some base
  lt : j < sb.blocksPerGroup
  dvd : 32 ∣ j
  full : ScanFull sb d j base 0
  word_eq : scanWord sb d base j = some word
  zero : firstZero word = some k

/-- The number of the block that is returned for a bit. -/
def blockNumber (sb : Superblock) (g j k : ℕ) : ℕ := (g * sb.blocksPerGroup + (j + k)) % wordSize

/-- The block of the bitmap with a word. -/
def wordBlock (sb : Superblock) (base j : ℕ) : ℕ := (base + j / ext2BlockSize sb) % wordSize

/-- The device after a bit is set in the word that is in the page. -/
def markWord (sb : Superblock) (d : Device) (base j word k : ℕ) : Device :=
  Device.flush { d with
    buffer := writeLE 4 d.buffer (4 * (j % ext2BlockSize sb)) (word ||| 2 ^ k) } sb
    (deviceBlock sb (wordBlock sb base j))

/-- The device after a counter in the page is decremented. -/
def decrement (sb : Superblock) (d : Device) (off : ℕ) : Device :=
  Device.flush { d with
    buffer := writeLE 2 d.buffer off (readLE 2 d.buffer off + (2 ^ 16 - 1)) } sb (descStart sb)

/-- The device after a bit is set in the bitmap of a group and its counter is decremented. -/
def markPage (sb : Superblock) (d : Device) (g base j word k : ℕ) : Device :=
  let d := markWord sb (d.fetch sb (deviceBlock sb (wordBlock sb base j))) base j word k
  decrement sb (d.fetch sb (descStart sb)) (g * descSize + 12)

theorem Device.Like.markWord (h : d.Like d') :
    (markWord sb d base j word k).Like (markWord sb d' base j word k) :=
  (h.page fun buf => writeLE 4 buf (4 * (j % ext2BlockSize sb)) (word ||| 2 ^ k)).flush

theorem Device.Like.decrement (h : d.Like d') :
    (decrement sb d off).Like (decrement sb d' off) :=
  (h.page fun buf => writeLE 2 buf off (readLE 2 buf off + (2 ^ 16 - 1))).flush

/-- The page while the scan is at a word. -/
theorem Scanning.like (hs : Scanning sb d base (some (j / ext2BlockSize sb)) d₁) :
    (d.fetch sb (deviceBlock sb (wordBlock sb base j))).Like d₁ := by
  refine ⟨hs.disk, funext fun c => ?_⟩
  show _ = if c < ext2BlockSize sb then _ else _
  split
  · next hc =>
    rw [hs.loaded _ rfl c hc, hs.disk]
    rfl
  · next hc => exact hs.rest c (by omega)

theorem scanWord_page (hw : scanWord sb d base j = some word) :
    wordBlock sb base j ≤ sb.totalBlocks ∧ 4 * (j % ext2BlockSize sb) + 4 ≤ pageSize := by
  unfold scanWord at hw
  simp only at hw
  split at hw
  · next hin =>
    refine ⟨hin, ?_⟩
    by_contra hout
    cases hw.symm.trans (if_neg hout)
  · cases hw

/-- The first zero that the scan of one of the bitmaps of a group looks at. -/
structure FoundBit (sb : Superblock) (fields : MapFields) (perGroup : ℕ) (d : Device)
    (g base j word k : ℕ) : Prop where
  group : g < sb.totalBlocks / sb.blocksPerGroup
  base_eq : mapBase sb fields d g = some base
  lt : j < perGroup
  dvd : 32 ∣ j
  full : ScanFull sb d j base 0
  word_eq : scanWord sb d base j = some word
  zero : firstZero word = some k

theorem FreeBit.found (hf : FreeBit sb d g base j word k) :
    FoundBit sb blockFields sb.blocksPerGroup d g base j word k :=
  ⟨hf.group, hf.base_eq, hf.lt, hf.dvd, hf.full, hf.word_eq, hf.zero⟩

section Found

variable {fields : MapFields} {perGroup : ℕ}

/-- The device after a bit is set in one of the bitmaps of a group and the counter at `off` is
decremented. -/
def markAt (sb : Superblock) (d : Device) (base j word k off : ℕ) : Device :=
  let d := markWord sb (d.fetch sb (deviceBlock sb (wordBlock sb base j))) base j word k
  decrement sb (d.fetch sb (descStart sb)) off

theorem mapBase_page (hfields : fields.unalloced + 2 ≤ descSize)
    (hb : mapBase sb fields d g = some base) :
    g * descSize + fields.unalloced + 2 ≤ pageSize := by
  have hle : g * 32 + fields.map + 4 ≤ 4096 := by
    by_contra hout
    cases hb.symm.trans (if_neg hout)
  have hfields' : fields.unalloced + 2 ≤ 32 := hfields
  show g * 32 + fields.unalloced + 2 ≤ 4096
  omega

/-- The end of an allocation. -/
theorem exists_allocBit (h : Geometry sb) (hfields : fields.unalloced + 2 ≤ descSize)
    (hf : FoundBit sb fields perGroup d g base j word k)
    (hs : Scanning sb d base (some (j / ext2BlockSize sb)) d₁) :
    ∃ d', allocBit sb fields d₁ g (wordBlock sb base j) (4 * (j % ext2BlockSize sb)) word k =
      some d' ∧ d'.Working ∧
      (markAt sb d base j word k (g * descSize + fields.unalloced)).Like d' := by
  obtain ⟨hin, hpage⟩ := scanWord_page hf.word_eq
  have hdesc := mapBase_page hfields hf.base_eq
  let d₂ : Device := { d₁ with
    buffer := writeLE 4 d₁.buffer (4 * (j % ext2BlockSize sb)) (word ||| 2 ^ k) }
  let d₃ := (markWord sb d₁ base j word k).fetch sb (descStart sb)
  let n := readLE 2 d₃.buffer (g * descSize + fields.unalloced)
  let d₄ : Device := { d₃ with
    buffer := writeLE 2 d₃.buffer (g * descSize + fields.unalloced) (n + (2 ^ 16 - 1)) }
  have hd₂ : d₂.Working := hs.working
  have hd₃ : (markWord sb d₁ base j word k).Working := hs.working
  have hd₄ : d₄.Working := hs.working
  have hstore : d₁.store 4 (4 * (j % ext2BlockSize sb)) (word ||| 2 ^ k) = some d₂ := if_pos hpage
  have hload : d₃.load 2 (g * descSize + fields.unalloced) = some n := if_pos hdesc
  have hstore₄ : d₃.store 2 (g * descSize + fields.unalloced) (n + (2 ^ 16 - 1)) = some d₄ :=
    if_pos hdesc
  refine ⟨decrement sb d₃ (g * descSize + fields.unalloced), run_bind hstore <|
    run_bind (ext2WriteBlock_deviceBlock h.blockSize hd₂ hin) <|
    run_bind (ext2GetBlockDesc_eq h.blockSize hd₃ h.descStart_le h.perGroup.1 hf.group) <|
    run_bind rfl <| run_bind hload <| run_bind hstore₄ <|
    run_bind (ext2WriteBlock_eq h.blockSize hd₄ h.descStart_le (near_descStart h.blockSize)) rfl,
    hd₄, ?_⟩
  exact hs.like.markWord.fetch.decrement

/-- The scan comes to the first zero. -/
theorem allocLoop_free (h : Geometry sb) (hfields : fields.unalloced + 2 ≤ descSize)
    (hper : perGroup + 32 ≤ wordSize) (hf : FoundBit sb fields perGroup d g base j word k) :
    ∀ (fuel : ℕ) {i : ℕ} {d₁ : Device} {last : Option ℕ}, Scanning sb d base last d₁ → i ≤ j →
      32 ∣ i → j < i + 32 * fuel →
      ∃ d', allocLoop sb fields perGroup g base fuel d₁ last i =
          some (d', (g * perGroup + (j + k)) % wordSize) ∧ d'.Working ∧
        (markAt sb d base j word k (g * descSize + fields.unalloced)).Like d' := by
  intro fuel
  induction fuel with
  | zero =>
    intro i d₁ last hs hi hdvd hfuel
    omega
  | succ fuel ih =>
    intro i d₁ last hs hi hdvd hfuel
    have hlt := hf.lt
    rw [allocLoop, if_pos (by omega)]
    simp only [mod_add_sub]
    rcases Nat.eq_or_lt_of_le hi with rfl | hij
    · obtain ⟨d₂, hread, hs₂⟩ := hs.readTable_eq h.blockSize (scanWord_page hf.word_eq).1
      obtain ⟨d', hbit, hd', hlike⟩ := exists_allocBit h hfields hf hs₂
      refine ⟨d', run_bind hread (run_bind (hs₂.load_eq.trans hf.word_eq) ?_), hd', hlike⟩
      simp only [hf.zero]
      exact run_bind hbit rfl
    · obtain ⟨word', hword, hzero⟩ := hf.full i (Nat.zero_le i) hij (by simpa using hdvd)
      obtain ⟨d₂, hread, hs₂⟩ := hs.readTable_eq h.blockSize (scanWord_page hword).1
      have hdvd' := hf.dvd
      have hmod : (i + 32) % wordSize = i + 32 := Nat.mod_eq_of_lt (by omega)
      obtain ⟨d', hrun, hd', hlike⟩ :=
        ih (i := i + 32) hs₂ (by omega) (by omega) (by omega)
      refine ⟨d', run_bind hread (run_bind (hs₂.load_eq.trans hword) ?_), hd', hlike⟩
      simp only [hzero, hmod]
      exact hrun

/-- An allocation in a group with a zero. -/
theorem FoundBit.exists_alloc (hf : FoundBit sb fields perGroup d g base j word k)
    (h : Geometry sb) (hfields : fields.unalloced + 2 ≤ descSize)
    (hper : perGroup + 32 ≤ wordSize) (hd : d.Working) :
    ∃ d', allocInGroup sb fields perGroup d g =
        some (d', (g * perGroup + (j + k)) % wordSize) ∧ d'.Working ∧
      (markAt sb d base j word k (g * descSize + fields.unalloced)).Like d' := by
  have hlt := hf.lt
  obtain ⟨d', hrun, hd'⟩ := allocLoop_free h hfields hper hf (perGroup / 32 + 2)
    (Scanning.start (b := descStart sb) hd) (Nat.zero_le j) (Nat.dvd_zero 32) (by omega)
  exact ⟨d', run_bind (ext2GetBlockDesc_eq h.blockSize hd h.descStart_le h.perGroup.1 hf.group)
    (run_bind hf.base_eq hrun), hd'⟩

end Found

theorem Geometry.perGroup_lt (h : Geometry sb) : sb.blocksPerGroup + 32 ≤ wordSize :=
  perGroup_add_le h.blockSize h.perGroup.2

/-! ## An allocation -/

/-- An allocation of a block in a group with a zero. -/
theorem FreeBit.exists_alloc (hf : FreeBit sb d g base j word k) (h : Geometry sb)
    (hd : d.Working) :
    ∃ d', ext2AllocBlock sb d g = some (d', blockNumber sb g j k) ∧ d'.Working ∧
      (markPage sb d g base j word k).Like d' :=
  hf.found.exists_alloc h (by decide) h.perGroup_lt hd

/-- An allocation in a group without one. -/
theorem Geometry.alloc_full (h : Geometry sb) (hf : ScanFails sb d g) (hd : d.Working) :
    ∃ d', ext2AllocBlock sb d g = some (d', 0) ∧ d'.disk = d.disk ∧ d'.Working :=
  hf.exists_alloc h.blockSize h.perGroup (fun _ => h.descStart_le) hd

/-- **How an allocation ends.** -/
theorem scan_of_alloc (h : Geometry sb) (hd : d.Working)
    (hrun : ext2AllocBlock sb d g = some (d', b)) :
    ScanFails sb d g ∧ b = 0 ∨
      ∃ base j word k, FreeBit sb d g base j word k ∧ b = blockNumber sb g j k := by
  by_cases hg : sb.totalBlocks / sb.blocksPerGroup ≤ g
  · have hret : ext2AllocBlock sb d g = some (d, 0) :=
      run_bind (ext2GetBlockDesc_none h.perGroup.1 hg) rfl
    cases hret.symm.trans hrun
    exact .inl ⟨.inl hg, rfl⟩
  · have hlt := Nat.lt_of_not_le hg
    simp only [ext2AllocBlock, allocInGroup,
      ext2GetBlockDesc_eq h.blockSize hd h.descStart_le h.perGroup.1 hlt, Option.bind_eq_bind,
      Option.bind_some, Option.bind_eq_some_iff] at hrun
    obtain ⟨base, hbase, hrun⟩ := hrun
    rcases allocLoop_cases h.blockSize h.perGroup_lt (.start hd) hrun with
      ⟨hfull, hb, -⟩ | ⟨j, word, k, d₂, -, hj, hdvd, hfirst, -, hword, hzero, -, hb⟩
    · exact .inl ⟨.inr ⟨base, hbase, hfull⟩, hb⟩
    · refine .inr ⟨base, j, word, k, ?_, hb⟩
      exact ⟨hlt, hbase, hj, by simpa using hdvd, hfirst, hword, hzero⟩

/-- An allocation ends without a block or with one of the file system. -/
def AllocFits (sb : Superblock) (d : Device) (g : ℕ) : Prop :=
  ScanFails sb d g ∨ ∃ base j word k, FreeBit sb d g base j word k ∧
    blockNumber sb g j k ≤ sb.totalBlocks

theorem AllocFits.exists_alloc (hf : AllocFits sb d g) (h : Geometry sb) (hd : d.Working) :
    ∃ d' b, ext2AllocBlock sb d g = some (d', b) ∧ d'.Working ∧ b ≤ sb.totalBlocks := by
  rcases hf with hfails | ⟨base, j, word, k, hf, hle⟩
  · obtain ⟨d', hrun, -, hd'⟩ := h.alloc_full hfails hd
    exact ⟨d', 0, hrun, hd', Nat.zero_le _⟩
  · obtain ⟨d', hrun, hd', -⟩ := hf.exists_alloc h hd
    exact ⟨d', _, hrun, hd', hle⟩

theorem allocFits_of_alloc (h : Geometry sb) (hd : d.Working)
    (hrun : ext2AllocBlock sb d g = some (d', b)) (hle : b ≤ sb.totalBlocks) :
    AllocFits sb d g := by
  rcases scan_of_alloc h hd hrun with ⟨hfails, -⟩ | ⟨base, j, word, k, hf, rfl⟩
  · exact .inl hfails
  · exact .inr ⟨base, j, word, k, hf, hle⟩

/-- Reading blocks does not change what an allocation finds. -/
theorem FreeBit.reads (hf : FreeBit sb d g base j word k) (hr : d.Reads sb d₁) :
    FreeBit sb d₁ g base j word k where
  group := hf.group
  base_eq := (hr.fetch_load _).trans hf.base_eq
  lt := hf.lt
  dvd := hf.dvd
  full := fun i hi hij hdvd => by
    rw [hr.scanWord_eq]
    exact hf.full i hi hij hdvd
  word_eq := (hr.scanWord_eq _ _).trans hf.word_eq
  zero := hf.zero

theorem AllocFits.reads (hf : AllocFits sb d g) (hr : d.Reads sb d₁) : AllocFits sb d₁ g := by
  rcases hf with hfails | ⟨base, j, word, k, hf, hle⟩
  · exact .inl (hfails.reads hr)
  · exact .inr ⟨base, j, word, k, hf.reads hr, hle⟩

theorem Device.Reads.symm (hr : d.Reads sb d₁) : d₁.Reads sb d :=
  ⟨⟨hr.same.1.symm, hr.same.2.symm⟩, fun c hc => (hr.rest c hc).symm⟩

theorem allocFits_reads_iff (hr : d.Reads sb d₁) : AllocFits sb d₁ g ↔ AllocFits sb d g :=
  ⟨fun hf => hf.reads hr.symm, fun hf => hf.reads hr⟩

/-! ## The update of a record -/

/-- The device after the record of an inode is written. -/
def recordPage (sb : Superblock) (d : Device) (inode : ℕ) (e : Inode) : Device :=
  if recordBlock sb d inode ≤ sb.totalBlocks then
    Device.flush { fetchRecord sb d inode with
      buffer := fun c =>
        if inodeOffset sb inode ≤ c ∧ c < inodeOffset sb inode + inodeRecordSize then
          e.byte (c - inodeOffset sb inode)
        else (fetchRecord sb d inode).buffer c } sb (deviceBlock sb (recordBlock sb d inode))
  else d.fetch sb (descStart sb)

theorem Device.Reads.like_fetch (hr : d.Reads sb d₁) : (d.fetch sb b).Like (d₁.fetch sb b) :=
  ⟨hr.same.1, hr.fetch_buffer⟩

theorem recordBlock_reads (hr : d.Reads sb d₁) :
    recordBlock sb d₁ inode = recordBlock sb d inode := by
  rw [recordBlock, recordBlock, hr.fetch_buffer]

theorem fetchRecord_reads (hr : d.Reads sb d₁) :
    (fetchRecord sb d inode).Like (fetchRecord sb d₁ inode) := by
  rw [fetchRecord, fetchRecord, recordBlock_reads hr]
  exact hr.like_fetch.fetch

theorem recordPage_reads (hr : d.Reads sb d₁) (inode : ℕ) (e : Inode) :
    (recordPage sb d inode e).Like (recordPage sb d₁ inode e) := by
  rw [recordPage, recordPage, recordBlock_reads hr]
  split
  · exact ((fetchRecord_reads hr).page fun buf c =>
      if inodeOffset sb inode ≤ c ∧ c < inodeOffset sb inode + inodeRecordSize then
        e.byte (c - inodeOffset sb inode)
      else buf c).flush
  · exact hr.like_fetch

/-- **`ext2_inode_update`** of an inode whose descriptor is in the page. -/
theorem exists_inodeUpdate (h : Geometry sb) (hd : d.Working) (hi : IsInode sb inode)
    (hdesc : inodeGroup sb inode * descSize + 12 ≤ pageSize) (e : Inode) :
    ∃ d' r, ext2InodeUpdate sb d inode e = some (d', r) ∧ d'.Working ∧
      (recordPage sb d inode e).Like d' ∧
      (recordBlock sb d inode ≤ sb.totalBlocks → r = inode) := by
  have hr : d.Reads sb (d.fetch sb (descStart sb)) := (Device.Reads.refl sb d).fetch
  have hd₁ : (d.fetch sb (descStart sb)).Working := hd
  have hdescs := ext2ReadBlock_eq h.blockSize hd h.descStart_le (near_descStart h.blockSize)
  have htable : ext2InodeTableBlock sb d inode =
      some (d.fetch sb (descStart sb), recordBlock sb d inode) := by
    refine run_bind hdescs ((if_pos rfl).trans ?_)
    rw [h.inodeLocation hi, Device.load, if_pos hdesc]
    rfl
  have hlike := recordPage_reads hr inode e
  have hget := ext2GetInode_record h hd₁ hi
  rw [if_pos hdesc] at hget
  rw [recordPage, recordPage, recordBlock_reads hr] at hlike
  rw [recordBlock_reads hr] at hget
  rw [recordPage]
  by_cases hin : recordBlock sb d inode ≤ sb.totalBlocks
  · rw [if_pos hin, if_pos hin] at hlike
    rw [if_pos hin] at hget
    have hpage : inodeOffset sb inode + inodeRecordSize ≤ pageSize := h.inodeOffset_le inode
    have hd₂ : (fetchRecord sb (d.fetch sb (descStart sb)) inode).Working := hd
    refine ⟨_, inode, run_bind htable (run_bind hget (run_bind (if_pos hpage)
      (run_bind (ext2WriteBlock_deviceBlock h.blockSize hd₂ hin) rfl))), hd, ?_, fun _ => rfl⟩
    rw [if_pos hin]
    exact hlike
  · rw [if_neg hin, if_neg hin] at hlike
    rw [if_neg hin] at hget
    refine ⟨_, 0, run_bind htable (run_bind hget rfl), hd, ?_,
      fun hle => absurd hle hin⟩
    rw [if_neg hin]
    exact hlike

/-! ## The block of a request -/

theorem blockGroup_eq (h : Geometry sb) (hi : IsInode sb inode) :
    ext2BlockGroup sb inode = some (inodeGroup sb inode) :=
  ext2BlockGroup_of_pos h.inodesPerGroup.1 hi.1 (Nat.lt_of_le_of_lt hi.2 h.totalInodes)

/-- A pointer leads to a block of the file system, or one is allocated. -/
def PointerFits (sb : Superblock) (d : Device) (g ptr : ℕ) : Prop :=
  ptr ≤ sb.totalBlocks ∧ (ptr = 0 → AllocFits sb d g)

/-- A table is in the file system, and so is what its entry leads to. -/
def EntryFits (sb : Superblock) (d : Device) (g table k : ℕ) : Prop :=
  table ≤ sb.totalBlocks ∧ PointerFits sb d g (tableEntry sb d.disk table k)

/-- The table of a file leads to a block, after it is allocated if there is none. -/
def TableFits (sb : Superblock) (d : Device) (inode block : ℕ) (e : Inode) : Prop :=
  (e.singleIndirectPtr ≠ 0 →
    EntryFits sb d (inodeGroup sb inode) e.singleIndirectPtr (block - 12)) ∧
  (e.singleIndirectPtr = 0 → ScanFails sb d (inodeGroup sb inode) ∨
    ∃ base j word k, FreeBit sb d (inodeGroup sb inode) base j word k ∧
      (blockNumber sb (inodeGroup sb inode) j k = 0 ∨
        EntryFits sb (recordPage sb (markPage sb d (inodeGroup sb inode) base j word k) inode
            (e.setSingleIndirectPtr (blockNumber sb (inodeGroup sb inode) j k)))
          (inodeGroup sb inode) (blockNumber sb (inodeGroup sb inode) j k) (block - 12)))

/-- The record of an inode that is read. -/
def record (sb : Superblock) (d : Device) (inode : ℕ) : Inode :=
  pageInode (fetchRecord sb d inode) (inodeOffset sb inode)

/-- A block of a file is found for a write request, or the block zero is taken. -/
structure BlockFound (sb : Superblock) (d : Device) (inode block : ℕ) : Prop where
  isInode : IsInode sb inode
  desc : inodeGroup sb inode * descSize + 12 ≤ pageSize
  table : recordBlock sb d inode ≤ sb.totalBlocks
  direct : block < 12 →
    PointerFits sb d (inodeGroup sb inode) ((record sb d inode).directPtr block)
  indirect : 12 ≤ block → block < ext2PointersPerBlock sb + 12 →
    TableFits sb d inode block (record sb d inode)

theorem pointerFits_reads_iff {ptr : ℕ} (hr : d.Reads sb d₁) :
    PointerFits sb d₁ g ptr ↔ PointerFits sb d g ptr := by
  rw [PointerFits, PointerFits, allocFits_reads_iff hr]

theorem entryFits_reads_iff {table : ℕ} (hr : d.Reads sb d₁) :
    EntryFits sb d₁ g table k ↔ EntryFits sb d g table k := by
  rw [EntryFits, EntryFits, pointerFits_reads_iff hr, hr.same.1]

/-- An allocation for a pointer that is zero. -/
theorem pointerFits_of_alloc (h : Geometry sb) (hd : d.Working)
    (hrun : ext2AllocBlock sb d g = some (d₁, i)) (hi : i ≤ sb.totalBlocks) :
    PointerFits sb d g 0 :=
  ⟨Nat.zero_le _, fun _ => allocFits_of_alloc h hd hrun hi⟩

/-! ### Direct pointers -/

theorem exists_allocDirect (h : Geometry sb) (hd : d.Working) (hi : IsInode sb inode)
    (hdesc : inodeGroup sb inode * descSize + 12 ≤ pageSize)
    (hf : PointerFits sb d (inodeGroup sb inode) (e.directPtr block)) :
    ∃ d' b, allocDirect sb d inode block e = some (d', b) ∧ d'.Working ∧ b ≤ sb.totalBlocks := by
  rw [allocDirect]
  by_cases hptr : e.directPtr block = 0
  · obtain ⟨d₁, b, halloc, hd₁, hle⟩ := (hf.2 hptr).exists_alloc h hd
    rw [if_neg (not_not.2 hptr)]
    rcases Nat.eq_zero_or_pos b with rfl | hpos
    · exact ⟨d₁, 0, run_bind (blockGroup_eq h hi) (run_bind halloc (if_pos rfl)), hd₁, hle⟩
    · obtain ⟨d', r, hupdate, hd', -⟩ :=
        exists_inodeUpdate h hd₁ hi hdesc (e.setDirectPtr block b)
      refine ⟨d', b, run_bind (blockGroup_eq h hi) (run_bind halloc ?_), hd', hle⟩
      exact (if_neg (Nat.ne_of_gt hpos)).trans (run_bind hupdate rfl)
  · rw [if_pos hptr]
    exact ⟨d, _, rfl, hd, hf.1⟩

theorem pointerFits_of_allocDirect (h : Geometry sb) (hd : d.Working) (hi : IsInode sb inode)
    (hrun : allocDirect sb d inode block e = some (d', b)) (hle : b ≤ sb.totalBlocks) :
    PointerFits sb d (inodeGroup sb inode) (e.directPtr block) := by
  rw [allocDirect] at hrun
  split at hrun
  · next hptr =>
    cases hrun
    exact ⟨hle, fun hzero => absurd hzero hptr⟩
  · next hptr =>
    simp only [blockGroup_eq h hi, Option.bind_eq_bind, Option.bind_some,
      Option.bind_eq_some_iff] at hrun
    obtain ⟨⟨d₁, n⟩, halloc, hrun⟩ := hrun
    rw [not_not.1 hptr]
    by_cases hn : n = 0
    · exact pointerFits_of_alloc h hd halloc (hn ▸ Nat.zero_le _)
    · simp only [if_neg hn, Option.bind_eq_some_iff] at hrun
      obtain ⟨⟨d₂, r⟩, -, hret⟩ := hrun
      cases hret
      exact pointerFits_of_alloc h hd halloc hle

/-! ### The indirect block -/

theorem exists_allocEntry (h : Geometry sb) (hd : d.Working) (hi : IsInode sb inode)
    (hlt : block < ext2PointersPerBlock sb + 12)
    (hf : EntryFits sb d (inodeGroup sb inode) e.singleIndirectPtr (block - 12)) :
    ∃ d' b, allocEntry sb d inode block e = some (d', b) ∧ d'.Working ∧ b ≤ sb.totalBlocks := by
  obtain ⟨htable, hent⟩ := hf
  have hr : d.Reads sb (d.fetch sb (deviceBlock sb e.singleIndirectPtr)) :=
    (Device.Reads.refl sb d).fetch
  have hlt' : block < ext2BlockSize sb / 4 + 12 := hlt
  have hblock := h.blockSize_le
  have hoff : 4 * (block - 12) + 4 ≤ ext2BlockSize sb := by omega
  have hread := ext2ReadBlock_deviceBlock h.blockSize hd htable
  have hload : (d.fetch sb (deviceBlock sb e.singleIndirectPtr)).load 4 (4 * (block - 12)) =
      some (tableEntry sb d.disk e.singleIndirectPtr (block - 12)) :=
    Device.load_fetch h.blockSize hoff
  rw [allocEntry]
  by_cases hzero : tableEntry sb d.disk e.singleIndirectPtr (block - 12) = 0
  · obtain ⟨d₁, b, halloc, hd₁, hle⟩ := ((hent.2 hzero).reads hr).exists_alloc h (hr.working hd)
    rcases Nat.eq_zero_or_pos b with rfl | hpos
    · refine ⟨d₁, 0, run_bind hread ((if_pos rfl).trans (run_bind hload ?_)), hd₁, hle⟩
      refine (if_neg (not_not.2 hzero)).trans ?_
      exact run_bind (blockGroup_eq h hi) (run_bind halloc (if_pos rfl))
    · have hpage : 4 * (block - 12) + 4 ≤ pageSize := Nat.le_trans hoff hblock.2
      let d₂ : Device := { d₁ with buffer := writeLE 4 d₁.buffer (4 * (block - 12)) b }
      have hd₂ : d₂.Working := hd₁
      refine ⟨d₂.flush sb (deviceBlock sb e.singleIndirectPtr), b,
        run_bind hread ((if_pos rfl).trans (run_bind hload ?_)), hd₂, hle⟩
      refine (if_neg (not_not.2 hzero)).trans ?_
      refine run_bind (blockGroup_eq h hi) (run_bind halloc ?_)
      refine (if_neg (Nat.ne_of_gt hpos)).trans (run_bind (if_pos hpage) ?_)
      exact run_bind (ext2WriteBlock_deviceBlock h.blockSize hd₂ htable) rfl
  · refine ⟨_, _, run_bind hread ((if_pos rfl).trans (run_bind hload ?_)), hr.working hd, hent.1⟩
    exact if_pos hzero

theorem entryFits_of_allocEntry (h : Geometry sb) (hd : d.Working) (hi : IsInode sb inode)
    (hlt : block < ext2PointersPerBlock sb + 12)
    (hrun : allocEntry sb d inode block e = some (d', b)) (hle : b ≤ sb.totalBlocks) :
    EntryFits sb d (inodeGroup sb inode) e.singleIndirectPtr (block - 12) := by
  have hlt' : block < ext2BlockSize sb / 4 + 12 := hlt
  have hblock := h.blockSize_le
  have hoff : 4 * (block - 12) + 4 ≤ ext2BlockSize sb := by omega
  have hr : d.Reads sb (d.fetch sb (deviceBlock sb e.singleIndirectPtr)) :=
    (Device.Reads.refl sb d).fetch
  have htable : e.singleIndirectPtr ≤ sb.totalBlocks := by
    by_contra hout
    rw [allocEntry, ext2ReadBlock, if_pos (Nat.lt_of_not_le hout)] at hrun
    cases hrun
  refine ⟨htable, ?_⟩
  rw [allocEntry, ext2ReadBlock_deviceBlock h.blockSize hd htable] at hrun
  have hload : (d.fetch sb (deviceBlock sb e.singleIndirectPtr)).load 4 (4 * (block - 12)) =
      some (tableEntry sb d.disk e.singleIndirectPtr (block - 12)) :=
    Device.load_fetch h.blockSize hoff
  simp only [Option.bind_eq_bind, Option.bind_some, if_true, hload] at hrun
  by_cases hzero : tableEntry sb d.disk e.singleIndirectPtr (block - 12) = 0
  · rw [hzero] at hrun ⊢
    simp only [ne_eq, not_true_eq_false, if_false, blockGroup_eq h hi, Option.bind_some,
      Option.bind_eq_some_iff] at hrun
    obtain ⟨⟨d₁, n⟩, halloc, hrun⟩ := hrun
    rw [← pointerFits_reads_iff hr]
    by_cases hn : n = 0
    · exact pointerFits_of_alloc h (hr.working hd) halloc (hn ▸ Nat.zero_le _)
    · simp only [if_neg hn, Option.bind_eq_some_iff] at hrun
      obtain ⟨d₂, -, ⟨d₃, ok⟩, -, hret⟩ := hrun
      cases hret
      exact pointerFits_of_alloc h (hr.working hd) halloc hle
  · rw [if_pos hzero] at hrun
    cases hrun
    exact ⟨hle, fun hzero' => absurd hzero' hzero⟩

/-! ### The table of a file without one -/

theorem singleIndirectPtr_set (hb : b < wordSize) :
    (e.setSingleIndirectPtr b).singleIndirectPtr = b :=
  readLE_writeLE_self.trans (Nat.mod_eq_of_lt hb)

theorem blockNumber_lt : blockNumber sb g j k < wordSize := Nat.mod_lt _ (by decide)

theorem markPage_reads (hr : d.Reads sb d₁) :
    (markPage sb d g base j word k).Like (markPage sb d₁ g base j word k) :=
  hr.like_fetch.markWord.fetch.decrement

theorem recordPage_working (hd : d.Working) : (recordPage sb d inode e).Working := by
  rw [recordPage]
  split
  · exact hd
  · exact hd

theorem TableFits.reads (hf : TableFits sb d inode block e) (hd : d.Working)
    (hr : d.Reads sb d₁) : TableFits sb d₁ inode block e := by
  refine ⟨fun hne => (entryFits_reads_iff hr).2 (hf.1 hne), fun hzero => ?_⟩
  rcases hf.2 hzero with hfails | ⟨base, j, word, k, hfree, hn⟩
  · exact .inl (hfails.reads hr)
  · have hd₁ := hr.working hd
    have hmark : Device.Reads sb (markPage sb d (inodeGroup sb inode) base j word k)
        (markPage sb d₁ (inodeGroup sb inode) base j word k) := (markPage_reads hr).reads hd hd₁
    refine .inr ⟨base, j, word, k, hfree.reads hr, hn.imp_right ?_⟩
    exact (entryFits_reads_iff ((recordPage_reads hmark _ _).reads (recordPage_working hd)
      (recordPage_working hd₁))).2

/-- An allocation in a group with a zero, and the update of a record after it. -/
theorem FreeBit.exists_update (hf : FreeBit sb d (inodeGroup sb inode) base j word k)
    (h : Geometry sb) (hd : d.Working) (hi : IsInode sb inode)
    (hdesc : inodeGroup sb inode * descSize + 12 ≤ pageSize) (e : Inode) :
    ∃ d₁ d₂ r, ext2AllocBlock sb d (inodeGroup sb inode) =
        some (d₁, blockNumber sb (inodeGroup sb inode) j k) ∧
      ext2InodeUpdate sb d₁ inode e = some (d₂, r) ∧ d₁.Working ∧ d₂.Working ∧
      (recordPage sb (markPage sb d (inodeGroup sb inode) base j word k) inode e).Reads sb d₂ := by
  obtain ⟨d₁, halloc, hd₁, hlike⟩ := hf.exists_alloc h hd
  obtain ⟨d₂, r, hupdate, hd₂, hlike₂, -⟩ := exists_inodeUpdate h hd₁ hi hdesc e
  have hmark : Device.Working (markPage sb d (inodeGroup sb inode) base j word k) := hd
  have hr : Device.Reads sb (markPage sb d (inodeGroup sb inode) base j word k) d₁ :=
    hlike.reads hmark hd₁
  have hrecord := recordPage_reads hr inode e
  refine ⟨d₁, d₂, r, halloc, hupdate, hd₁, hd₂, ?_⟩
  exact Device.Like.reads ⟨hlike₂.disk.trans hrecord.disk, hlike₂.buffer.trans hrecord.buffer⟩
    (recordPage_working hmark) hd₂

/-- The first half of the branch for the indirect block. -/
theorem exists_allocIndirect (h : Geometry sb) (hd : d.Working) (hi : IsInode sb inode)
    (hdesc : inodeGroup sb inode * descSize + 12 ≤ pageSize)
    (hf : TableFits sb d inode block e) :
    ∃ d' r, allocIndirect sb d inode e = some (d', r) ∧ d'.Working ∧ ∀ e', r = some e' →
      EntryFits sb d' (inodeGroup sb inode) e'.singleIndirectPtr (block - 12) := by
  rw [allocIndirect]
  by_cases hzero : e.singleIndirectPtr = 0
  · rw [if_neg (not_not.2 hzero)]
    rcases hf.2 hzero with hfails | ⟨base, j, word, k, hfree, hn⟩
    · obtain ⟨d₁, halloc, -, hd₁⟩ := h.alloc_full hfails hd
      exact ⟨d₁, none, run_bind (blockGroup_eq h hi) (run_bind halloc (if_pos rfl)), hd₁,
        fun e' he => by cases he⟩
    · obtain ⟨d₁, d₂, r, halloc, hupdate, hd₁, hd₂, hr⟩ := hfree.exists_update h hd hi hdesc
        (e.setSingleIndirectPtr (blockNumber sb (inodeGroup sb inode) j k))
      by_cases hnum : blockNumber sb (inodeGroup sb inode) j k = 0
      · exact ⟨d₁, none, run_bind (blockGroup_eq h hi) (run_bind halloc (if_pos hnum)), hd₁,
          fun e' he => by cases he⟩
      · refine ⟨d₂, some (e.setSingleIndirectPtr (blockNumber sb (inodeGroup sb inode) j k)),
          run_bind (blockGroup_eq h hi) (run_bind halloc ?_), hd₂, fun e' he => ?_⟩
        · exact (if_neg hnum).trans (run_bind hupdate rfl)
        · obtain rfl := Option.some.inj he
          rw [singleIndirectPtr_set blockNumber_lt]
          exact (entryFits_reads_iff hr).2 (hn.resolve_left hnum)
  · rw [if_pos hzero]
    refine ⟨d, some e, rfl, hd, fun e' he => ?_⟩
    obtain rfl := Option.some.inj he
    exact hf.1 hzero

theorem tableFits_of_allocIndirect {r : Option Inode} (h : Geometry sb) (hd : d.Working)
    (hi : IsInode sb inode) (hdesc : inodeGroup sb inode * descSize + 12 ≤ pageSize)
    (hrun : allocIndirect sb d inode e = some (d', r))
    (hent : d'.Working → ∀ e', r = some e' →
      EntryFits sb d' (inodeGroup sb inode) e'.singleIndirectPtr (block - 12)) :
    TableFits sb d inode block e := by
  rw [allocIndirect] at hrun
  split at hrun
  · next hne =>
    cases hrun
    exact ⟨fun _ => hent hd e rfl, fun hzero => absurd hzero hne⟩
  · next hne =>
    refine ⟨fun hne' => absurd hne' hne, fun _ => ?_⟩
    simp only [blockGroup_eq h hi, Option.bind_eq_bind, Option.bind_some,
      Option.bind_eq_some_iff] at hrun
    obtain ⟨⟨d₁, n⟩, halloc, hrun⟩ := hrun
    rcases scan_of_alloc h hd halloc with ⟨hfails, -⟩ | ⟨base, j, word, k, hfree, rfl⟩
    · exact .inl hfails
    · refine .inr ⟨base, j, word, k, hfree, ?_⟩
      obtain ⟨d₁', d₂, r', halloc', hupdate, -, hd₂, hr⟩ := hfree.exists_update h hd hi hdesc
        (e.setSingleIndirectPtr (blockNumber sb (inodeGroup sb inode) j k))
      cases halloc.symm.trans halloc'
      by_cases hnum : blockNumber sb (inodeGroup sb inode) j k = 0
      · exact .inl hnum
      · right
        simp only [if_neg hnum, hupdate, Option.bind_some] at hrun
        cases hrun
        have hent' := hent hd₂ _ rfl
        rw [singleIndirectPtr_set blockNumber_lt] at hent'
        exact (entryFits_reads_iff hr).1 hent'

/-! ### All blocks of a file -/

theorem BlockFound.exists_alloc (hf : BlockFound sb d inode block) (h : Geometry sb)
    (hd : d.Working) :
    ∃ d' b, ext2InodeAllocBlock sb d inode block = some (d', b) ∧ d'.Working ∧
      b ≤ sb.totalBlocks := by
  have hi := hf.isInode
  have hget := ext2GetInode_record h hd hi
  rw [if_pos hf.desc, if_pos hf.table] at hget
  have hd₁ : (fetchRecord sb d inode).Working := hd
  have hr : d.Reads sb (fetchRecord sb d inode) := (Device.Reads.refl sb d).fetch.fetch
  by_cases hlt : block < 12
  · obtain ⟨d', b, hrun, hd', hle⟩ := exists_allocDirect h hd₁ hi hf.desc
      ((pointerFits_reads_iff hr).2 (hf.direct hlt))
    exact ⟨d', b, run_bind hget (run_bind rfl ((if_pos hlt).trans hrun)), hd', hle⟩
  · by_cases hin : block < ext2PointersPerBlock sb + 12
    · obtain ⟨d₂, r, hindirect, hd₂, hent⟩ := exists_allocIndirect h hd₁ hi hf.desc
        ((hf.indirect (by omega) hin).reads hd hr)
      cases r with
      | none =>
        refine ⟨d₂, 0, run_bind hget (run_bind rfl ((if_neg hlt).trans ?_)), hd₂, Nat.zero_le _⟩
        exact (if_pos hin).trans (run_bind hindirect rfl)
      | some e =>
        obtain ⟨d', b, hrun, hd', hle⟩ := exists_allocEntry h hd₂ hi hin (hent e rfl)
        refine ⟨d', b, run_bind hget (run_bind rfl ((if_neg hlt).trans ?_)), hd', hle⟩
        exact (if_pos hin).trans (run_bind hindirect hrun)
    · refine ⟨_, 0, run_bind hget (run_bind rfl ((if_neg hlt).trans (if_neg hin))), hd₁,
        Nat.zero_le _⟩

/-- An inode whose record is found. -/
theorem record_of_getInode {x : ℕ × Inode} (h : Geometry sb) (hd : d.Working)
    (hget : ext2GetInode sb d inode = some (d₁, some x)) :
    IsInode sb inode ∧ inodeGroup sb inode * descSize + 12 ≤ pageSize ∧
      recordBlock sb d inode ≤ sb.totalBlocks ∧ d₁ = fetchRecord sb d inode ∧
      x = (inodeOffset sb inode, record sb d inode) := by
  have hle : inode ≤ sb.totalInodes := by
    by_contra hout
    cases hget.symm.trans (ext2GetInode_of_lt h hd (Nat.lt_of_not_le hout))
  rcases Nat.eq_zero_or_pos inode with rfl | hpos
  · cases hget.symm.trans (ext2GetInode_zero h hd)
  · rw [ext2GetInode_record h hd ⟨hpos, hle⟩] at hget
    split at hget
    · next hdesc =>
      split at hget
      · next hin =>
        cases hget
        exact ⟨⟨hpos, hle⟩, hdesc, hin, rfl, rfl⟩
      · cases hget
    · cases hget

theorem blockFound_of_alloc (h : Geometry sb) (hd : d.Working)
    (hrun : ext2InodeAllocBlock sb d inode block = some (d', b)) (hle : b ≤ sb.totalBlocks) :
    BlockFound sb d inode block := by
  obtain ⟨⟨d₁, buf⟩, hget, hrun⟩ := Option.bind_eq_some_iff.1 hrun
  obtain ⟨⟨off, e⟩, rfl, hrun⟩ := Option.bind_eq_some_iff.1 hrun
  obtain ⟨hi, hdesc, htable, rfl, hx⟩ := record_of_getInode h hd hget
  obtain ⟨rfl, rfl⟩ := Prod.mk.inj hx
  have hd₁ : (fetchRecord sb d inode).Working := hd
  have hr : d.Reads sb (fetchRecord sb d inode) := (Device.Reads.refl sb d).fetch.fetch
  refine ⟨hi, hdesc, htable, fun hlt => ?_, fun hge hin => ?_⟩
  · have hdirect := (if_pos hlt).symm.trans hrun
    exact (pointerFits_reads_iff hr).1 (pointerFits_of_allocDirect h hd₁ hi hdirect hle)
  · have hindirect := (if_pos hin).symm.trans ((if_neg (Nat.not_lt_of_le hge)).symm.trans hrun)
    obtain ⟨⟨d₂, r⟩, htab, hrest⟩ := Option.bind_eq_some_iff.1 hindirect
    refine (tableFits_of_allocIndirect h hd₁ hi hdesc htab fun hd₂ e' he => ?_).reads hd₁ hr.symm
    obtain rfl := he
    exact entryFits_of_allocEntry h hd₂ hi hin hrest hle

end C4OS.Ext2
