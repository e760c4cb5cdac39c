import C4OS.Ext2.Allocation

/-!
# Allocation and the bitmaps

When `ext2_alloc_block` agrees with the bitmaps. `AllocRight` says that the block it returns was
free and is marked afterwards, that nothing else in the bitmaps is changed and that the counter of
the group is decremented, or that nothing is changed and the group is full. A run of the scan is
taken apart by `allocLoop_cases`: it ends behind the last word, or one bit is set. The bit that is
set is the bit of the block that is returned only if it is in the first word and the first group
starts at the block `0` (`alloc_right_iff`). On an image with blocks of 1024 bytes the first group
starts at the block `1`, and the block in front of the one in the bitmap is returned, which may be
in use (`alloc_returns_used_block`).
-/

namespace C4OS.Ext2

open Foundations

variable {sb : Superblock} {disk : ℕ → UInt8} {d d₁ d₂ d' : Device} {g b base i k off : ℕ}

/-! ## The words of the scan -/

/-- The word that the scan looks at for an index. The indices are divided by the size of a block in
bytes: behind the block there is what was in `block_buffer` before. -/
def scanWord (sb : Superblock) (d : Device) (base i : ℕ) : Option ℕ :=
  let block := (base + i / ext2BlockSize sb) % wordSize
  if block ≤ sb.totalBlocks then
    (d.fetch sb (deviceBlock sb block)).load 4 (4 * (i % ext2BlockSize sb))
  else none

/-- The bitmap that the scan is given; behind the first block of descriptors it is what was in
`block_buffer` before. -/
def scanBase (sb : Superblock) (d : Device) (g : ℕ) : Option ℕ :=
  (d.fetch sb (descStart sb)).load 4 (g * descSize)

/-- The device while the bitmap is scanned: nothing is written, and behind the block in the page
there is what was there before. -/
structure Scanning (sb : Superblock) (d : Device) (base : ℕ) (last : Option ℕ) (d₁ : Device) :
    Prop where
  disk : d₁.disk = d.disk
  working : d₁.Working
  rest : ∀ c, ext2BlockSize sb ≤ c → d₁.buffer c = d.buffer c
  inside : ∀ index, last = some index → (base + index) % wordSize ≤ sb.totalBlocks
  loaded : ∀ index, last = some index →
    Loaded sb d₁ (deviceBlock sb ((base + index) % wordSize))

namespace Scanning

variable {last : Option ℕ} {index : ℕ}

theorem start (hd : d.Working) : Scanning sb d base none (d.fetch sb b) where
  disk := rfl
  working := hd
  rest := fun c hc => if_neg (by omega)
  inside := fun _ h => by cases h
  loaded := fun _ h => by cases h

/-- The table is read when it is in the file system. -/
theorem readTable_eq (h : sb.blockSize ≤ 2) (hs : Scanning sb d base last d₁)
    (hin : (base + index) % wordSize ≤ sb.totalBlocks) :
    ∃ d₂, readTable sb d₁ base index last = some d₂ ∧ Scanning sb d base (some index) d₂ := by
  by_cases hlast : last = some index
  · refine ⟨d₁, if_pos hlast, ?_⟩
    exact hlast ▸ hs
  · refine ⟨d₁.fetch sb (deviceBlock sb ((base + index) % wordSize)), ?_, ?_⟩
    · rw [readTable, if_neg hlast]
      exact run_bind (ext2ReadBlock_deviceBlock h hs.working hin) (if_pos rfl)
    · constructor
      · exact hs.disk
      · exact hs.working
      · intro c hc
        exact (if_neg (by omega)).trans (hs.rest c hc)
      · intro _ he
        cases he
        exact hin
      · intro _ he
        cases he
        exact loaded_fetch

/-- The table is not read when it is behind the file system. -/
theorem readTable_none (hs : Scanning sb d base last d₁)
    (hin : ¬ (base + index) % wordSize ≤ sb.totalBlocks) :
    readTable sb d₁ base index last = none := by
  have hlast : last ≠ some index := fun he => hin (hs.inside index he)
  rw [readTable, if_neg hlast, ext2ReadBlock, if_pos (Nat.lt_of_not_le hin)]
  rfl

/-- What is in the page. -/
theorem load_eq (hs : Scanning sb d base (some (i / ext2BlockSize sb)) d₁) :
    d₁.load 4 (4 * (i % ext2BlockSize sb)) = scanWord sb d base i := by
  have hbuffer : ∀ c, d₁.buffer c = (d.fetch sb (deviceBlock sb
      ((base + i / ext2BlockSize sb) % wordSize))).buffer c := by
    intro c
    show _ = if c < ext2BlockSize sb then _ else _
    split
    · next hc => rw [hs.loaded _ rfl c hc, hs.disk]
    · next hc => exact hs.rest c (by omega)
  rw [scanWord, if_pos (hs.inside _ rfl), Device.load, Device.load, funext hbuffer]

/-- The table that was read is in the file system. -/
theorem of_readTable (h : sb.blockSize ≤ 2) (hs : Scanning sb d base last d₁)
    (hread : readTable sb d₁ base index last = some d₂) : Scanning sb d base (some index) d₂ := by
  by_cases hin : (base + index) % wordSize ≤ sb.totalBlocks
  · obtain ⟨d₃, hread₃, hs₃⟩ := hs.readTable_eq h hin
    cases hread.symm.trans hread₃
    exact hs₃
  · cases hread.symm.trans (hs.readTable_none hin)

end Scanning

/-- All the words that the scan looks at from an index on are full. -/
def ScanFull (sb : Superblock) (d : Device) (perGroup base i : ℕ) : Prop :=
  ∀ j, i ≤ j → j < perGroup → 32 ∣ j - i →
    ∃ word, scanWord sb d base j = some word ∧ firstZero word = none

/-- A device that has read blocks: behind them there is in the page what was there before. -/
structure Device.Reads (sb : Superblock) (d d₁ : Device) : Prop where
  same : d.Same d₁
  rest : ∀ c, ext2BlockSize sb ≤ c → d₁.buffer c = d.buffer c

theorem Device.Reads.fetch (hr : d.Reads sb d₁) : d.Reads sb (d₁.fetch sb b) where
  same := hr.same
  rest := fun c hc => (if_neg (by omega)).trans (hr.rest c hc)

theorem Device.Reads.refl (sb : Superblock) (d : Device) : d.Reads sb d :=
  ⟨⟨rfl, rfl⟩, fun _ _ => rfl⟩

/-- What is in the page after a block is read, whatever was read since. -/
theorem Device.Reads.fetch_buffer (hr : d.Reads sb d₁) :
    (d₁.fetch sb b).buffer = (d.fetch sb b).buffer := by
  funext c
  show (if _ then d₁.disk _ else d₁.buffer c) = if _ then d.disk _ else d.buffer c
  split
  · rw [hr.same.1]
  · next hc => exact hr.rest c (by omega)

theorem Device.load_congr (h : d₁.buffer = d.buffer) (k off : ℕ) :
    d₁.load k off = d.load k off := by
  rw [Device.load, Device.load, h]

theorem Device.Reads.fetch_load (hr : d.Reads sb d₁) (off : ℕ) :
    (d₁.fetch sb b).load 4 off = (d.fetch sb b).load 4 off :=
  Device.load_congr hr.fetch_buffer 4 off

/-- The scan looks at the same words. -/
theorem Device.Reads.scanWord_eq (hr : d.Reads sb d₁) (base i : ℕ) :
    scanWord sb d₁ base i = scanWord sb d base i := by
  unfold scanWord
  simp only [hr.fetch_load]

/-! ## The runs of the scan -/

section Loop

variable {fields : MapFields} {perGroup : ℕ} {last : Option ℕ}

theorem mod_add_sub (i m : ℕ) : i - i / m * m = i % m := by
  have := Nat.div_add_mod i m
  rw [Nat.mul_comm] at this
  omega

/-- A scan over full words. -/
theorem allocLoop_full (h : sb.blockSize ≤ 2) (hper : perGroup + 32 ≤ wordSize) :
    ∀ (fuel : ℕ) {i : ℕ} {d₁ : Device} {last : Option ℕ}, Scanning sb d base last d₁ →
      i < perGroup + 32 → perGroup + 32 ≤ i + 32 * fuel → ScanFull sb d perGroup base i →
      ∃ d', allocLoop sb fields perGroup g base fuel d₁ last i = some (d', 0) ∧
        d'.disk = d.disk ∧ d'.Working := by
  intro fuel
  induction fuel with
  | zero =>
    intro i d₁ last hs hi hfuel hfull
    omega
  | succ fuel ih =>
    intro i d₁ last hs hi hfuel hfull
    rw [allocLoop]
    simp only [mod_add_sub]
    split
    · next hlt =>
      obtain ⟨word, hword, hzero⟩ := hfull i (Nat.le_refl i) hlt (by simp)
      have hin : (base + i / ext2BlockSize sb) % wordSize ≤ sb.totalBlocks := by
        by_contra hout
        rw [scanWord, if_neg hout] at hword
        cases hword
      obtain ⟨d₂, hread, hs₂⟩ := hs.readTable_eq h hin
      have hmod : (i + 32) % wordSize = i + 32 := Nat.mod_eq_of_lt (by omega)
      obtain ⟨d', hrun, hd'⟩ := ih hs₂ (i := i + 32) (by omega) (by omega) fun j hij hj hdvd =>
        hfull j (by omega) hj (by omega)
      refine ⟨d', run_bind hread (run_bind (hs₂.load_eq.trans hword) ?_), hd'⟩
      simp only [hzero, hmod]
      exact hrun
    · exact ⟨d₁, rfl, hs.disk, hs.working⟩

/-- **How the scan ends**: all words are full and nothing is written, or a bit is set in the first
word with a zero. -/
theorem allocLoop_cases (h : sb.blockSize ≤ 2) (hper : perGroup + 32 ≤ wordSize) :
    ∀ {fuel i : ℕ} {d₁ : Device} {last : Option ℕ}, Scanning sb d base last d₁ →
      allocLoop sb fields perGroup g base fuel d₁ last i = some (d', b) →
      ScanFull sb d perGroup base i ∧ b = 0 ∧ d'.disk = d.disk ∨
      ∃ j word k d₂, i ≤ j ∧ j < perGroup ∧ 32 ∣ j - i ∧ ScanFull sb d j base i ∧
        Scanning sb d base (some (j / ext2BlockSize sb)) d₂ ∧
        scanWord sb d base j = some word ∧ firstZero word = some k ∧
        allocBit sb fields d₂ g ((base + j / ext2BlockSize sb) % wordSize)
          (4 * (j % ext2BlockSize sb)) word k = some d' ∧
        b = (g * perGroup + (j + k)) % wordSize := by
  intro fuel
  induction fuel with
  | zero =>
    intro i d₁ last hs hrun
    cases hrun
  | succ fuel ih =>
    intro i d₁ last hs hrun
    rw [allocLoop] at hrun
    simp only [mod_add_sub] at hrun
    split at hrun
    · next hi =>
      simp only [Option.bind_eq_bind, Option.bind_eq_some_iff] at hrun
      obtain ⟨d₂, hread, word, hload, hrun⟩ := hrun
      have hs₂ := hs.of_readTable h hread
      have hword : scanWord sb d base i = some word := hs₂.load_eq ▸ hload
      cases hzero : firstZero word with
      | some k =>
        simp only [hzero, Option.bind_eq_some_iff] at hrun
        obtain ⟨d₃, hbit, hret⟩ := hrun
        cases hret
        have hnone : ScanFull sb d i base i := fun j hij hj => by omega
        exact .inr ⟨i, word, k, d₂, Nat.le_refl i, hi, by simp, hnone, hs₂, hword, hzero, hbit, rfl⟩
      | none =>
        simp only [hzero] at hrun
        have hmod : (i + 32) % wordSize = i + 32 := Nat.mod_eq_of_lt (by omega)
        rw [hmod] at hrun
        have hcons : ∀ {m : ℕ}, ScanFull sb d m base (i + 32) → ScanFull sb d m base i := by
          intro m hfull j hij hj hdvd
          rcases Nat.eq_or_lt_of_le hij with rfl | hlt
          · exact ⟨word, hword, hzero⟩
          · exact hfull j (by omega) hj (by omega)
        rcases ih hs₂ hrun with ⟨hfull, hb, hdisk⟩ | ⟨j, word', k, d₃, hij, hj, hdvd, hfirst, hrest⟩
        · exact .inl ⟨hcons hfull, hb, hdisk⟩
        · exact .inr ⟨j, word', k, d₃, by omega, hj, by omega, hcons hfirst, hrest⟩
    · next hi =>
      cases hrun
      exact .inl ⟨fun j hij hj => by omega, rfl, hs.disk⟩

end Loop

/-! ## The bit that is set -/

/-- The disk after a number is stored in the page and the page is written to a block; what is stored
behind the block is not written. -/
def storeDisk (sb : Superblock) (disk : ℕ → UInt8) (b off k x : ℕ) : ℕ → UInt8 :=
  if off + k ≤ ext2BlockSize sb then writeLE k disk (blockStart sb b + off) x else disk

theorem storeDisk_flush {x : ℕ} (hl : Loaded sb d b)
    (hoff : off + k ≤ ext2BlockSize sb ∨ ext2BlockSize sb ≤ off) (h : d.store k off x = some d') :
    (d'.flush sb b).disk = storeDisk sb d.disk b off k x := by
  rw [storeDisk]
  split
  · next hin => exact store_flush hl hin h
  · next hin =>
    unfold Device.store at h
    split at h
    · cases h
      funext c
      show (if _ then writeLE k d.buffer off x (c - blockStart sb b) else d.disk c) = _
      split
      · next hc =>
        rw [writeLE_of_notMem (by omega), hl _ (by omega)]
        congr 1
        omega
      · rfl
    · cases h

theorem Device.Working.store {x : ℕ} (hd : d.Working) (h : d.store k off x = some d') :
    d'.Working := by
  unfold Device.store at h
  split at h
  · cases h
    exact hd
  · cases h

/-- A byte that is changed is one of those that were stored. -/
theorem storeDisk_ne {x c : ℕ} (h : storeDisk sb disk b off k x c ≠ disk c) :
    off + k ≤ ext2BlockSize sb ∧ blockStart sb b + off ≤ c ∧ c < blockStart sb b + off + k := by
  rw [storeDisk] at h
  split at h
  · next hin =>
    refine ⟨hin, ?_⟩
    by_contra hc
    exact h (writeLE_of_notMem (by omega))
  · exact absurd rfl h

/-- The two numbers that an allocation writes: the word with the bit, and the counter. -/
theorem allocBit_cases {fields : MapFields} {block word : ℕ} (h : sb.blockSize ≤ 2)
    (hfields : fields.unalloced + 2 ≤ descSize) (hd : d.Working)
    (hb : descStart sb ≤ sb.totalBlocks) (hpos : 0 < sb.blocksPerGroup)
    (hg : g < sb.totalBlocks / sb.blocksPerGroup) (hin : block ≤ sb.totalBlocks)
    (hl : Loaded sb d (deviceBlock sb block))
    (hoff : off + 4 ≤ ext2BlockSize sb ∨ ext2BlockSize sb ≤ off)
    (hrun : allocBit sb fields d g block off word k = some d') :
    ∃ n disk₁, disk₁ = storeDisk sb d.disk (deviceBlock sb block) off 4 (word ||| 2 ^ k) ∧
      d'.disk = storeDisk sb disk₁ (descStart sb) (g * descSize + fields.unalloced) 2
        (n + (2 ^ 16 - 1)) ∧
      (g * descSize + fields.unalloced + 2 ≤ ext2BlockSize sb →
        n = readLE 2 disk₁ (descPos sb g + fields.unalloced)) ∧
      d'.Working := by
  simp only [allocBit, ext2WriteBlockDescs, Option.bind_eq_bind, Option.bind_eq_some_iff,
    Option.pure_def] at hrun
  obtain ⟨d₁, hstore, ⟨d₂, ok₂⟩, hwrite, ⟨d₃, desc⟩, hdesc, _, rfl, n, hload, d₄, hstore₄,
    ⟨d₅, ok₅⟩, hwrite₅, hret⟩ := hrun
  cases hret
  have hd₁ := hd.store hstore
  rw [ext2WriteBlock_deviceBlock h hd₁ hin] at hwrite
  cases hwrite
  rw [ext2GetBlockDesc_eq h (d := d₁.flush sb _) hd₁ hb hpos hg] at hdesc
  cases hdesc
  have hdisk₁ := storeDisk_flush hl hoff hstore
  have hl₃ : Loaded sb ((d₁.flush sb (deviceBlock sb block)).fetch sb (descStart sb))
      (descStart sb) :=
    loaded_fetch
  have hoff' : g * descSize + fields.unalloced + 2 ≤ ext2BlockSize sb ∨
      ext2BlockSize sb ≤ g * descSize + fields.unalloced := by
    have hfields' : fields.unalloced + 2 ≤ 32 := hfields
    show g * 32 + fields.unalloced + 2 ≤ _ ∨ _ ≤ g * 32 + fields.unalloced
    rcases ext2BlockSize_eq h with hs | hs | hs <;> omega
  have hd₃ : ((d₁.flush sb (deviceBlock sb block)).fetch sb (descStart sb)).Working := hd₁
  have hd₄ := hd₃.store hstore₄
  rw [ext2WriteBlock_eq h hd₄ hb (near_descStart h)] at hwrite₅
  cases hwrite₅
  refine ⟨n, _, rfl, ?_, fun hfirst => ?_, hd₄⟩
  · rw [storeDisk_flush hl₃ hoff' hstore₄, ← hdisk₁]
    rfl
  · rw [load_eq h hl₃ hfirst] at hload
    rw [← Option.some.inj hload, ← hdisk₁, ← Nat.add_assoc]
    rfl

/-- The bitmap that a scan is given for a group. -/
def mapBase (sb : Superblock) (fields : MapFields) (d : Device) (g : ℕ) : Option ℕ :=
  (d.fetch sb (descStart sb)).load 4 (g * descSize + fields.map)

/-- **How an allocation ends**, in a group that the count of the code has. -/
theorem allocInGroup_cases {fields : MapFields} {perGroup : ℕ} (h : sb.blockSize ≤ 2)
    (hfields : fields.unalloced + 2 ≤ descSize) (hper : perGroup + 32 ≤ wordSize)
    (hd : d.Working) (hstart : descStart sb ≤ sb.totalBlocks) (hpos : 0 < sb.blocksPerGroup)
    (hg : g < sb.totalBlocks / sb.blocksPerGroup)
    (hrun : allocInGroup sb fields perGroup d g = some (d', b)) :
    ∃ base, mapBase sb fields d g = some base ∧
      (ScanFull sb d perGroup base 0 ∧ b = 0 ∧ d'.disk = d.disk ∨
      ∃ j word k n disk₁, j < perGroup ∧ 32 ∣ j ∧ ScanFull sb d j base 0 ∧
        scanWord sb d base j = some word ∧ firstZero word = some k ∧
        disk₁ = storeDisk sb d.disk (deviceBlock sb ((base + j / ext2BlockSize sb) % wordSize))
          (4 * (j % ext2BlockSize sb)) 4 (word ||| 2 ^ k) ∧
        d'.disk = storeDisk sb disk₁ (descStart sb) (g * descSize + fields.unalloced) 2
          (n + (2 ^ 16 - 1)) ∧
        (g * descSize + fields.unalloced + 2 ≤ ext2BlockSize sb →
          n = readLE 2 disk₁ (descPos sb g + fields.unalloced)) ∧
        b = (g * perGroup + (j + k)) % wordSize ∧ d'.Working) := by
  simp only [allocInGroup, ext2GetBlockDesc_eq h hd hstart hpos hg,
    Option.bind_eq_bind, Option.bind_some, Option.bind_eq_some_iff] at hrun
  obtain ⟨base, hbase, hrun⟩ := hrun
  refine ⟨base, hbase, ?_⟩
  rcases allocLoop_cases h hper (.start hd) hrun with hfull | ⟨j, word, k, d₂, -, hj, hdvd, hfirst,
    hs, hword, hzero, hbit, hret⟩
  · exact .inl hfull
  · right
    have hoff : 4 * (j % ext2BlockSize sb) + 4 ≤ ext2BlockSize sb ∨
        ext2BlockSize sb ≤ 4 * (j % ext2BlockSize sb) := by
      rcases ext2BlockSize_eq h with hs | hs | hs <;> rw [hs] <;> omega
    obtain ⟨n, disk₁, hdisk₁, hdisk, hn, hd'⟩ := allocBit_cases h hfields hs.working hstart hpos hg
      (hs.inside _ rfl) (hs.loaded _ rfl) hoff hbit
    rw [hs.disk] at hdisk₁
    exact ⟨j, word, k, n, disk₁, hj, by simpa using hdvd, hfirst, hword, hzero, hdisk₁, hdisk, hn,
      hret, hd'⟩

theorem perGroup_add_le (h : sb.blockSize ≤ 2) (hper : sb.blocksPerGroup ≤ 8 * ext2BlockSize sb) :
    sb.blocksPerGroup + 32 ≤ wordSize := by
  show _ ≤ 2 ^ 32
  rcases ext2BlockSize_eq h with hs | hs | hs <;> omega

/-- **How an allocation of a block ends**, in a group that the count of the code has. -/
theorem ext2AllocBlock_cases (wf : LaidOut sb d.disk) (hd : d.Working)
    (hg : g < sb.totalBlocks / sb.blocksPerGroup) (hrun : ext2AllocBlock sb d g = some (d', b)) :
    ∃ base, scanBase sb d g = some base ∧
      (ScanFull sb d sb.blocksPerGroup base 0 ∧ b = 0 ∧ d'.disk = d.disk ∨
      ∃ j word k n disk₁, j < sb.blocksPerGroup ∧ 32 ∣ j ∧ ScanFull sb d j base 0 ∧
        scanWord sb d base j = some word ∧ firstZero word = some k ∧
        disk₁ = storeDisk sb d.disk (deviceBlock sb ((base + j / ext2BlockSize sb) % wordSize))
          (4 * (j % ext2BlockSize sb)) 4 (word ||| 2 ^ k) ∧
        d'.disk = storeDisk sb disk₁ (descStart sb) (g * descSize + 12) 2 (n + (2 ^ 16 - 1)) ∧
        (g * descSize + 14 ≤ ext2BlockSize sb → n = readLE 2 disk₁ (descPos sb g + 12)) ∧
        b = (g * sb.blocksPerGroup + (j + k)) % wordSize ∧ d'.Working) := by
  obtain ⟨hpos, hper, -⟩ := wf.perGroup
  have hfields : blockFields.unalloced + 2 ≤ descSize := by decide
  obtain ⟨base, hbase, hend⟩ := allocInGroup_cases wf.blockSize hfields
    (perGroup_add_le wf.blockSize hper) hd (wf.descStart_le (wf.lt_groupCount hg)) hpos hg hrun
  refine ⟨base, hbase, hend.imp id ?_⟩
  rintro ⟨j, word, k, n, disk₁, hj, hdvd, hfirst, hword, hzero, hdisk₁, hdisk, hn, hrest⟩
  exact ⟨j, word, k, n, disk₁, hj, hdvd, hfirst, hword, hzero, hdisk₁, hdisk, hn, hrest⟩

/-! ## What an allocation is for -/

/-- The group of a block. -/
def blockGroup (sb : Superblock) (b : ℕ) : ℕ := (b - superblockBlock sb) / sb.blocksPerGroup

/-- The index of a block in the bitmap of its group. -/
def blockIndex (sb : Superblock) (b : ℕ) : ℕ := (b - superblockBlock sb) % sb.blocksPerGroup

/-- A block was free and is allocated: its bit is set, the other bits of the bitmaps are as before,
and there is one free block less in the group. -/
structure AllocAgrees (sb : Superblock) (disk disk' : ℕ → UInt8) (g b : ℕ) : Prop where
  inside : superblockBlock sb ≤ b ∧ b < sb.totalBlocks
  free : blockBit sb disk b = false
  set : blockBit sb disk' b = true
  maps : ∀ g' < groupCount sb, blockMap sb disk' g' = blockMap sb disk g' ∧
    inodeMap sb disk' g' = inodeMap sb disk g'
  blockBits : ∀ g' < groupCount sb, ∀ n < 8 * ext2BlockSize sb,
    ¬ (g' = blockGroup sb b ∧ n = blockIndex sb b) →
      bit sb disk' (blockMap sb disk' g') n = bit sb disk (blockMap sb disk g') n
  inodeBits : ∀ g' < groupCount sb, ∀ n < 8 * ext2BlockSize sb,
    bit sb disk' (inodeMap sb disk' g') n = bit sb disk (inodeMap sb disk g') n
  counter : unallocedBlocks sb disk' g + 1 = unallocedBlocks sb disk g

/-- A group has no free block. -/
def GroupFull (sb : Superblock) (disk : ℕ → UInt8) (g : ℕ) : Prop :=
  ∀ n < groupBlocks sb g, bit sb disk (blockMap sb disk g) n = true

/-- `ext2_alloc_block` does what it is for: the block that it returns is allocated, or it returns
zero, the disk is as before and the group is full. -/
def AllocRight (sb : Superblock) (d : Device) (g : ℕ) : Prop :=
  ∃ d' b, ext2AllocBlock sb d g = some (d', b) ∧
    (b ≠ 0 → AllocAgrees sb d.disk d'.disk g b) ∧
    (b = 0 → d'.disk = d.disk ∧ GroupFull sb d.disk g)

/-- The first group starts at the block zero, the descriptor of the group is in the first block of
descriptors, and there is a zero in the first word of its bitmap, which is in the first 4 GiB. -/
def FirstWordFits (sb : Superblock) (d : Device) (g : ℕ) : Prop :=
  superblockBlock sb = 0 ∧ g < sb.totalBlocks / sb.blocksPerGroup ∧
    g * descSize + descSize ≤ ext2BlockSize sb ∧ Near sb (blockMap sb d.disk g) ∧
    ∃ n < 32, bit sb d.disk (blockMap sb d.disk g) n = false

/-- The code does not count the group, or the scan finds no zero in what it looks at. -/
def ScanFails (sb : Superblock) (d : Device) (g : ℕ) : Prop :=
  sb.totalBlocks / sb.blocksPerGroup ≤ g ∨
    ∃ base, scanBase sb d g = some base ∧ ScanFull sb d sb.blocksPerGroup base 0

theorem ScanFails.reads (hf : ScanFails sb d g) (hr : d.Reads sb d₁) : ScanFails sb d₁ g := by
  rcases hf with hge | ⟨base, hbase, hfull⟩
  · exact .inl hge
  · refine .inr ⟨base, (hr.fetch_load _).trans hbase, fun j hij hj hdvd => ?_⟩
    rw [hr.scanWord_eq]
    exact hfull j hij hj hdvd

/-- The group is full, and no block is found. -/
def FullFits (sb : Superblock) (d : Device) (g : ℕ) : Prop :=
  GroupFull sb d.disk g ∧ ScanFails sb d g

/-! ## The number that is returned -/

theorem superblockBlock_cases (h : sb.blockSize ≤ 2) :
    ext2BlockSize sb = 1024 ∧ superblockBlock sb = 1 ∨
      ext2BlockSize sb = 2048 ∧ superblockBlock sb = 0 ∨
      ext2BlockSize sb = 4096 ∧ superblockBlock sb = 0 := by
  unfold superblockBlock
  rcases ext2BlockSize_eq h with hs | hs | hs <;> rw [hs] <;> decide

/-- The number that is returned is the number of the bit that is set only in the first word, and if
the first group starts at the block zero. -/
theorem index_eq_zero {j : ℕ} (wf : LaidOut sb disk)
    (hg : g < sb.totalBlocks / sb.blocksPerGroup) (hj : j < sb.blocksPerGroup) (hdvd : 32 ∣ j)
    (hb : b = (g * sb.blocksPerGroup + (j + k)) % wordSize) (hin : superblockBlock sb ≤ b)
    (hindex : blockIndex sb b = 32 * (j % ext2BlockSize sb) + k) :
    superblockBlock sb = 0 ∧ j = 0 ∧ blockGroup sb b = g := by
  obtain ⟨hpos, hper, c, hc⟩ := wf.perGroup
  have htotal : sb.totalBlocks < 2 ^ 32 := wf.totalBlocks
  have hmul : (g + 1) * sb.blocksPerGroup ≤ sb.totalBlocks := (Nat.le_div_iff_mul_le hpos).1 hg
  rw [Nat.add_mul, Nat.one_mul] at hmul
  have hle : blockIndex sb b ≤ b - superblockBlock sb := Nat.mod_le _ _
  have hdm : sb.blocksPerGroup * blockGroup sb b + blockIndex sb b = b - superblockBlock sb :=
    Nat.div_add_mod _ _
  have hlt : blockIndex sb b < sb.blocksPerGroup := Nat.mod_lt _ hpos
  -- the sum does not wrap: what would be left of it is less than `k`
  have hsum : b = g * sb.blocksPerGroup + (j + k) := by
    have hb' : b = (g * sb.blocksPerGroup + (j + k)) % 2 ^ 32 := hb
    by_contra hne
    omega
  rw [Nat.mul_comm] at hdm
  have hj' := Nat.div_add_mod j (ext2BlockSize sb)
  have hq : j / ext2BlockSize sb ≤ 7 := by
    refine Nat.lt_succ_iff.1 (Nat.div_lt_of_lt_mul ?_)
    omega
  rcases Nat.lt_trichotomy (blockGroup sb b) g with hlt' | heq | hgt
  · exfalso
    have := Nat.mul_le_mul_right sb.blocksPerGroup hlt'
    rw [Nat.succ_mul] at this
    have hsuper : superblockBlock sb ≤ 1 := by
      rcases superblockBlock_cases wf.blockSize with hs | hs | hs <;> omega
    omega
  · rw [heq] at hdm
    refine ⟨?_, ?_, heq⟩
    · rcases superblockBlock_cases wf.blockSize with ⟨hs, hs'⟩ | hs | hs
      · rw [hs] at hj' hindex
        omega
      · exact hs.2
      · exact hs.2
    · rcases superblockBlock_cases wf.blockSize with ⟨hs, hs'⟩ | ⟨hs, hs'⟩ | ⟨hs, hs'⟩
      · rw [hs] at hj' hindex
        omega
      · rw [hs] at hj' hindex hq
        omega
      · rw [hs] at hj' hindex hq
        omega
  · exfalso
    have := Nat.mul_le_mul_right sb.blocksPerGroup hgt
    rw [Nat.succ_mul] at this
    omega

/-! ## When the returned block is right -/

theorem blockGroup_lt (wf : LaidOut sb disk) (hin : superblockBlock sb ≤ b)
    (hb : b < sb.totalBlocks) : blockGroup sb b < groupCount sb := by
  have hpos := wf.perGroup.1
  rw [blockGroup, groupCount, Nat.div_lt_iff_lt_mul hpos]
  have hdm := Nat.div_add_mod (sb.totalBlocks - superblockBlock sb + (sb.blocksPerGroup - 1))
    sb.blocksPerGroup
  have hlt := Nat.mod_lt (sb.totalBlocks - superblockBlock sb + (sb.blocksPerGroup - 1)) hpos
  rw [Nat.mul_comm] at hdm
  omega

theorem blockIndex_lt (wf : LaidOut sb disk) : blockIndex sb b < 8 * ext2BlockSize sb :=
  Nat.lt_of_lt_of_le (Nat.mod_lt _ wf.perGroup.1) wf.perGroup.2.1

/-- Two blocks with a byte in common. -/
theorem eq_of_mem_block {b' c : ℕ}
    (h : blockStart sb b ≤ c ∧ c < blockStart sb b + ext2BlockSize sb)
    (h' : blockStart sb b' ≤ c ∧ c < blockStart sb b' + ext2BlockSize sb) : b = b' := by
  by_contra hne
  have := blockStart_disjoint sb hne
  omega

/-- A bit of a word that is set is changed by an allocation, and no other one in a block that has
not the descriptors. -/
theorem bit_of_scan {block word n m x c : ℕ} {disk₁ disk' : ℕ → UInt8}
    (hdisk₁ : disk₁ = storeDisk sb disk block off 4 (word ||| 2 ^ k))
    (hdisk : disk' = storeDisk sb disk₁ (descStart sb) x 2 n) (hm : m ≠ descStart sb)
    (hc : c < 8 * ext2BlockSize sb) (hword : off + 4 ≤ ext2BlockSize sb →
      word = readLE 4 disk (blockStart sb block + off)) (hk : k < 32)
    (hclear : bit sb disk m c = false) (hset : bit sb disk' m c = true) :
    off + 4 ≤ ext2BlockSize sb ∧ block = m ∧ c = 8 * off + k := by
  have hmem : blockStart sb m ≤ blockStart sb m + c / 8 ∧
      blockStart sb m + c / 8 < blockStart sb m + ext2BlockSize sb := by omega
  have hbyte : disk' (blockStart sb m + c / 8) = disk₁ (blockStart sb m + c / 8) := by
    by_contra hne
    obtain ⟨hin, hlo, hhi⟩ := storeDisk_ne (hdisk ▸ hne)
    exact hm (eq_of_mem_block hmem ⟨by omega, by omega⟩)
  have hset₁ : bitAt disk₁ (blockStart sb m) c = true := by
    rw [bitAt, ← hbyte]
    exact hset
  have hne : disk₁ (blockStart sb m + c / 8) ≠ disk (blockStart sb m + c / 8) := by
    intro he
    rw [bitAt, he] at hset₁
    cases hclear.symm.trans hset₁
  obtain ⟨hin, hlo, hhi⟩ := storeDisk_ne (hdisk₁ ▸ hne)
  have hblock : m = block := eq_of_mem_block hmem ⟨by omega, by omega⟩
  subst hblock
  refine ⟨hin, rfl, ?_⟩
  rw [hdisk₁, storeDisk, if_pos hin, hword hin, bitAt_setBit (by omega)] at hset₁
  rw [bit] at hclear
  rw [hclear, Bool.false_or] at hset₁
  exact of_decide_eq_true hset₁

/-- The word that the scan looks at, when it is in the block. -/
theorem scanWord_some {word : ℕ} (h : sb.blockSize ≤ 2) (hw : scanWord sb d base i = some word)
    (hoff : 4 * (i % ext2BlockSize sb) + 4 ≤ ext2BlockSize sb) :
    word = readLE 4 d.disk (blockStart sb (deviceBlock sb ((base + i / ext2BlockSize sb) % wordSize)) +
      4 * (i % ext2BlockSize sb)) := by
  rw [scanWord] at hw
  split at hw
  · rw [load_eq h loaded_fetch hoff] at hw
    exact (Option.some.inj hw).symm
  · cases hw

/-- The bitmap of a group whose descriptor is in the first block. -/
theorem scanBase_eq (h : sb.blockSize ≤ 2) (hdesc : g * descSize + descSize ≤ ext2BlockSize sb) :
    scanBase sb d g = some (blockMap sb d.disk g) := by
  have hdesc' : g * 32 + 32 ≤ ext2BlockSize sb := hdesc
  have hoff : g * descSize + 4 ≤ ext2BlockSize sb := by
    show g * 32 + 4 ≤ _
    omega
  rw [scanBase, load_eq h loaded_fetch hoff]
  rfl

theorem blockMap_lt (g : ℕ) : blockMap sb disk g < wordSize := readLE_lt 4 disk (descPos sb g)

/-- A block that is allocated has its bit in the first word of the bitmap. -/
theorem AllocAgrees.firstWordFits (ha : AllocAgrees sb d.disk d'.disk g b)
    (wf : LaidOut sb d.disk) (hd : d.Working) (hg : g < sb.totalBlocks / sb.blocksPerGroup)
    (hrun : ext2AllocBlock sb d g = some (d', b)) (hne : b ≠ 0) : FirstWordFits sb d g := by
  have h := wf.blockSize
  obtain ⟨base, hbase, ⟨-, hb, -⟩ | ⟨j, word, k, n, disk₁, hj, hdvd, -, hword, hzero, hdisk₁,
    hdisk, -, hb, -⟩⟩ := ext2AllocBlock_cases wf hd hg hrun
  · exact absurd hb hne
  · have hk := (firstZero_some hzero).1
    have hgroup := blockGroup_lt wf ha.inside.1 ha.inside.2
    have hset : bit sb d'.disk (blockMap sb d.disk (blockGroup sb b)) (blockIndex sb b) = true := by
      rw [← (ha.maps _ hgroup).1]
      exact ha.set
    obtain ⟨hin, hblock, hindex⟩ := bit_of_scan hdisk₁ hdisk (wf.blockMap_ne_descStart hgroup)
      (blockIndex_lt wf) (scanWord_some h hword) hk ha.free hset
    obtain ⟨hsuper, rfl, hgb⟩ := index_eq_zero wf hg hj hdvd hb ha.inside.1 (by omega)
    rw [hgb] at hgroup hblock
    simp only [Nat.zero_mod, Nat.mul_zero, Nat.zero_add, Nat.zero_div, Nat.add_zero] at *
    -- the counter is changed only when it is in the first block of descriptors
    have hdesc : g * 32 + 32 ≤ ext2BlockSize sb := by
      by_contra hbeyond
      have hdisk' : d'.disk = disk₁ := by
        rw [hdisk, storeDisk]
        refine if_neg ?_
        show ¬ g * 32 + 12 + 2 ≤ _
        rcases ext2BlockSize_eq h with hs | hs | hs <;> omega
      obtain ⟨hlo, hhi⟩ := descPos_mem h d.disk g
      have hsize : descSize = 32 := rfl
      have hsame : unallocedBlocks sb d'.disk g = unallocedBlocks sb d.disk g := by
        refine readLE_congr fun c hc => ?_
        by_contra hbyte
        rw [hdisk'] at hbyte
        obtain ⟨-, hlo', hhi'⟩ := storeDisk_ne (hdisk₁ ▸ hbyte)
        rw [hblock] at hlo' hhi'
        refine wf.blockMap_ne_desc hgroup hgroup (eq_of_mem_block ⟨hlo', ?_⟩ ⟨?_, ?_⟩)
        · omega
        · omega
        · omega
      have hcounter := ha.counter
      omega
    have hmap : base = blockMap sb d.disk g :=
      Option.some.inj (hbase.symm.trans (scanBase_eq h hdesc))
    have hmod : base % wordSize = base := Nat.mod_eq_of_lt (hmap ▸ blockMap_lt g)
    rw [hmod, hmap] at hblock
    refine ⟨hsuper, hg, hdesc, (deviceBlock_eq_iff h).1 hblock, k, hk, ?_⟩
    have hfree := ha.free
    rw [blockBit] at hfree
    change bit sb d.disk (blockMap sb d.disk (blockGroup sb b)) (blockIndex sb b) = false at hfree
    rwa [hgb, hindex] at hfree

/-- When zero is returned and nothing is written, the scan found no zero. -/
theorem scanFull_of_zero (wf : LaidOut sb d.disk) (hd : d.Working)
    (hg : g < sb.totalBlocks / sb.blocksPerGroup) (hrun : ext2AllocBlock sb d g = some (d', 0))
    (hsame : d'.disk = d.disk) :
    ∃ base, scanBase sb d g = some base ∧ ScanFull sb d sb.blocksPerGroup base 0 := by
  have h := wf.blockSize
  obtain ⟨base, hbase, ⟨hfull, -, -⟩ | ⟨j, word, k, n, disk₁, hj, -, -, -, hzero, hdisk₁,
    hdisk, hn, hb, -⟩⟩ := ext2AllocBlock_cases wf hd hg hrun
  · exact ⟨base, hbase, hfull⟩
  · exfalso
    -- the number is zero only in the first group: the descriptor is in the page
    have hpage : g * 32 + 4 ≤ 4096 := by
      by_contra hout
      rw [scanBase, Device.load, if_neg hout] at hbase
      cases hbase
    obtain ⟨hpos, hper, -⟩ := wf.perGroup
    have hmul : g * sb.blocksPerGroup ≤ 127 * sb.blocksPerGroup := Nat.mul_le_mul_right _ (by omega)
    have hk := (firstZero_some hzero).1
    have hsum : g * sb.blocksPerGroup + (j + k) = 0 := by
      have hb' : 0 = (g * sb.blocksPerGroup + (j + k)) % 2 ^ 32 := hb
      have hsize : ext2BlockSize sb ≤ 4096 := ext2BlockSize_le h
      rw [Nat.mod_eq_of_lt (by omega)] at hb'
      exact hb'.symm
    have hg₀ : g = 0 := by
      rcases Nat.eq_zero_or_pos g with h₀ | h₀
      · exact h₀
      · have := Nat.mul_pos h₀ hpos
        omega
    obtain rfl : j = 0 := by omega
    subst hg₀
    have hin : 0 * descSize + 14 ≤ ext2BlockSize sb := by
      show 0 * 32 + 14 ≤ _
      rcases ext2BlockSize_eq h with hs | hs | hs <;> omega
    have hstart : descPos sb 0 = blockStart sb (descStart sb) + 0 * 32 := rfl
    generalize deviceBlock sb _ = block at hdisk₁
    have hread : readLE 2 disk₁ (descPos sb 0 + 12) = unallocedBlocks sb d.disk 0 := by
      refine readLE_congr fun c hc => ?_
      by_contra hbyte
      obtain ⟨hlo, hlo', hhi'⟩ := storeDisk_ne (hdisk₁ ▸ hbyte)
      simp only [Nat.zero_mod, Nat.mul_zero, Nat.add_zero] at hlo' hhi'
      have heq : block = descStart sb := eq_of_mem_block ⟨hlo', by omega⟩ ⟨by omega, by omega⟩
      rw [heq] at hlo' hhi'
      omega
    have hwritten : readLE 2 d'.disk (descPos sb 0 + 12) = (n + (2 ^ 16 - 1)) % 256 ^ 2 := by
      rw [hdisk, storeDisk, if_pos hin]
      exact readLE_writeLE_self
    have hlt : unallocedBlocks sb d.disk 0 < 256 ^ 2 := readLE_lt 2 d.disk _
    rw [hsame, hn hin, hread] at hwritten
    change unallocedBlocks sb d.disk 0 = _ at hwritten
    omega

/-! ## What an allocation in the first word does -/

/-- The bits of a block without descriptors after an allocation. -/
theorem bit_allocDisk {w n : ℕ} (hw : 4 * w + 4 ≤ ext2BlockSize sb)
    (hdesc : g * descSize + descSize ≤ ext2BlockSize sb) (hb : b ≠ descStart sb) (hk : k < 32)
    (hbase : base ≠ descStart sb) (hn : n < 8 * ext2BlockSize sb) :
    bit sb (allocDisk sb disk g base w k) b n =
      (bit sb disk b n || decide (b = base ∧ n = 32 * w + k)) := by
  by_cases heq : b = base
  · have hdis := blockStart_disjoint sb hbase
    have hdesc' : g * 32 + 32 ≤ ext2BlockSize sb := hdesc
    have hpos : descPos sb g = blockStart sb (descStart sb) + g * 32 := rfl
    have hindex : 8 * (4 * w) + k = 32 * w + k := by omega
    rw [heq, bit, allocDisk, bitAt_writeLE_of_disjoint (by omega), bitAt_setBit (by omega), hindex,
      bit]
    simp
  · have hbyte : n / 8 < ext2BlockSize sb := by omega
    rw [bit, bitAt, allocDisk_of_ne hw hdesc heq hb hbyte, decide_eq_false (fun h => heq h.1),
      Bool.or_false]
    rfl

/-- The counter of the group after an allocation. -/
theorem unallocedBlocks_allocDisk {w : ℕ} (hw : 4 * w + 4 ≤ ext2BlockSize sb)
    (hdesc : g * descSize + descSize ≤ ext2BlockSize sb) (hbase : base ≠ descStart sb)
    (hfree : 0 < unallocedBlocks sb disk g) :
    unallocedBlocks sb (allocDisk sb disk g base w k) g + 1 = unallocedBlocks sb disk g := by
  have hdis := blockStart_disjoint sb hbase
  have hdesc' : g * 32 + 32 ≤ ext2BlockSize sb := hdesc
  have hpos : descPos sb g = blockStart sb (descStart sb) + g * 32 := rfl
  have hlt : unallocedBlocks sb disk g < 256 ^ 2 := readLE_lt 2 disk _
  have hinner : readLE 2 (writeLE 4 disk (blockStart sb base + 4 * w)
      (readLE 4 disk (blockStart sb base + 4 * w) ||| 2 ^ k)) (descPos sb g + 12) =
      unallocedBlocks sb disk g :=
    readLE_writeLE_of_disjoint (by omega)
  have hread : unallocedBlocks sb (allocDisk sb disk g base w k) g =
      (unallocedBlocks sb disk g + (2 ^ 16 - 1)) % 256 ^ 2 := by
    rw [unallocedBlocks, allocDisk, readLE_writeLE_self, hinner]
  omega

/-- A bit that is zero is the bit of a block. -/
theorem WellFormed.lt_groupBlocks {n : ℕ} (wf : WellFormed sb disk) (hg : g < groupCount sb)
    (hn : n < 8 * ext2BlockSize sb) (hbit : bit sb disk (blockMap sb disk g) n = false) :
    n < groupBlocks sb g := by
  by_contra hge
  cases hbit.symm.trans (wf.padding g hg n (Nat.le_of_not_lt hge) hn)

/-- There are free blocks in the group of a bit that is zero. -/
theorem WellFormed.unalloced_pos {n : ℕ} (wf : WellFormed sb disk) (hg : g < groupCount sb)
    (hn : n < 8 * ext2BlockSize sb) (hbit : bit sb disk (blockMap sb disk g) n = false) :
    0 < unallocedBlocks sb disk g := by
  rw [wf.counters g hg]
  apply List.length_pos_of_mem (a := n)
  rw [List.mem_filter, List.mem_range, hbit]
  exact ⟨wf.lt_groupBlocks hg hn hbit, rfl⟩

theorem blockGroup_mul_add (hsuper : superblockBlock sb = 0) (h : k < sb.blocksPerGroup) :
    blockGroup sb (g * sb.blocksPerGroup + k) = g := by
  have hpos : 0 < sb.blocksPerGroup := by omega
  rw [blockGroup, hsuper, Nat.sub_zero, Nat.add_comm, Nat.add_mul_div_right _ _ hpos,
    Nat.div_eq_of_lt h, Nat.zero_add]

theorem blockIndex_mul_add (hsuper : superblockBlock sb = 0) (h : k < sb.blocksPerGroup) :
    blockIndex sb (g * sb.blocksPerGroup + k) = k := by
  rw [blockIndex, hsuper, Nat.sub_zero, Nat.add_comm, Nat.add_mul_mod_self_right,
    Nat.mod_eq_of_lt h]

/-- The maps are where they were. -/
theorem maps_allocDisk {w g' : ℕ} (wf : LaidOut sb disk) (hg : g < groupCount sb)
    (hw : 4 * w + 4 ≤ ext2BlockSize sb) (hg' : g' < groupCount sb) :
    blockMap sb (allocDisk sb disk g (blockMap sb disk g) w k) g' = blockMap sb disk g' ∧
      inodeMap sb (allocDisk sb disk g (blockMap sb disk g) w k) g' = inodeMap sb disk g' := by
  have hne : ∀ m : Meta, m.Valid sb → (∃ i, m = .desc i) →
      m.block sb disk ≠ blockMap sb disk g := by
    rintro m hm ⟨i, rfl⟩ he
    cases wf.distinct _ (.blockMap g) hm hg he
  constructor
  · exact readLE_desc_allocDisk wf hg' hne hw (by decide : 0 + 4 ≤ descSize) (.inr (.inl (by decide)))
  · exact readLE_desc_allocDisk wf hg' hne hw (by decide) (.inr (.inl (by decide)))

/-- The disk after an allocation in the first word, when the first group starts at the block zero.
-/
theorem allocAgrees_allocDisk (wf : WellFormed sb disk) (hsuper : superblockBlock sb = 0)
    (hg : g < groupCount sb) (hdesc : g * descSize + descSize ≤ ext2BlockSize sb) (hk : k < 32)
    (hclear : bit sb disk (blockMap sb disk g) k = false) :
    AllocAgrees sb disk (allocDisk sb disk g (blockMap sb disk g) 0 k) g
      (g * sb.blocksPerGroup + k) := by
  have hsize : 4 * 0 + 4 ≤ ext2BlockSize sb ∧ k < 8 * ext2BlockSize sb := by
    rcases ext2BlockSize_eq wf.blockSize with hs | hs | hs <;> omega
  obtain ⟨hw, hkn⟩ := hsize
  have hlt := wf.lt_groupBlocks hg hkn hclear
  have hper : k < sb.blocksPerGroup := Nat.lt_of_lt_of_le hlt (Nat.min_le_left _ _)
  have htotal : k < sb.totalBlocks - superblockBlock sb - g * sb.blocksPerGroup :=
    Nat.lt_of_lt_of_le hlt (Nat.min_le_right _ _)
  have hgroup := blockGroup_mul_add (g := g) hsuper hper
  have hindex := blockIndex_mul_add (g := g) hsuper hper
  have hbase := wf.blockMap_ne_descStart hg
  constructor
  · exact ⟨by omega, by omega⟩
  · change bit sb disk (blockMap sb disk (blockGroup sb _)) (blockIndex sb _) = false
    rw [hgroup, hindex, hclear]
  · change bit sb _ (blockMap sb _ (blockGroup sb _)) (blockIndex sb _) = true
    rw [hgroup, hindex, (maps_allocDisk wf.toLaidOut hg hw hg).1,
      bit_allocDisk hw hdesc hbase hk hbase hkn]
    simp
  · exact fun g' hg' => maps_allocDisk wf.toLaidOut hg hw hg'
  · intro g' hg' n hn hne
    rw [hgroup, hindex] at hne
    have hne' : ¬ (blockMap sb disk g' = blockMap sb disk g ∧ n = 32 * 0 + k) := by
      rintro ⟨he, hn⟩
      cases wf.distinct (.blockMap g') (.blockMap g) hg' hg he
      exact hne ⟨rfl, by omega⟩
    rw [(maps_allocDisk wf.toLaidOut hg hw hg').1,
      bit_allocDisk hw hdesc (wf.blockMap_ne_descStart hg') hk hbase hn, decide_eq_false hne',
      Bool.or_false]
  · intro g' hg' n hn
    have hne : ¬ (inodeMap sb disk g' = blockMap sb disk g ∧ n = 32 * 0 + k) := by
      rintro ⟨he, -⟩
      cases wf.distinct (.inodeMap g') (.blockMap g) hg' hg he
    have hstart : inodeMap sb disk g' ≠ descStart sb := by
      intro he
      cases wf.distinct (.inodeMap g') (.desc 0) hg' (Meta.desc_zero_valid hg') he
    rw [(maps_allocDisk wf.toLaidOut hg hw hg').2, bit_allocDisk hw hdesc hstart hk hbase hn,
      decide_eq_false hne, Bool.or_false]
  · exact unallocedBlocks_allocDisk hw hdesc hbase (wf.unalloced_pos hg hkn hclear)

/-- An allocation in the first word gives a block that was free. -/
theorem FirstWordFits.alloc (hf : FirstWordFits sb d g) (wf : WellFormed sb d.disk) (hd : d.Working) :
    ∃ d' b, ext2AllocBlock sb d g = some (d', b) ∧ b ≠ 0 ∧ AllocAgrees sb d.disk d'.disk g b := by
  obtain ⟨hsuper, hg, hdesc, hnear, m, hm, hbit⟩ := hf
  have hcount := wf.lt_groupCount hg
  have hw : 4 * 0 + 4 ≤ ext2BlockSize sb := by
    rcases ext2BlockSize_eq wf.blockSize with hs | hs | hs <;> omega
  obtain ⟨k, hzero⟩ : ∃ k, firstZero (word sb d.disk (blockMap sb d.disk g) 0) = some k := by
    cases hz : firstZero (word sb d.disk (blockMap sb d.disk g) 0) with
    | some k => exact ⟨k, rfl⟩
    | none =>
      have hone := firstZero_none.1 hz m hm
      rw [word, testBit_readLE (by omega)] at hone
      cases hbit.symm.trans hone
  obtain ⟨hk, hclear⟩ := firstZero_some hzero
  rw [word, testBit_readLE (by omega)] at hclear
  obtain ⟨d', hrun, hdisk, -⟩ := ext2AllocBlock_eq wf.toLaidOut hd hg hdesc hnear hw wf.perGroup.1
    (Nat.dvd_zero 32) hzero fun j hj => absurd hj (Nat.not_lt_zero j)
  have hagrees := allocAgrees_allocDisk wf hsuper hcount hdesc hk hclear
  have hlt := hagrees.inside.2
  have hwords : sb.totalBlocks < wordSize := wf.totalBlocks
  have hnum : (g * sb.blocksPerGroup + (0 + k)) % wordSize = g * sb.blocksPerGroup + k := by
    rw [Nat.zero_add]
    exact Nat.mod_eq_of_lt (by omega)
  rw [hnum] at hrun
  refine ⟨d', _, hrun, ?_, hdisk ▸ hagrees⟩
  -- the superblock is in use
  intro h₀
  have hused := wf.superblock_used
  rw [hsuper, ← h₀, hagrees.free] at hused
  cases hused

/-- An allocation in a group without a zero, where the descriptors are in the file system. -/
theorem ScanFails.exists_alloc (hf : ScanFails sb d g) (h : sb.blockSize ≤ 2)
    (hper : 0 < sb.blocksPerGroup ∧ sb.blocksPerGroup ≤ 8 * ext2BlockSize sb)
    (hstart : g < sb.totalBlocks / sb.blocksPerGroup → descStart sb ≤ sb.totalBlocks)
    (hd : d.Working) :
    ∃ d', ext2AllocBlock sb d g = some (d', 0) ∧ d'.disk = d.disk ∧ d'.Working := by
  by_cases hg : sb.totalBlocks / sb.blocksPerGroup ≤ g
  · exact ⟨d, run_bind (ext2GetBlockDesc_none hper.1 hg) rfl, rfl, hd⟩
  · obtain ⟨base, hbase, hfull⟩ := hf.resolve_left hg
    have hlt := Nat.lt_of_not_le hg
    obtain ⟨d', hrun, hd'⟩ := allocLoop_full (g := g) h (perGroup_add_le h hper.2)
      (sb.blocksPerGroup / 32 + 2) (Scanning.start (b := descStart sb) hd) (by omega) (by omega)
      hfull
    exact ⟨d', run_bind (ext2GetBlockDesc_eq h hd (hstart hlt) hper.1 hlt) (run_bind hbase hrun),
      hd'⟩

/-- A scan that finds no zero. -/
theorem ScanFails.alloc (hf : ScanFails sb d g) (wf : LaidOut sb d.disk) (hd : d.Working) :
    ∃ d', ext2AllocBlock sb d g = some (d', 0) ∧ d'.disk = d.disk ∧ d'.Working :=
  hf.exists_alloc wf.blockSize ⟨wf.perGroup.1, wf.perGroup.2.1⟩
    (fun hlt => wf.descStart_le (wf.lt_groupCount hlt)) hd

/-- **When an allocation agrees with the bitmaps**: the group is full, or there is a zero in the
first word of its bitmap and the first group starts at the block zero. -/
theorem alloc_right_iff (wf : WellFormed sb d.disk) (hd : d.Working) :
    AllocRight sb d g ↔ FullFits sb d g ∨ FirstWordFits sb d g := by
  constructor
  · rintro ⟨d', b, hrun, hsome, hnone⟩
    by_cases hg : sb.totalBlocks / sb.blocksPerGroup ≤ g
    · have hret : ext2AllocBlock sb d g = some (d, 0) :=
        run_bind (ext2GetBlockDesc_none wf.perGroup.1 hg) rfl
      cases hret.symm.trans hrun
      exact .inl ⟨(hnone rfl).2, .inl hg⟩
    · have hlt := Nat.lt_of_not_le hg
      by_cases hb : b = 0
      · subst hb
        obtain ⟨hsame, hfull⟩ := hnone rfl
        exact .inl ⟨hfull, .inr (scanFull_of_zero wf.toLaidOut hd hlt hrun hsame)⟩
      · exact .inr ((hsome hb).firstWordFits wf.toLaidOut hd hlt hrun hb)
  · rintro (hf | hf)
    · obtain ⟨d', hrun, hdisk, -⟩ := hf.2.alloc wf.toLaidOut hd
      exact ⟨d', 0, hrun, fun h => absurd rfl h, fun _ => ⟨hdisk, hf.1⟩⟩
    · obtain ⟨d', b, hrun, hne, hagrees⟩ := hf.alloc wf hd
      exact ⟨d', b, hrun, fun _ => hagrees, fun h => absurd h hne⟩

/-! ## Two images -/

/-- The superblock of an image with blocks of 2048 bytes. -/
def mediumSuperblock : Superblock := ⟨8, 64, 1, 64, 8, 128⟩

/-- An image with one group, in which the blocks up to the inode table are in use. -/
def mediumDisk : ℕ → UInt8 :=
  image mediumSuperblock
    [(2, 8, 2040, 256 ^ 2040 - 1), (1, 0, 4, 2), (1, 4, 4, 3), (1, 8, 4, 4), (1, 12, 2, 59),
      (2, 0, 8, 0x1f)]

theorem mediumDisk_wellFormed : WellFormed mediumSuperblock mediumDisk := by
  have hblocks : [Meta.desc 0, .blockMap 0, .inodeMap 0, .inodeTable 0 0].map
      (Meta.block mediumSuperblock mediumDisk) = [1, 2, 3, 4] := by
    decide +kernel
  refine .of_single (by decide) (by decide) (by decide) hblocks (by decide) (by decide)
    (by decide +kernel) (by decide) (by decide) (by decide) (by decide) (by decide)
    (fun n h h' => ?_) (by decide +kernel) (by decide +kernel)
  have hbytes : ∀ i < 2040, mediumDisk (blockStart mediumSuperblock 2 + 8 + i) = 255 := by
    intro i hi
    rw [mediumDisk, image_ones (by decide) hi]
  exact bit_of_bytes hbytes h h'

/-- The block `5` of this image is allocated. -/
theorem alloc_right_iff_medium : AllocRight mediumSuperblock (System.connect mediumDisk).dev 0 := by
  have wf := mediumDisk_wellFormed.connect
  refine (alloc_right_iff wf (System.connect_working mediumDisk)).2 (.inr ?_)
  refine ⟨by decide, by decide, by decide, ?_, 5, by decide, by decide +kernel⟩
  unfold Near
  decide +kernel

/-- The inode table of an image with blocks of 1024 bytes is handed out, with the bit of the block
behind it. -/
theorem alloc_returns_used_block : ¬ ∀ (sb : Superblock) (d : Device) (g : ℕ),
    WellFormed sb d.disk → d.Working → AllocRight sb d g := by
  intro h
  have wf := tableDisk_wellFormed.connect
  obtain ⟨d', b, hrun, hsome, -⟩ := h smallSuperblock _ 0 wf (System.connect_working tableDisk)
  have hfive : (ext2AllocBlock smallSuperblock (System.connect tableDisk).dev 0).map Prod.snd =
      some 5 := by
    decide +kernel
  rw [hrun, Option.map_some, Option.some.injEq] at hfive
  obtain rfl : b = 5 := hfive
  have hfree := (hsome (by decide)).free
  rw [System.connect_disk] at hfree
  have hused : blockBit smallSuperblock tableDisk 5 = true := by decide +kernel
  exact Bool.false_ne_true (hfree.symm.trans hused)

end C4OS.Ext2
