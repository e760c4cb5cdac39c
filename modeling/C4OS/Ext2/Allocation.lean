import C4OS.Ext2.Groups

/-!
# Allocating a block

What `ext2_alloc_block` does to the disk. The scan goes over the words of the bitmap with the index
in bits: the words it looks at are 32 words apart. When the word `w` is the first of these with a
zero, and it is in the first block of the bitmap, one bit of it is set and the counter of the group
is decremented (`ext2AllocBlock_eq`), and nothing else is changed (`allocDisk`).
-/

namespace C4OS.Ext2

open Foundations

variable {sb : Superblock} {disk : ℕ → UInt8} {d : Device} {g b base w k : ℕ}

/-! ## The effect on the disk -/

/-- The disk after bit `k` of the word `w` is set in the bitmap of a group, and the counter of the
group is decremented. -/
def allocDisk (sb : Superblock) (disk : ℕ → UInt8) (g base w k : ℕ) : ℕ → UInt8 :=
  let pos := blockStart sb base + 4 * w
  let disk := writeLE 4 disk pos (readLE 4 disk pos ||| 2 ^ k)
  writeLE 2 disk (descPos sb g + 12) (readLE 2 disk (descPos sb g + 12) + (2 ^ 16 - 1))

/-- A number that is stored in a block and written is on the disk. -/
theorem store_flush {off x : ℕ} {d' : Device} (hbuf : ∀ c < ext2BlockSize sb,
    d.buffer c = d.disk (blockStart sb b + c)) (hoff : off + k ≤ ext2BlockSize sb)
    (h : d.store k off x = some d') :
    (d'.flush sb b).disk = writeLE k d.disk (blockStart sb b + off) x := by
  unfold Device.store at h
  split at h
  · cases h
    funext c
    show (if _ then writeLE k d.buffer off x (c - blockStart sb b) else d.disk c) = _
    unfold writeLE
    split
    · next hc =>
      by_cases hin : off ≤ c - blockStart sb b ∧ c - blockStart sb b < off + k
      · rw [if_pos hin, if_pos (by omega)]
        congr 3
        omega
      · rw [if_neg hin, if_neg (by omega), hbuf _ (by omega)]
        congr 1
        omega
    · next hc => rw [if_neg (by omega)]
  · cases h

theorem store_eq (h : sb.blockSize ≤ 2) {off x : ℕ} (hoff : off + k ≤ ext2BlockSize sb) :
    d.store k off x = some { d with buffer := writeLE k d.buffer off x } := by
  have hle : off + k ≤ pageSize := Nat.le_trans hoff (ext2BlockSize_le h)
  rw [Device.store, if_pos hle]

/-- The block of the descriptors is near the start. -/
theorem near_descStart (h : sb.blockSize ≤ 2) : Near sb (descStart sb) := by
  unfold Near descStart
  show _ < 2 ^ 32
  rcases ext2BlockSize_eq h with hs | hs | hs <;> rw [hs] <;> split <;> omega

/-- The block of a bitmap or of the descriptors is in `block_buffer`. -/
def Loaded (sb : Superblock) (d : Device) (b : ℕ) : Prop :=
  ∀ c < ext2BlockSize sb, d.buffer c = d.disk (blockStart sb b + c)

theorem loaded_fetch : Loaded sb (d.fetch sb b) b := fun c hc => by
  show (if c < ext2BlockSize sb then _ else _) = _
  rw [if_pos hc]
  rfl

/-- A number of a block in the buffer. -/
theorem load_eq (h : sb.blockSize ≤ 2) (hl : Loaded sb d b) {off : ℕ}
    (hoff : off + k ≤ ext2BlockSize sb) :
    d.load k off = some (readLE k d.disk (blockStart sb b + off)) := by
  have hle : off + k ≤ pageSize := Nat.le_trans hoff (ext2BlockSize_le h)
  rw [Device.load, if_pos hle]
  congr 1
  have hshift : readLE k d.disk (blockStart sb b + off) =
      readLE k (fun i => d.disk (blockStart sb b + i)) off := by
    clear hle hoff
    induction k generalizing off with
    | zero => rfl
    | succ k ih => rw [readLE, readLE, ← ih, Nat.add_assoc]
  rw [hshift]
  exact readLE_congr fun i hi => hl _ (by omega)

/-! ## The descriptor of a group -/

/-- `ext2_get_block_desc` of a group whose descriptor is in the first block of the table. -/
theorem ext2GetBlockDesc_eq (h : sb.blockSize ≤ 2) (hd : d.Working)
    (hb : descStart sb ≤ sb.totalBlocks) (hpos : 0 < sb.blocksPerGroup)
    (hg : g < sb.totalBlocks / sb.blocksPerGroup) :
    ext2GetBlockDesc sb d g = some (d.fetch sb (descStart sb), some (g * descSize)) := by
  have htotal : ext2TotalBlockDescs sb = some (sb.totalBlocks / sb.blocksPerGroup) :=
    if_neg (by omega)
  refine run_bind htotal ?_
  rw [if_neg (by omega)]
  exact run_bind (ext2ReadBlock_eq h hd hb (near_descStart h)) rfl

/-- A group that the count of the code does not have. -/
theorem ext2GetBlockDesc_none (hpos : 0 < sb.blocksPerGroup)
    (hg : sb.totalBlocks / sb.blocksPerGroup ≤ g) : ext2GetBlockDesc sb d g = some (d, none) := by
  have htotal : ext2TotalBlockDescs sb = some (sb.totalBlocks / sb.blocksPerGroup) :=
    if_neg (by omega)
  exact run_bind htotal (if_pos hg)

/-! ## The scan -/

theorem firstZero_some {map : ℕ} (h : firstZero map = some k) : k < 32 ∧ map.testBit k = false := by
  have hmem := List.mem_of_find?_eq_some h
  have hbit := List.find?_some h
  exact ⟨List.mem_range.1 hmem, by simpa using hbit⟩

theorem firstZero_none {map : ℕ} : firstZero map = none ↔ ∀ k < 32, map.testBit k = true := by
  simp [firstZero]

/-- The end of an allocation, in a bitmap that is not the block of the descriptors. -/
theorem allocBit_eq (h : sb.blockSize ≤ 2) (hd : d.Working) (hl : Loaded sb d base)
    (hbase : base ≤ sb.totalBlocks) (hnear : Near sb base) (hb : descStart sb ≤ sb.totalBlocks)
    (hpos : 0 < sb.blocksPerGroup) (hg : g < sb.totalBlocks / sb.blocksPerGroup)
    (hdesc : g * descSize + descSize ≤ ext2BlockSize sb) (hw : 4 * w + 4 ≤ ext2BlockSize sb) :
    ∃ d', allocBit sb blockFields d g base (4 * w)
        (readLE 4 d.disk (blockStart sb base + 4 * w)) k = some d' ∧
      d'.disk = allocDisk sb d.disk g base w k ∧ d'.Working := by
  have hdesc' : g * 32 + 32 ≤ ext2BlockSize sb := hdesc
  let map := readLE 4 d.disk (blockStart sb base + 4 * w) ||| 2 ^ k
  let d₁ : Device := { d with buffer := writeLE 4 d.buffer (4 * w) map }
  have hstore : d.store 4 (4 * w) map = some d₁ := store_eq h hw
  let d₂ := d₁.flush sb base
  let d₃ := d₂.fetch sb (descStart sb)
  have hdisk₂ : d₂.disk = writeLE 4 d.disk (blockStart sb base + 4 * w) map :=
    store_flush hl hw hstore
  have hl₃ : Loaded sb d₃ (descStart sb) := loaded_fetch
  have hoff : g * descSize + 12 + 2 ≤ ext2BlockSize sb := by
    show g * 32 + 12 + 2 ≤ _
    omega
  let n := readLE 2 d₂.disk (descPos sb g + 12)
  have hload : d₃.load 2 (g * descSize + 12) = some n := by
    rw [load_eq h hl₃ hoff]
    show some (readLE 2 d₂.disk _) = _
    rw [← Nat.add_assoc]
    rfl
  let d₄ : Device := { d₃ with buffer := writeLE 2 d₃.buffer (g * descSize + 12) (n + (2 ^ 16 - 1)) }
  have hstore₄ : d₃.store 2 (g * descSize + 12) (n + (2 ^ 16 - 1)) = some d₄ := store_eq h hoff
  have hdisk₅ := store_flush hl₃ hoff hstore₄
  refine ⟨d₄.flush sb (descStart sb), run_bind hstore <|
    run_bind (ext2WriteBlock_eq h (b := base) (d := d₁) hd hbase hnear) <|
    run_bind (ext2GetBlockDesc_eq h (d := d₂) hd hb hpos hg) <| run_bind rfl <| run_bind hload <|
    run_bind hstore₄ <| run_bind (ext2WriteBlock_eq h (d := d₄) hd hb (near_descStart h)) rfl, ?_,
    hd⟩
  rw [hdisk₅]
  show writeLE 2 d₂.disk _ _ = _
  rw [← Nat.add_assoc]
  show writeLE 2 d₂.disk (descPos sb g + 12) (readLE 2 d₂.disk (descPos sb g + 12) + _) = _
  rw [hdisk₂]
  rfl

/-- The words that the scan looks at, in the first block of the bitmap. -/
def word (sb : Superblock) (disk : ℕ → UInt8) (base w : ℕ) : ℕ :=
  readLE 4 disk (blockStart sb base + 4 * w)

/-- The scan from the bit `i` on, up to the first word with a zero. -/
theorem allocLoop_eq (h : sb.blockSize ≤ 2) (hbase : base ≤ sb.totalBlocks) (hnear : Near sb base)
    (hb : descStart sb ≤ sb.totalBlocks) (hpos : 0 < sb.blocksPerGroup)
    (htotal : sb.totalBlocks < wordSize) (hg : g < sb.totalBlocks / sb.blocksPerGroup)
    (hdesc : g * descSize + descSize ≤ ext2BlockSize sb) (hw : 4 * w + 4 ≤ ext2BlockSize sb)
    (hwg : w < sb.blocksPerGroup) (hzero : firstZero (word sb d.disk base w) = some k) :
    ∀ (fuel i : ℕ) (d₁ : Device) (last : Option ℕ), d₁.Working → d₁.disk = d.disk →
      (last = none ∨ last = some 0 ∧ Loaded sb d₁ base) → i ≤ w → 32 ∣ w - i →
      w - i < 32 * fuel →
      (∀ j, i ≤ j → j < w → 32 ∣ w - j → firstZero (word sb d.disk base j) = none) →
      ∃ d', allocLoop sb blockFields sb.blocksPerGroup g base fuel d₁ last i =
          some (d', (g * sb.blocksPerGroup + (w + k)) % wordSize) ∧
        d'.disk = allocDisk sb d.disk g base w k ∧ d'.Working
  | 0, i, d₁, last, _, _, _, _, _, hfuel, _ => by omega
  | fuel + 1, i, d₁, last, hd, hdisk, hlast, hi, hdvd, hfuel, hfull => by
    have hindex : i / ext2BlockSize sb = 0 := Nat.div_eq_of_lt (by omega)
    have hbase' : (base + 0) % wordSize = base := Nat.mod_eq_of_lt (by omega)
    have htable : ∃ d₂, readTable sb d₁ base 0 last = some d₂ ∧ d₂.Working ∧ d₂.disk = d.disk ∧
        Loaded sb d₂ base := by
      rcases hlast with rfl | ⟨rfl, hl⟩
      · refine ⟨d₁.fetch sb base, ?_, hd, hdisk, loaded_fetch⟩
        rw [readTable, if_neg (by simp), hbase']
        exact run_bind (ext2ReadBlock_eq h hd hbase hnear) (if_pos rfl)
      · exact ⟨d₁, if_pos rfl, hd, hdisk, hl⟩
    obtain ⟨d₂, hread, hd₂, hdisk₂, hl₂⟩ := htable
    have hload : d₂.load 4 (4 * i) = some (word sb d.disk base i) := by
      rw [load_eq h hl₂ (by omega), hdisk₂]
      rfl
    rw [allocLoop, if_pos (by omega)]
    simp only [hindex, Nat.zero_mul, Nat.sub_zero, hbase']
    rcases Nat.eq_or_lt_of_le hi with rfl | hlt
    · -- the word with the zero
      have hword : word sb d.disk base i = readLE 4 d₂.disk (blockStart sb base + 4 * i) := by
        rw [hdisk₂]
        rfl
      obtain ⟨d', hbit, hdisk', hd'⟩ :=
        allocBit_eq (k := k) h hd₂ hl₂ hbase hnear hb hpos hg hdesc hw
      refine ⟨d', run_bind hread (run_bind hload ?_), hdisk₂ ▸ hdisk', hd'⟩
      simp only [hzero]
      rw [hword]
      exact run_bind hbit rfl
    · have hle : i + 32 ≤ w := by omega
      have hmod : (i + 32) % wordSize = i + 32 := by
        refine Nat.mod_eq_of_lt ?_
        show _ < 2 ^ 32
        rcases ext2BlockSize_eq h with hs | hs | hs <;> omega
      obtain ⟨d', hrun, hdisk', hd'⟩ := allocLoop_eq h hbase hnear hb hpos htotal hg hdesc hw hwg
        hzero fuel (i + 32) d₂ (some 0) hd₂ hdisk₂ (.inr ⟨rfl, hl₂⟩)
        hle (by omega) (by omega) fun j hj => hfull j (by omega)
      refine ⟨d', run_bind hread (run_bind hload ?_), hdisk', hd'⟩
      simp only [hfull i (Nat.le_refl i) hlt hdvd, hmod]
      exact hrun

/-! ## A group of a image -/

theorem Meta.desc_valid (hg : g < groupCount sb) :
    (Meta.desc (g * descSize / ext2BlockSize sb)).Valid sb := by
  have hlt : g * descSize < groupCount sb * descSize :=
    Nat.mul_lt_mul_of_pos_right hg (by decide)
  exact Nat.lt_of_le_of_lt (Nat.div_mul_le_self _ _) hlt

/-- A descriptor does not go over the end of its block. -/
theorem descPos_mem (h : sb.blockSize ≤ 2) (disk : ℕ → UInt8) (g : ℕ) :
    blockStart sb (Meta.block sb disk (.desc (g * descSize / ext2BlockSize sb))) ≤ descPos sb g ∧
      descPos sb g + descSize ≤ blockStart sb
        (Meta.block sb disk (.desc (g * descSize / ext2BlockSize sb))) + ext2BlockSize sb := by
  have hin : g * 32 % ext2BlockSize sb + 32 ≤ ext2BlockSize sb := by
    rcases ext2BlockSize_eq h with hs | hs | hs <;> rw [hs] <;> omega
  have hpos : descPos sb g = blockStart sb (descStart sb + g * 32 / ext2BlockSize sb) +
      g * 32 % ext2BlockSize sb := by
    show blockStart sb (descStart sb) + g * 32 = _
    unfold blockStart
    have := Nat.div_add_mod (g * 32) (ext2BlockSize sb)
    rw [Nat.add_mul, Nat.mul_comm (g * 32 / ext2BlockSize sb)]
    omega
  show blockStart sb (descStart sb + g * 32 / ext2BlockSize sb) ≤ _ ∧ _ + 32 ≤
    blockStart sb (descStart sb + g * 32 / ext2BlockSize sb) + _
  omega

theorem Meta.desc_zero_valid (hg : g < groupCount sb) :
    (Meta.desc 0).Valid sb := by
  show 0 * ext2BlockSize sb < groupCount sb * 32
  omega

namespace LaidOut

theorem lt_groupCount (wf : LaidOut sb disk) (hg : g < sb.totalBlocks / sb.blocksPerGroup) :
    g < groupCount sb := by
  obtain ⟨hpos, -, hdvd⟩ := wf.perGroup
  have hmul : (g + 1) * sb.blocksPerGroup ≤ sb.totalBlocks := (Nat.le_div_iff_mul_le hpos).1 hg
  rw [Nat.add_mul, Nat.one_mul] at hmul
  have hsuper : superblockBlock sb ≤ 1 := by
    unfold superblockBlock
    rcases ext2BlockSize_eq wf.blockSize with hs | hs | hs <;> rw [hs] <;> decide
  rw [groupCount]
  refine (Nat.le_div_iff_mul_le hpos).2 ?_
  rw [Nat.succ_eq_add_one, Nat.add_mul, Nat.one_mul]
  omega

theorem descStart_le (wf : LaidOut sb disk) (hg : g < groupCount sb) :
    descStart sb ≤ sb.totalBlocks := by
  exact Nat.le_of_lt (wf.inside _ (Meta.desc_zero_valid hg)).2

/-- The bitmap of a group has not the descriptors in it. -/
theorem blockMap_ne_desc {g' : ℕ} (wf : LaidOut sb disk) (hg : g < groupCount sb)
    (hg' : g' < groupCount sb) : blockMap sb disk g ≠
      Meta.block sb disk (.desc (g' * descSize / ext2BlockSize sb)) := by
  intro he
  cases wf.distinct (.blockMap g) _ hg (Meta.desc_valid hg') he

theorem blockMap_ne_descStart (wf : LaidOut sb disk) (hg : g < groupCount sb) :
    blockMap sb disk g ≠ descStart sb := by
  intro he
  cases wf.distinct (.blockMap g) (.desc 0) hg (Meta.desc_zero_valid hg) he

end LaidOut

/-- **The effect of `ext2_alloc_block`** on a group whose descriptor is in the first block of the
table: `w` is the first word with a zero that the scan looks at. -/
theorem ext2AllocBlock_eq (wf : LaidOut sb d.disk) (hd : d.Working)
    (hg : g < sb.totalBlocks / sb.blocksPerGroup) (hdesc : g * descSize + descSize ≤ ext2BlockSize sb)
    (hnear : Near sb (blockMap sb d.disk g)) (hw : 4 * w + 4 ≤ ext2BlockSize sb)
    (hwg : w < sb.blocksPerGroup) (hdvd : 32 ∣ w)
    (hzero : firstZero (word sb d.disk (blockMap sb d.disk g) w) = some k)
    (hfull : ∀ j < w, 32 ∣ j → firstZero (word sb d.disk (blockMap sb d.disk g) j) = none) :
    ∃ d', ext2AllocBlock sb d g = some (d', (g * sb.blocksPerGroup + (w + k)) % wordSize) ∧
      d'.disk = allocDisk sb d.disk g (blockMap sb d.disk g) w k ∧ d'.Working := by
  have hcount := wf.lt_groupCount hg
  have hb := wf.descStart_le hcount
  have hbase : blockMap sb d.disk g ≤ sb.totalBlocks :=
    Nat.le_of_lt (wf.inside (.blockMap g) hcount).2
  have hdesc' : g * 32 + 32 ≤ ext2BlockSize sb := hdesc
  obtain ⟨d', hrun, hdisk, hd'⟩ := allocLoop_eq wf.blockSize hbase hnear hb wf.perGroup.1
    wf.totalBlocks hg hdesc hw hwg hzero (sb.blocksPerGroup / 32 + 2) 0
    (d.fetch sb (descStart sb)) none hd rfl (.inl rfl) (Nat.zero_le w) hdvd
    (by omega) fun j _ hj hdvd' => hfull j hj (by omega)
  have hload : (d.fetch sb (descStart sb)).load 4 (g * descSize + blockFields.map) =
      some (blockMap sb d.disk g) := by
    rw [load_eq wf.blockSize loaded_fetch (by show g * 32 + 0 + 4 ≤ _; omega), ← Nat.add_assoc]
    rfl
  exact ⟨d', run_bind (ext2GetBlockDesc_eq wf.blockSize hd hb wf.perGroup.1 hg) <|
    run_bind hload hrun, hdisk, hd'⟩

/-- The bytes that an allocation changes: a word of the bitmap and the counter of the group. -/
theorem allocDisk_of_notMem {c : ℕ}
    (h : c < blockStart sb base + 4 * w ∨ blockStart sb base + 4 * w + 4 ≤ c)
    (h' : c < descPos sb g + 12 ∨ descPos sb g + 14 ≤ c) :
    allocDisk sb disk g base w k c = disk c := by
  rw [allocDisk]
  rw [writeLE_of_notMem (by omega), writeLE_of_notMem h]

/-- Bytes of a block that is neither the bitmap nor the block of the descriptors. -/
theorem allocDisk_of_ne {i : ℕ} (hw : 4 * w + 4 ≤ ext2BlockSize sb)
    (hdesc : g * descSize + descSize ≤ ext2BlockSize sb) (hbase : b ≠ base)
    (hstart : b ≠ descStart sb) (hi : i < ext2BlockSize sb) :
    allocDisk sb disk g base w k (blockStart sb b + i) = disk (blockStart sb b + i) := by
  have hdesc' : g * 32 + 32 ≤ ext2BlockSize sb := hdesc
  have h₁ := blockStart_disjoint sb hbase
  have h₂ := blockStart_disjoint sb hstart
  have hpos : descPos sb g = blockStart sb (descStart sb) + g * 32 := rfl
  exact allocDisk_of_notMem (by omega) (by omega)

/-- The fields of the descriptors but the counter of the group. -/
theorem readLE_desc_allocDisk (wf : LaidOut sb disk) {g' off j : ℕ} (hg' : g' < groupCount sb)
    (hbase : ∀ m : Meta, m.Valid sb → (∃ i, m = .desc i) → m.block sb disk ≠ base)
    (hw : 4 * w + 4 ≤ ext2BlockSize sb) (hoff : off + j ≤ descSize)
    (h : g' ≠ g ∨ off + j ≤ 12 ∨ 14 ≤ off) :
    readLE j (allocDisk sb disk g base w k) (descPos sb g' + off) =
      readLE j disk (descPos sb g' + off) := by
  have hoff' : off + j ≤ 32 := hoff
  have hvalid := Meta.desc_valid hg'
  have hne := hbase _ hvalid ⟨_, rfl⟩
  have hdis := blockStart_disjoint sb hne
  obtain ⟨hlo, hhi⟩ := descPos_mem wf.blockSize disk g'
  have hg : descPos sb g = blockStart sb (descStart sb) + g * 32 := rfl
  have hg₂ : descPos sb g' = blockStart sb (descStart sb) + g' * 32 := rfl
  refine readLE_congr fun i hi => allocDisk_of_notMem ?_ ?_
  · omega
  · omega

end C4OS.Ext2
