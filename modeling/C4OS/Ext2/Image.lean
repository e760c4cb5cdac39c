import C4OS.Ext2.Client

/-!
# Images and files

Where the blocks of an image are on the disk, and what is in a file. `ext2_read_block` brings a
block into `block_buffer` (`ext2ReadBlock_eq`), and `ext2_write_block` puts the buffer onto the disk
(`ext2WriteBlock_eq`), as long as the device works and the block starts in the first 4 GiB of the
file system: the product in `ext2_block_to_sector` has 32 bits.

The blocks of a file are given by `fileMap`, from the record of its inode and the table of the
indirect block, and its bytes by `fileByte`. `FileMapped` says that the blocks up to the size of the
file are there, and `FileNear` that they are in the first 4 GiB.
-/

namespace C4OS.Ext2

open Foundations Ringbuffer

variable {sb : Superblock} {d : Device} {e : Inode} {b j : ℕ}

/-! ## Blocks -/

/-- The device reports no errors. -/
def Device.Working (d : Device) : Prop := ∀ k, d.fault k = false

@[simp] theorem System.connect_disk (disk : ℕ → UInt8) : (System.connect disk).dev.disk = disk := rfl

theorem System.connect_working (disk : ℕ → UInt8) : (System.connect disk).dev.Working := fun _ => rfl

/-- The position of a block on the disk. -/
def blockStart (sb : Superblock) (b : ℕ) : ℕ := blockDeviceStart * 512 + b * ext2BlockSize sb

/-- A block starts in the first 4 GiB of the file system. -/
def Near (sb : Superblock) (b : ℕ) : Prop := b * ext2BlockSize sb < wordSize

/-- The block sizes that fit into the buffer. -/
theorem ext2BlockSize_eq (h : sb.blockSize ≤ 2) :
    ext2BlockSize sb = 1024 ∨ ext2BlockSize sb = 2048 ∨ ext2BlockSize sb = 4096 := by
  unfold ext2BlockSize
  generalize sb.blockSize = s at h
  obtain rfl | rfl | rfl : s = 0 ∨ s = 1 ∨ s = 2 := by omega
  · exact .inl (by decide)
  · exact .inr (.inl (by decide))
  · exact .inr (.inr (by decide))

/-- A block fits into the buffer. -/
theorem ext2BlockSize_le (h : sb.blockSize ≤ 2) : ext2BlockSize sb ≤ pageSize := by
  show _ ≤ 4096
  rcases ext2BlockSize_eq h with hs | hs | hs <;> omega

theorem le_ext2BlockSize (h : sb.blockSize ≤ 2) : 1024 ≤ ext2BlockSize sb := by
  rcases ext2BlockSize_eq h with hs | hs | hs <;> omega

theorem ext2BlockSize_pos (h : sb.blockSize ≤ 2) : 0 < ext2BlockSize sb :=
  Nat.lt_of_lt_of_le (by decide) (le_ext2BlockSize h)

/-- Two small blocks fit into the buffer. -/
theorem ext2BlockSize_le_half (h : sb.blockSize ≤ 1) : ext2BlockSize sb ≤ 2048 := by
  unfold ext2BlockSize
  generalize sb.blockSize = s at h
  obtain rfl | rfl : s = 0 ∨ s = 1 := by omega
  · decide
  · decide

/-- The sector of a block, where the product does not overflow. -/
theorem ext2BlockToSector_mul (h : sb.blockSize ≤ 2) (hb : Near sb b) :
    ext2BlockToSector sb b * 512 = blockStart sb b := by
  have hmod : b * ext2BlockSize sb % 2 ^ 32 = b * ext2BlockSize sb := Nat.mod_eq_of_lt hb
  have hlt : b * ext2BlockSize sb < 2 ^ 32 := hb
  show (b * ext2BlockSize sb % 2 ^ 32 / 512 + 2048) % 2 ^ 32 * 512 = 2048 * 512 + _
  rw [hmod, Nat.mod_eq_of_lt (by omega)]
  rcases ext2BlockSize_eq h with hs | hs | hs <;> rw [hs] at hlt ⊢ <;> omega

namespace Device

/-- The device after a block was read. -/
def fetch (d : Device) (sb : Superblock) (b : ℕ) : Device :=
  { d with
    transfers := d.transfers + 1
    buffer := fun c =>
      if c < ext2BlockSize sb then d.disk (blockStart sb b + c) else d.buffer c }

/-- The device after a block was written. -/
def flush (d : Device) (sb : Superblock) (b : ℕ) : Device :=
  { d with
    transfers := d.transfers + 1
    disk := fun c =>
      if blockStart sb b ≤ c ∧ c < blockStart sb b + ext2BlockSize sb then
        d.buffer (c - blockStart sb b)
      else d.disk c }

@[simp] theorem fetch_disk : (d.fetch sb b).disk = d.disk := rfl

@[simp] theorem flush_buffer : (d.flush sb b).buffer = d.buffer := rfl

theorem Working.fetch (h : d.Working) : (d.fetch sb b).Working := h

/-- A number of a block that was read. -/
theorem load_fetch {k off : ℕ} (h : sb.blockSize ≤ 2) (hoff : off + k ≤ ext2BlockSize sb) :
    (d.fetch sb b).load k off = some (readLE k (fun i => d.disk (blockStart sb b + i)) off) := by
  have hle : off + k ≤ pageSize := Nat.le_trans hoff (ext2BlockSize_le h)
  rw [load, if_pos hle]
  congr 1
  refine readLE_congr fun i hi => ?_
  show (if off + i < ext2BlockSize sb then _ else _) = _
  rw [if_pos (by omega)]

end Device

theorem sectors_mul (h : sb.blockSize ≤ 2) :
    ext2BlockSizeToSectors sb * 512 = ext2BlockSize sb ∧
      ¬ ext2BlockSizeToSectors sb * 512 > pageSize := by
  have hs : ext2BlockSizeToSectors sb = ext2BlockSize sb / 512 := rfl
  show _ ∧ ¬ _ > 4096
  rcases ext2BlockSize_eq h with h' | h' | h' <;> omega

theorem ext2ReadBlock_eq (h : sb.blockSize ≤ 2) (hd : d.Working) (hb : b ≤ sb.totalBlocks)
    (hn : Near sb b) : ext2ReadBlock sb d b = some (d.fetch sb b, true) := by
  obtain ⟨hs, hle⟩ := sectors_mul h
  rw [ext2ReadBlock, if_neg (Nat.not_lt_of_le hb), blockRead, if_neg hle, hd d.transfers,
    ext2BlockToSector_mul h hn, hs]
  rfl

theorem ext2WriteBlock_eq (h : sb.blockSize ≤ 2) (hd : d.Working) (hb : b ≤ sb.totalBlocks)
    (hn : Near sb b) : ext2WriteBlock sb d b = some (d.flush sb b, true) := by
  obtain ⟨hs, hle⟩ := sectors_mul h
  rw [ext2WriteBlock, if_neg (Nat.not_lt_of_le hb), blockWrite, if_neg hle, hd d.transfers,
    ext2BlockToSector_mul h hn, hs]
  rfl

/-- The block that is transferred for a block: the product in `ext2_block_to_sector` has 32 bits. -/
def deviceBlock (sb : Superblock) (b : ℕ) : ℕ := b % (wordSize / ext2BlockSize sb)

theorem near_iff_lt (h : sb.blockSize ≤ 2) : Near sb b ↔ b < wordSize / ext2BlockSize sb := by
  show b * ext2BlockSize sb < 2 ^ 32 ↔ b < 2 ^ 32 / ext2BlockSize sb
  rcases ext2BlockSize_eq h with hs | hs | hs <;> rw [hs] <;> omega

theorem near_deviceBlock (h : sb.blockSize ≤ 2) : Near sb (deviceBlock sb b) := by
  refine (near_iff_lt h).2 (Nat.mod_lt _ ?_)
  show 0 < 2 ^ 32 / ext2BlockSize sb
  rcases ext2BlockSize_eq h with hs | hs | hs <;> rw [hs] <;> decide

theorem deviceBlock_eq_iff (h : sb.blockSize ≤ 2) : deviceBlock sb b = b ↔ Near sb b := by
  constructor
  · intro he
    rw [← he]
    exact near_deviceBlock h
  · exact fun hn => Nat.mod_eq_of_lt ((near_iff_lt h).1 hn)

theorem ext2BlockToSector_deviceBlock (h : sb.blockSize ≤ 2) :
    ext2BlockToSector sb (deviceBlock sb b) = ext2BlockToSector sb b := by
  have hmul : deviceBlock sb b * ext2BlockSize sb % 2 ^ 32 = b * ext2BlockSize sb % 2 ^ 32 := by
    show b % (2 ^ 32 / ext2BlockSize sb) * ext2BlockSize sb % 2 ^ 32 = _
    rcases ext2BlockSize_eq h with hs | hs | hs <;> rw [hs] <;> omega
  show (_ % 2 ^ 32 / 512 + _) % _ = (_ % 2 ^ 32 / 512 + _) % _
  rw [hmul]

/-- The device after a transfer that it reports an error for. -/
def Device.failed (d : Device) : Device := { d with transfers := d.transfers + 1 }

/-- Every block in the file system is read unless the device reports an error, but maybe not from
its place. -/
theorem ext2ReadBlock_transfer (h : sb.blockSize ≤ 2) (hb : b ≤ sb.totalBlocks) :
    ext2ReadBlock sb d b = some (if d.fault d.transfers then (d.failed, false)
      else (d.fetch sb (deviceBlock sb b), true)) := by
  obtain ⟨hs, hle⟩ := sectors_mul h
  rw [ext2ReadBlock, if_neg (Nat.not_lt_of_le hb), blockRead, if_neg hle,
    ← ext2BlockToSector_deviceBlock h, ext2BlockToSector_mul h (near_deviceBlock h), hs]
  split
  · rfl
  · rfl

/-- Every block in the file system is read, but maybe not from its place. -/
theorem ext2ReadBlock_deviceBlock (h : sb.blockSize ≤ 2) (hd : d.Working) (hb : b ≤ sb.totalBlocks) :
    ext2ReadBlock sb d b = some (d.fetch sb (deviceBlock sb b), true) := by
  rw [ext2ReadBlock_transfer h hb, hd d.transfers]
  rfl

/-- Every block in the file system is written, but maybe not to its place. -/
theorem ext2WriteBlock_deviceBlock (h : sb.blockSize ≤ 2) (hd : d.Working)
    (hb : b ≤ sb.totalBlocks) :
    ext2WriteBlock sb d b = some (d.flush sb (deviceBlock sb b), true) := by
  have hle : deviceBlock sb b ≤ sb.totalBlocks := Nat.le_trans (Nat.mod_le _ _) hb
  rw [← ext2WriteBlock_eq h hd hle (near_deviceBlock h), ext2WriteBlock, ext2WriteBlock,
    ext2BlockToSector_deviceBlock h, if_neg (Nat.not_lt_of_le hb), if_neg (Nat.not_lt_of_le hle)]

/-! ## Reading leaves the disk as it is -/

/-- Two devices with the same disk and the same errors. -/
def Device.Same (d d' : Device) : Prop := d'.disk = d.disk ∧ d'.fault = d.fault

theorem Device.Same.trans {d₁ d₂ d₃ : Device} (h : d₁.Same d₂) (h' : d₂.Same d₃) : d₁.Same d₃ :=
  ⟨h'.1.trans h.1, h'.2.trans h.2⟩

theorem Device.Working.same {d' : Device} (h : d.Working) (hs : d.Same d') : d'.Working :=
  fun k => by rw [hs.2, h k]

theorem ext2ReadBlock_same {d' : Device} {ok : Bool}
    (h : ext2ReadBlock sb d b = some (d', ok)) : d.Same d' := by
  unfold ext2ReadBlock blockRead at h
  split at h
  · cases h
    exact ⟨rfl, rfl⟩
  · split at h
    · cases h
    · split at h <;> cases h <;> exact ⟨rfl, rfl⟩

theorem ext2GetInode_same {d' : Device} {inode : ℕ} {buf : Option (ℕ × Inode)}
    (h : ext2GetInode sb d inode = some (d', buf)) : d.Same d' := by
  simp only [ext2GetInode, ext2GetBlockDescs, Option.bind_eq_bind, Option.bind_eq_some_iff,
    Option.pure_def] at h
  obtain ⟨⟨d₁, ok₁⟩, hdescs, h⟩ := h
  have h₁ := ext2ReadBlock_same hdescs
  simp only at h
  split at h
  · cases h
    exact h₁
  · simp only [Option.bind_eq_some_iff] at h
    obtain ⟨⟨block, index⟩, -, ⟨d₂, ok₂⟩, hread, h⟩ := h
    have h₂ := ext2ReadBlock_same hread
    simp only at h
    split at h
    · simp only [Option.bind_eq_some_iff] at h
      obtain ⟨e, -, h⟩ := h
      cases h
      exact h₁.trans h₂
    · cases h
      exact h₁.trans h₂

/-- `fs_set_node` reads the inode, and leaves the disk and the ring as they are. -/
theorem fsSetNode_same {sys sys' : System} {inode : ℕ} {reply : Reply}
    (h : fsSetNode sb sys inode = some (sys', reply)) :
    sys.dev.Same sys'.dev ∧ sys'.conn.ring = sys.conn.ring := by
  simp only [fsSetNode, handleSetNode, Option.bind_eq_bind, Option.bind_eq_some_iff,
    Option.pure_def] at h
  obtain ⟨⟨d, conn, replies⟩, ⟨⟨d', buf⟩, hget, hset⟩, hrec⟩ := h
  cases hset
  unfold receive at hrec
  split at hrec
  · cases hrec
  · cases hrec
    exact ⟨ext2GetInode_same hget, rfl⟩

/-! ## Writing changes one block -/

/-- Two blocks have no byte in common. -/
theorem blockStart_disjoint (sb : Superblock) {b' : ℕ} (hne : b ≠ b') :
    blockStart sb b + ext2BlockSize sb ≤ blockStart sb b' ∨
      blockStart sb b' + ext2BlockSize sb ≤ blockStart sb b := by
  unfold blockStart
  rcases Nat.lt_or_gt_of_ne hne with hlt | hlt
  · left
    have : (b + 1) * ext2BlockSize sb ≤ b' * ext2BlockSize sb := Nat.mul_le_mul_right _ hlt
    rw [Nat.add_mul, Nat.one_mul] at this
    omega
  · right
    have : (b' + 1) * ext2BlockSize sb ≤ b * ext2BlockSize sb := Nat.mul_le_mul_right _ hlt
    rw [Nat.add_mul, Nat.one_mul] at this
    omega

/-! ## Files -/

/-- The disk block of a block of a file, by the direct pointers and the table of the indirect
block. -/
def fileMap (sb : Superblock) (disk : ℕ → UInt8) (e : Inode) (j : ℕ) : ℕ :=
  if j < 12 then e.directPtr j
  else readLE 4 (fun i => disk (blockStart sb e.singleIndirectPtr + i)) (4 * (j - 12))

/-- A byte of a file. -/
def fileByte (sb : Superblock) (disk : ℕ → UInt8) (e : Inode) (i : ℕ) : UInt8 :=
  disk (blockStart sb (fileMap sb disk e (i / ext2BlockSize sb)) + i % ext2BlockSize sb)

/-- The contents of a file. -/
def fileContent (sb : Superblock) (disk : ℕ → UInt8) (e : Inode) : List UInt8 :=
  (List.range e.lowerSize).map (fileByte sb disk e)

@[simp] theorem length_fileContent {disk : ℕ → UInt8} :
    (fileContent sb disk e).length = e.lowerSize := by
  simp [fileContent]

/-- A block of a file that is mapped to a block of the image. -/
structure BlockMapped (sb : Superblock) (disk : ℕ → UInt8) (e : Inode) (j : ℕ) : Prop where
  lt : j < ext2PointersPerBlock sb + 12
  pos : 0 < fileMap sb disk e j
  le : fileMap sb disk e j ≤ sb.totalBlocks
  indirect : 12 ≤ j → 0 < e.singleIndirectPtr ∧ e.singleIndirectPtr ≤ sb.totalBlocks

/-- The blocks of a file up to its size are mapped. -/
def FileMapped (sb : Superblock) (disk : ℕ → UInt8) (e : Inode) : Prop :=
  ∀ j, j * ext2BlockSize sb < e.lowerSize → BlockMapped sb disk e j

/-- A block of a file is in the first 4 GiB, and so is the indirect block that it is found with. -/
def BlockNear (sb : Superblock) (disk : ℕ → UInt8) (e : Inode) (j : ℕ) : Prop :=
  Near sb (fileMap sb disk e j) ∧ (12 ≤ j → Near sb e.singleIndirectPtr)

/-- The blocks of a file up to its size are in the first 4 GiB. -/
def FileNear (sb : Superblock) (disk : ℕ → UInt8) (e : Inode) : Prop :=
  ∀ j, j * ext2BlockSize sb < e.lowerSize → BlockNear sb disk e j

theorem eq_zero_of_mul_lt {n x : ℕ} (hx : x ≤ n) (hj : j * n < x) : j = 0 := by
  rcases Nat.eq_zero_or_pos j with h | h
  · exact h
  · have := Nat.le_mul_of_pos_left n h
    omega

/-- The block of a file at an index up to its size is one of the blocks of the file. -/
theorem fileMap_mem {disk : ℕ → UInt8} {bs : List ℕ} (hlt : j < bs.length)
    (hmap : bs = (List.range bs.length).map (fileMap sb disk e)) : fileMap sb disk e j ∈ bs := by
  rw [hmap]
  exact List.mem_map_of_mem (List.mem_range.2 hlt)

/-- A file with the blocks `bs`. -/
theorem fileMapped_of_blocks {disk : ℕ → UInt8} {bs : List ℕ}
    (hsize : e.lowerSize ≤ bs.length * ext2BlockSize sb)
    (hlen : bs.length ≤ ext2PointersPerBlock sb + 12)
    (hmap : bs = (List.range bs.length).map (fileMap sb disk e))
    (hbs : ∀ b ∈ bs, 0 < b ∧ b ≤ sb.totalBlocks)
    (hind : 12 < bs.length → 0 < e.singleIndirectPtr ∧ e.singleIndirectPtr ≤ sb.totalBlocks) :
    FileMapped sb disk e := by
  intro j hj
  have hlt : j < bs.length := Nat.lt_of_mul_lt_mul_right (hj.trans_le hsize)
  obtain ⟨hpos, hle⟩ := hbs _ (fileMap_mem hlt hmap)
  exact ⟨hlt.trans_le hlen, hpos, hle, fun h => hind (h.trans_lt hlt)⟩

theorem fileNear_of_blocks {disk : ℕ → UInt8} {bs : List ℕ}
    (hsize : e.lowerSize ≤ bs.length * ext2BlockSize sb)
    (hmap : bs = (List.range bs.length).map (fileMap sb disk e)) (hbs : ∀ b ∈ bs, Near sb b)
    (hind : 12 < bs.length → Near sb e.singleIndirectPtr) : FileNear sb disk e := by
  intro j hj
  have hlt : j < bs.length := Nat.lt_of_mul_lt_mul_right (hj.trans_le hsize)
  exact ⟨hbs _ (fileMap_mem hlt hmap), fun h => hind (h.trans_lt hlt)⟩

/-- A file with one block. -/
theorem fileMapped_of_single {disk : ℕ → UInt8} (hsize : e.lowerSize ≤ ext2BlockSize sb)
    (hpos : 0 < e.directPtr 0) (hle : e.directPtr 0 ≤ sb.totalBlocks) : FileMapped sb disk e := by
  intro j hj
  obtain rfl : j = 0 := eq_zero_of_mul_lt hsize hj
  exact ⟨Nat.succ_pos _, hpos, hle, fun h => absurd h (by decide)⟩

theorem fileNear_of_single {disk : ℕ → UInt8} (hsize : e.lowerSize ≤ ext2BlockSize sb)
    (hnear : Near sb (e.directPtr 0)) : FileNear sb disk e := by
  intro j hj
  obtain rfl : j = 0 := eq_zero_of_mul_lt hsize hj
  exact ⟨hnear, fun h => absurd h (by decide)⟩

/-- The number of the disk block that `ext2_inode_read_block` finds. -/
theorem inodeBlock_eq (h : sb.blockSize ≤ 2) (hd : d.Working) (hm : BlockMapped sb d.disk e j)
    (hn : BlockNear sb d.disk e j) :
    ∃ d', inodeBlock sb d e j = some (d', fileMap sb d.disk e j) ∧ d'.disk = d.disk ∧
      d'.Working := by
  rw [inodeBlock]
  split
  · next hj => exact ⟨d, by rw [fileMap, if_pos hj], rfl, hd⟩
  · next hj =>
    obtain ⟨hpos, hle⟩ := hm.indirect (by omega)
    rw [if_pos hm.lt, if_neg (by omega), ext2ReadBlock_eq h hd hle (hn.2 (by omega))]
    refine ⟨d.fetch sb e.singleIndirectPtr, ?_, rfl, hd.fetch⟩
    have hoff : 4 * (j - 12) + 4 ≤ ext2BlockSize sb := by
      have hlt : j < ext2BlockSize sb / 4 + 12 := hm.lt
      omega
    show (Option.bind (Device.load _ _ _) _) = _
    rw [Device.load_fetch h hoff, fileMap, if_neg hj]
    rfl

/-- **A block of a file that is mapped is read from where it is mapped to.** -/
theorem ext2InodeReadBlock_eq (h : sb.blockSize ≤ 2) (hd : d.Working)
    (hm : BlockMapped sb d.disk e j) (hn : BlockNear sb d.disk e j) :
    ∃ d', ext2InodeReadBlock sb d e j = some (d', true) ∧ d'.disk = d.disk ∧ d'.Working ∧
      ∀ c < ext2BlockSize sb, d'.buffer c = d.disk (blockStart sb (fileMap sb d.disk e j) + c) := by
  obtain ⟨d₁, hrun, hdisk, hd₁⟩ := inodeBlock_eq h hd hm hn
  have hpos := hm.pos
  refine ⟨d₁.fetch sb (fileMap sb d.disk e j), run_bind hrun ?_, hdisk, hd₁.fetch, fun c hc => ?_⟩
  · exact (if_pos (by omega)).trans (ext2ReadBlock_eq h hd₁ hm.le hn.1)
  · show (if c < ext2BlockSize sb then d₁.disk _ else _) = _
    rw [if_pos hc, hdisk]

/-! ## Copies of a record -/

/-- Two records with the same bytes. -/
def Inode.Agrees (e e' : Inode) : Prop := ∀ i < inodeRecordSize, e.byte i = e'.byte i

namespace Inode.Agrees

variable {e' : Inode} {disk : ℕ → UInt8}

theorem lowerSize_eq (h : e.Agrees e') : e.lowerSize = e'.lowerSize :=
  readLE_congr fun i hi => h (4 + i) (by show 4 + i < 120; omega)

theorem singleIndirectPtr_eq (h : e.Agrees e') : e.singleIndirectPtr = e'.singleIndirectPtr :=
  readLE_congr fun i hi => h (88 + i) (by show 88 + i < 120; omega)

theorem directPtr_eq (h : e.Agrees e') (hj : j < 12) : e.directPtr j = e'.directPtr j :=
  readLE_congr fun i hi => h (40 + 4 * j + i) (by show 40 + 4 * j + i < 120; omega)

theorem fileMap_eq (h : e.Agrees e') (j : ℕ) : fileMap sb disk e j = fileMap sb disk e' j := by
  unfold fileMap
  split
  · next hj => exact h.directPtr_eq hj
  · rw [h.singleIndirectPtr_eq]

theorem fileMapped (h : e.Agrees e') (hm : FileMapped sb disk e') : FileMapped sb disk e := by
  intro j hj
  have hj := hm j (h.lowerSize_eq ▸ hj)
  exact ⟨hj.lt, (h.fileMap_eq j).symm ▸ hj.pos, (h.fileMap_eq j).symm ▸ hj.le,
    h.singleIndirectPtr_eq.symm ▸ hj.indirect⟩

theorem fileNear (h : e.Agrees e') (hn : FileNear sb disk e') : FileNear sb disk e := by
  intro j hj
  have hj := hn j (h.lowerSize_eq ▸ hj)
  exact ⟨(h.fileMap_eq j).symm ▸ hj.1, h.singleIndirectPtr_eq.symm ▸ hj.2⟩

end Inode.Agrees

end C4OS.Ext2
