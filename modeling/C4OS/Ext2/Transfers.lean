import C4OS.Ext2.Image
import Mathlib.Data.Set.BooleanAlgebra
import Mathlib.Order.CompletePartialOrder
import Mathlib.Order.Interval.Set.Basic

/-!
# The sectors of a block

`ext2_read_block` and `ext2_write_block` hand a first sector and a number of sectors to the block
device. `Transfers` says which sectors these are, in terms of what the two functions do to any
device, and `transfers_iff` finds them. A block has its own sectors (`OwnSectors`) if they are the
ones that follow the sectors of the blocks before it, inside the volume.

`transfers_own_iff` says which blocks have their own sectors. Two kinds of accepted blocks do not:
the block `total_blocks`, one behind the last, which the comparison in the two functions lets
through, and the blocks from 4 GiB on, where the product in `ext2_block_to_sector` starts over.
-/

namespace C4OS.Ext2

open Foundations

variable {sb : Superblock} {b b' s s' t t' : ℕ}

/-- `ext2_read_block` and `ext2_write_block` transfer the sectors from `s` to `t`, on any device. -/
def Transfers (sb : Superblock) (b s t : ℕ) : Prop :=
  (∀ d, ext2ReadBlock sb d b = blockRead d s (t - s)) ∧
    ∀ d, ext2WriteBlock sb d b = blockWrite d s (t - s)

/-- The first sector of the block, as an exact number. -/
def firstSector (sb : Superblock) (b : ℕ) : ℕ := blockDeviceStart + b * ext2BlockSizeToSectors sb

/-- The block is transferred to its own sectors, inside the volume. -/
structure OwnSectors (sb : Superblock) (b : ℕ) : Prop where
  transfers : Transfers sb b (firstSector sb b) (firstSector sb (b + 1))
  inside : Set.Ico (firstSector sb b) (firstSector sb (b + 1)) ⊆
    Set.Ico blockDeviceStart (firstSector sb sb.totalBlocks)

/-! ## The sectors that are transferred -/

/-- A device with ones in the buffer and zeros on the disk. -/
def Device.marking : Device where
  disk := fun _ => 0
  fault := fun _ => false
  transfers := 0
  buffer := fun _ => 1

/-- What is written shows which sectors were transferred. -/
theorem blockWrite_marking_disk {d : Device} {ok : Bool} {n c : ℕ}
    (h : blockWrite Device.marking s n = some (d, ok)) :
    d.disk c = 1 ↔ s * 512 ≤ c ∧ c < s * 512 + n * 512 := by
  unfold blockWrite at h
  split at h
  · cases h
  · cases h
    show (if _ then (1 : UInt8) else 0) = 1 ↔ _
    split <;> simp_all

/-- Equal writes transfer equal sectors. -/
theorem blockWrite_marking_injective {n m : ℕ} (hn : 0 < n) (hle : n * 512 ≤ pageSize)
    (h : blockWrite Device.marking s n = blockWrite Device.marking t m) : s = t ∧ n = m := by
  obtain ⟨d, ok, hd⟩ : ∃ d ok, blockWrite Device.marking s n = some (d, ok) := by
    rw [blockWrite, if_neg (Nat.not_lt_of_le hle)]
    exact ⟨_, _, rfl⟩
  clear hle
  have hc : ∀ c, (s * 512 ≤ c ∧ c < s * 512 + n * 512) ↔
      (t * 512 ≤ c ∧ c < t * 512 + m * 512) := by
    intro c
    rw [← blockWrite_marking_disk hd, ← blockWrite_marking_disk (h ▸ hd)]
  have hfirst := (hc (s * 512)).1 ⟨le_rfl, by omega⟩
  have hfirst' := (hc (t * 512)).2 ⟨le_rfl, by omega⟩
  have hlast := (hc (s * 512 + n * 512 - 1)).1 ⟨by omega, by omega⟩
  have hlast' := (hc (t * 512 + m * 512 - 1)).2 ⟨by omega, by omega⟩
  omega

theorem sectors_eq (h : sb.blockSize ≤ 2) :
    ext2BlockSize sb = ext2BlockSizeToSectors sb * 512 ∧ 0 < ext2BlockSizeToSectors sb := by
  have hs := sectors_mul h
  rcases ext2BlockSize_eq h with h' | h' | h' <;> omega

theorem transfers_of_le (hb : b ≤ sb.totalBlocks) : Transfers sb b (ext2BlockToSector sb b)
    (ext2BlockToSector sb b + ext2BlockSizeToSectors sb) := by
  constructor <;> intro d
  · rw [ext2ReadBlock, if_neg (Nat.not_lt_of_le hb), Nat.add_sub_cancel_left]
  · rw [ext2WriteBlock, if_neg (Nat.not_lt_of_le hb), Nat.add_sub_cancel_left]

/-- The functions accept a block up to `total_blocks`, and transfer sectors only then. -/
theorem exists_transfers_iff : (∃ s t, Transfers sb b s t) ↔ b ≤ sb.totalBlocks := by
  constructor
  · rintro ⟨s, t, -, hwrite⟩
    by_contra hb
    have hw := hwrite Device.marking
    rw [ext2WriteBlock, if_pos (Nat.lt_of_not_le hb), blockWrite] at hw
    split at hw
    · cases hw
    · have hfalse : (Device.marking, false) = (_, true) := Option.some.inj hw
      exact absurd (congrArg Prod.snd hfalse) Bool.false_ne_true
  · exact fun hb => ⟨_, _, transfers_of_le hb⟩

/-- The sectors that are transferred for a block. -/
theorem transfers_iff (h : sb.blockSize ≤ 2) (hb : b ≤ sb.totalBlocks) : Transfers sb b s t ↔
    s = ext2BlockToSector sb b ∧ t = s + ext2BlockSizeToSectors sb := by
  have hpos := (sectors_eq h).2
  have hle := Nat.le_of_not_lt (sectors_mul h).2
  constructor
  · rintro ⟨-, hwrite⟩
    have hw := hwrite Device.marking
    rw [ext2WriteBlock, if_neg (Nat.not_lt_of_le hb)] at hw
    obtain ⟨hs, hn⟩ := blockWrite_marking_injective hpos hle hw
    clear hle
    omega
  · rintro ⟨hs, ht⟩
    rw [ht, hs]
    exact transfers_of_le hb

/-- The first sector that is transferred: that of the block that stands for it. -/
theorem ext2BlockToSector_eq (h : sb.blockSize ≤ 2) :
    ext2BlockToSector sb b = firstSector sb (deviceBlock sb b) := by
  have hsector := ext2BlockToSector_mul h (near_deviceBlock (b := b) h)
  have hsize := (sectors_eq h).1
  rw [ext2BlockToSector_deviceBlock h, blockStart, hsize, ← Nat.mul_assoc, ← Nat.add_mul] at hsector
  exact Nat.eq_of_mul_eq_mul_right (by decide) hsector

/-! ## The sectors of two blocks -/

theorem firstSector_succ : firstSector sb (b + 1) = firstSector sb b + ext2BlockSizeToSectors sb := by
  rw [firstSector, firstSector, Nat.succ_mul, Nat.add_assoc]

theorem firstSector_mono (hle : b ≤ b') : firstSector sb b ≤ firstSector sb b' :=
  Nat.add_le_add_left (Nat.mul_le_mul_right _ hle) _

theorem firstSector_injective (h : sb.blockSize ≤ 2) :
    firstSector sb b = firstSector sb b' ↔ b = b' := by
  constructor
  · intro he
    exact Nat.eq_of_mul_eq_mul_right (sectors_eq h).2 (Nat.add_left_cancel he)
  · exact fun he => he ▸ rfl

/-- The sectors of two blocks do not meet, unless it is one block. -/
theorem disjoint_firstSector (h : sb.blockSize ≤ 2) :
    Disjoint (Set.Ico (firstSector sb b) (firstSector sb (b + 1)))
      (Set.Ico (firstSector sb b') (firstSector sb (b' + 1))) ↔ b ≠ b' := by
  have hpos := (sectors_eq h).2
  constructor
  · rintro hdis rfl
    have hmem : firstSector sb b ∈ Set.Ico (firstSector sb b) (firstSector sb (b + 1)) :=
      ⟨le_rfl, by rw [firstSector_succ]; omega⟩
    exact Set.disjoint_left.1 hdis hmem hmem
  · intro hne
    rw [Set.disjoint_left]
    rintro c ⟨hlo, hhi⟩ ⟨hlo', hhi'⟩
    rcases Nat.lt_or_gt_of_ne hne with hlt | hlt
    · have hle : firstSector sb (b + 1) ≤ firstSector sb b' := firstSector_mono hlt
      omega
    · have hle : firstSector sb (b' + 1) ≤ firstSector sb b := firstSector_mono hlt
      omega

/-- **A block has its own sectors exactly when it starts in the first 4 GiB and is not the block
behind the last one. Two blocks share no sector exactly when their numbers differ modulo the number
of blocks in 4 GiB.** -/
theorem transfers_own_iff (h : sb.blockSize ≤ 2) :
    (∀ b ≤ sb.totalBlocks, OwnSectors sb b ↔ Near sb b ∧ b < sb.totalBlocks) ∧
      ∀ b b' s t s' t', Transfers sb b s t → Transfers sb b' s' t' →
        (Disjoint (Set.Ico s t) (Set.Ico s' t') ↔
          b % (wordSize / ext2BlockSize sb) ≠ b' % (wordSize / ext2BlockSize sb)) := by
  constructor
  · intro b hb
    have hsector : firstSector sb b = ext2BlockToSector sb b ↔ Near sb b := by
      rw [ext2BlockToSector_eq h, firstSector_injective h, eq_comm, deviceBlock_eq_iff h]
    constructor
    · rintro ⟨htransfers, hinside⟩
      have hlast : firstSector sb b ∈ Set.Ico (firstSector sb b) (firstSector sb (b + 1)) :=
        ⟨le_rfl, by rw [firstSector_succ]; exact Nat.lt_add_of_pos_right (sectors_eq h).2⟩
      have hlt : firstSector sb b < firstSector sb sb.totalBlocks := (hinside hlast).2
      constructor
      · exact hsector.1 ((transfers_iff h hb).1 htransfers).1
      · by_contra hge
        exact absurd (firstSector_mono (Nat.le_of_not_lt hge)) (Nat.not_le_of_lt hlt)
    · rintro ⟨hnear, hlt⟩
      constructor
      · exact (transfers_iff h hb).2 ⟨hsector.2 hnear, firstSector_succ⟩
      · apply Set.Ico_subset_Ico
        · exact Nat.le_add_right _ _
        · exact firstSector_mono hlt
  · intro b b' s t s' t' ht ht'
    obtain ⟨hs, ht⟩ := (transfers_iff h (exists_transfers_iff.1 ⟨s, t, ht⟩)).1 ht
    obtain ⟨hs', ht'⟩ := (transfers_iff h (exists_transfers_iff.1 ⟨s', t', ht'⟩)).1 ht'
    rw [ht, hs, ht', hs', ext2BlockToSector_eq h, ext2BlockToSector_eq h, ← firstSector_succ,
      ← firstSector_succ]
    exact disjoint_firstSector h

/-- A volume of 4 GiB and 1 KiB, in blocks of 1024 bytes. -/
def wideVolume : Superblock where
  totalInodes := 0
  totalBlocks := 2 ^ 22 + 1
  blockSize := 0
  blocksPerGroup := 8192
  inodesPerGroup := 8192
  inodeSize := 128

theorem transfers_own_wideVolume :
    (OwnSectors wideVolume 3 ↔ Near wideVolume 3 ∧ 3 < wideVolume.totalBlocks) ∧
      OwnSectors wideVolume 3 :=
  have h := (transfers_own_iff (by decide)).1 3 (by decide)
  ⟨h, h.2 ⟨show 3 * 1024 < 2 ^ 32 by decide, by decide⟩⟩

/-- The last block of the volume is transferred to the sectors of its first block, and the block
behind the last one is accepted, too. -/
theorem wideVolume_not_own :
    2 ^ 22 < wideVolume.totalBlocks ∧ Transfers wideVolume (2 ^ 22) 2048 2050 ∧
      Transfers wideVolume 0 2048 2050 ∧ ¬ OwnSectors wideVolume (2 ^ 22) ∧
      ∃ s t, Transfers wideVolume (2 ^ 22 + 1) s t ∧ ¬ OwnSectors wideVolume (2 ^ 22 + 1) := by
  have hfar : Transfers wideVolume (2 ^ 22) 2048 2050 :=
    (transfers_iff (by decide) (by decide)).2 (by constructor <;> decide)
  have hbehind := transfers_of_le (show 2 ^ 22 + 1 ≤ wideVolume.totalBlocks by decide)
  refine ⟨by decide, hfar, (transfers_iff (by decide) (by decide)).2 (by constructor <;> decide), ?_,
    _, _, hbehind, ?_⟩
  · rintro ⟨htransfers, -⟩
    have hfirst := ((transfers_iff (by decide) (by decide)).1 htransfers).1
    exact absurd hfirst (by decide)
  · rintro ⟨-, hinside⟩
    have hmem : firstSector wideVolume (2 ^ 22 + 1) ∈
        Set.Ico (firstSector wideVolume (2 ^ 22 + 1)) (firstSector wideVolume (2 ^ 22 + 2)) := by
      constructor <;> decide
    exact absurd (hinside hmem).2 (by decide)

end C4OS.Ext2
