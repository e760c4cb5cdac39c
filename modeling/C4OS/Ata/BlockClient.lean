import C4OS.Ata.Blocks
import C4OS.Ext2.Model

/-!
# The file system over the driver

The file system reads and writes blocks through `block_read` and `block_write`, which send a request
to the driver with the one page that both have mapped. A program that uses the disk in no other way
is a `Client`: what it does next may depend on all bytes of the page. Over honest disks every client
gets the same from the driver as from the device of the model of the file system, with a disk that
has no faults (`client_eq_device`). All block sizes up to a page make requests that are in range.
-/

namespace C4OS.Ata

open Foundations
open Ext2 (Superblock Device ext2BlockSize ext2BlockToSector ext2BlockSizeToSectors)

/-! ## Words in memory -/

/-- The bytes of words, the lower one first. -/
def bytesOf (words : ℕ → UInt16) : ℕ → UInt8 := fun c =>
  UInt8.ofNat ((words (c / 2)).toNat / 256 ^ (c % 2))

/-- The words that have some bytes. -/
def wordsOf (bytes : ℕ → UInt8) : ℕ → UInt16 := fun i =>
  UInt16.ofNat ((bytes (2 * i)).toNat + 256 * (bytes (2 * i + 1)).toNat)

theorem bytesOf_wordsOf (bytes : ℕ → UInt8) : bytesOf (wordsOf bytes) = bytes := by
  funext c
  have hlow := (bytes (2 * (c / 2))).toNat_lt
  have hhigh := (bytes (2 * (c / 2) + 1)).toNat_lt
  have hsum : (bytes (2 * (c / 2))).toNat + 256 * (bytes (2 * (c / 2) + 1)).toNat < 2 ^ 16 := by
    omega
  apply UInt8.toNat_inj.1
  rw [bytesOf, wordsOf, UInt8.toNat_ofNat', UInt16.toNat_ofNat', Nat.mod_eq_of_lt hsum]
  rcases Nat.mod_two_eq_zero_or_one c with hc | hc
  · have heq : 2 * (c / 2) = c := by omega
    rw [hc, Nat.pow_zero, Nat.div_one, Nat.add_mul_mod_self_left, Nat.mod_eq_of_lt hlow, heq]
  · have heq : 2 * (c / 2) + 1 = c := by omega
    rw [hc, Nat.pow_one, Nat.add_mul_div_left _ _ (by decide), Nat.div_eq_of_lt hlow,
      Nat.zero_add, Nat.mod_eq_of_lt hhigh, heq]

/-- The bytes of a transfer. -/
theorem bytesOf_ite {words words' : ℕ → UInt16} {n : ℕ} (w : ℕ) :
    bytesOf (readInto words (256 * w) (256 * n) words') = fun c =>
      if c < n * 512 then bytesOf words (w * 512 + c) else bytesOf words' c := by
  funext c
  have hhalf : 256 * w + c / 2 = (w * 512 + c) / 2 := by omega
  have hmod : c % 2 = (w * 512 + c) % 2 := by omega
  rw [bytesOf, readInto]
  split
  · rw [if_pos (by omega), bytesOf, hhalf, hmod]
  · rw [if_neg (by omega), bytesOf]

/-- The bytes of a disk after a transfer. -/
theorem bytesOf_write {words words' : ℕ → UInt16} {n w : ℕ} :
    (bytesOf fun i => if 256 * w ≤ i ∧ i < 256 * (w + n) then words' (i - 256 * w) else words i) =
      fun c => if w * 512 ≤ c ∧ c < w * 512 + n * 512 then bytesOf words' (c - w * 512)
        else bytesOf words c := by
  funext c
  rw [bytesOf]
  by_cases hc : w * 512 ≤ c ∧ c < w * 512 + n * 512
  · have hhalf : c / 2 - 256 * w = (c - w * 512) / 2 := by omega
    have hmod : c % 2 = (c - w * 512) % 2 := by omega
    rw [if_pos (by omega), if_pos hc, bytesOf, hhalf, hmod]
  · rw [if_neg (by omega), if_neg hc, bytesOf]

/-! ## Clients -/

/-- A program that uses the disk only by the blocks of a file system and the page of its buffer. -/
inductive Client (β : Type)
  | done (b : β)
  | superblock (k : Bool → Client β)
  | read (block : ℕ) (k : Bool → Client β)
  | write (block : ℕ) (k : Bool → Client β)
  | page (change : (ℕ → UInt8) → ℕ → UInt8) (k : (ℕ → UInt8) → Client β)

/-- `ext2_get_superblock`: whether the pointer it returns is not null. -/
def ext2GetSuperblock (d : Device) : Option (Device × Bool) := Ext2.blockRead d 2050 2

/-- A client on the device of the model of the file system. -/
def Client.onDevice {β : Type} (sb : Superblock) : Client β → Device → Option (Device × β)
  | .done b, d => some (d, b)
  | .superblock k, d =>
    (ext2GetSuperblock d).bind fun r => (k r.2).onDevice sb r.1
  | .read block k, d =>
    (Ext2.ext2ReadBlock sb d block).bind fun r => (k r.2).onDevice sb r.1
  | .write block k, d =>
    (Ext2.ext2WriteBlock sb d block).bind fun r => (k r.2).onDevice sb r.1
  | .page change k, d => (k d.buffer).onDevice sb { d with buffer := change d.buffer }

section

variable (drive : Drive) (fuel : ℕ) (ctrl : IdeControl)

/-- `block_access`, for the page that is mapped on both sides: whether there was an error. -/
def blockAccess (request : Request) : Io Bool := do
  let reply ← ataHandleAccess drive fuel ctrl request
  return reply ≠ .completed

/-- A transfer of a block of drive 0: whether the pointer that is returned is not null. -/
def blockTransfer (type : RequestType) (sb : Superblock) (block : ℕ) : Io Bool := do
  if block > sb.totalBlocks then return false
  let error ← blockAccess drive fuel ctrl
    ⟨type, 0, ext2BlockToSector sb block, ext2BlockSizeToSectors sb⟩
  return !error

/-- A client over the driver. -/
def Client.onDriver {β : Type} (sb : Superblock) : Client β → Io β
  | .done b => return b
  | .superblock k => do
    let error ← blockAccess drive fuel ctrl ⟨.read, 0, 2050, 2⟩
    (k !error).onDriver sb
  | .read block k => do
    let ok ← blockTransfer drive fuel ctrl .read sb block
    (k ok).onDriver sb
  | .write block k => do
    let ok ← blockTransfer drive fuel ctrl .write sb block
    (k ok).onDriver sb
  | .page change k => do
    let s ← get
    modify fun s' => { s' with buffer := wordsOf (change (bytesOf s'.buffer)) }
    (k (bytesOf s.buffer)).onDriver sb

end

/-- The device with the bytes of the first disk and of the page. -/
def deviceOf (blocks : Blocks) (buffer : ℕ → UInt16) (transfers : ℕ) : Device where
  disk := bytesOf (blocks 0)
  fault _ := false
  transfers := transfers
  buffer := bytesOf buffer

/-- A transfer of the device. -/
def deviceTransfer (type : RequestType) (d : Device) (location size : ℕ) :
    Option (Device × Bool) :=
  match type with
  | .read => Ext2.blockRead d location size
  | .write => Ext2.blockWrite d location size

section

variable {drive : Drive} {fuel : ℕ} {ctrl : IdeControl} {disks₀ : ℕ → Disks} {type : RequestType}
  {s s' : Bus} {blocks : Blocks} {buffer : ℕ → UInt16} {location sectors n : ℕ}

/-- A request to the store is a transfer of the device. -/
theorem deviceTransfer_access (hsize : sectors * 512 ≤ Ext2.pageSize) :
    deviceTransfer type (deviceOf blocks buffer n) location sectors =
      some (deviceOf (blocks.access (fun _ => true) ⟨type, 0, location, sectors⟩ buffer).2
        (blocks.access (fun _ => true) ⟨type, 0, location, sectors⟩ buffer).1.2 (n + 1), true) := by
  have hpage := Nat.not_lt_of_le hsize
  cases type with
  | read =>
    rw [deviceTransfer, Ext2.blockRead, if_neg hpage, if_neg (by exact Bool.false_ne_true)]
    refine congrArg (fun b => some (({ deviceOf blocks buffer (n + 1) with
      buffer := b } : Device), true)) ?_
    exact (@bytesOf_ite (blocks 0) _ _ location).symm
  | write =>
    rw [deviceTransfer, Ext2.blockWrite, if_neg hpage, if_neg (by exact Bool.false_ne_true)]
    refine congrArg (fun b => some (({ deviceOf blocks buffer (n + 1) with
      disk := b } : Device), true)) ?_
    exact bytesOf_write.symm

variable (disks₀) in
theorem blockAccess_eq (hctrl : ctrl.Distinct) (hexists : (ctrl.devices 0).exists' = true)
    (hrange : (⟨type, 0, location, sectors⟩ : Request).InRange)
    (hsize : sectors * 512 ≤ Ext2.pageSize) {error : Bool}
    (hrun : blockAccess drive fuel ctrl ⟨type, 0, location, sectors⟩ s = (some error, s')) :
    s.accesses <:+ s'.accesses ∧ (Honest drive ctrl.base disks₀ s'.accesses → ∀ n,
      deviceTransfer type (deviceOf (s.blocks drive ctrl disks₀) s.buffer n) location sectors =
        some (deviceOf (s'.blocks drive ctrl disks₀) s'.buffer (n + 1), !error)) := by
  obtain ⟨reply, t, haccess, hrun⟩ := Code.exists_of_bind hrun
  cases hrun
  obtain ⟨hle, hblocks⟩ := handleAccess_eq_access disks₀ hctrl hrange haccess
  refine ⟨hle, fun hhonest n => ?_⟩
  have hstep := hblocks hhonest
  have hpresent : (s.blocks drive ctrl disks₀).access (fun n => (ctrl.devices n).exists')
      ⟨type, 0, location, sectors⟩ s.buffer =
        (s.blocks drive ctrl disks₀).access (fun _ => true) ⟨type, 0, location, sectors⟩
          s.buffer := by
    rw [Blocks.access, Blocks.access, hexists]
  have hreply : ((s.blocks drive ctrl disks₀).access (fun _ => true)
      ⟨type, 0, location, sectors⟩ s.buffer).1.1 = .completed := by
    cases type <;> rfl
  rw [hpresent] at hstep
  rw [hstep] at hreply
  obtain rfl : reply = .completed := hreply
  rw [deviceTransfer_access hsize, hstep]
  rfl

/-- The sizes of blocks up to a page. -/
theorem sectors_inRange {sb : Superblock} (hblock : sb.blockSize ≤ 2) :
    1 ≤ ext2BlockSizeToSectors sb ∧ ext2BlockSizeToSectors sb * 512 ≤ Ext2.pageSize := by
  have hcases : sb.blockSize = 0 ∨ sb.blockSize = 1 ∨ sb.blockSize = 2 := by omega
  rcases hcases with h | h | h <;> rw [ext2BlockSizeToSectors, ext2BlockSize, h] <;> decide

/-- The sector of a block has far less than 28 bits. -/
theorem blockToSector_lt (sb : Superblock) (block : ℕ) : ext2BlockToSector sb block < 2 ^ 28 := by
  have hlt : block * ext2BlockSize sb % 2 ^ 32 < 2 ^ 32 := Nat.mod_lt _ (by decide)
  show (block * ext2BlockSize sb % 2 ^ 32 / 512 + 2048) % 2 ^ 32 < 2 ^ 28
  omega

/-- A transfer of a block of the device. -/
def blockOnDevice (type : RequestType) (sb : Superblock) (d : Device) (block : ℕ) :
    Option (Device × Bool) :=
  match type with
  | .read => Ext2.ext2ReadBlock sb d block
  | .write => Ext2.ext2WriteBlock sb d block

theorem blockOnDevice_eq {sb : Superblock} {d : Device} {block : ℕ} :
    blockOnDevice type sb d block = if block > sb.totalBlocks then some (d, false)
      else deviceTransfer type d (ext2BlockToSector sb block) (ext2BlockSizeToSectors sb) := by
  cases type <;> rfl

variable (disks₀) in
theorem blockTransfer_eq {sb : Superblock} (hctrl : ctrl.Distinct)
    (hexists : (ctrl.devices 0).exists' = true) (hblock : sb.blockSize ≤ 2) {block : ℕ} {ok : Bool}
    (hrun : blockTransfer drive fuel ctrl type sb block s = (some ok, s')) :
    s.accesses <:+ s'.accesses ∧ (Honest drive ctrl.base disks₀ s'.accesses → ∀ n, ∃ m,
      blockOnDevice type sb (deviceOf (s.blocks drive ctrl disks₀) s.buffer n) block =
        some (deviceOf (s'.blocks drive ctrl disks₀) s'.buffer m, ok)) := by
  rw [blockTransfer] at hrun
  by_cases hout : block > sb.totalBlocks
  · rw [if_pos hout] at hrun
    cases hrun
    exact ⟨List.suffix_refl _, fun _ n => ⟨n, by rw [blockOnDevice_eq, if_pos hout]⟩⟩
  · rw [if_neg hout] at hrun
    obtain ⟨error, t, haccess, hrest⟩ := Code.exists_of_bind hrun
    cases hrest
    obtain ⟨hsectors, hpage⟩ := sectors_inRange hblock
    have hrange : (⟨type, 0, ext2BlockToSector sb block, ext2BlockSizeToSectors sb⟩ :
        Request).InRange := by
      refine ⟨blockToSector_lt sb block, hsectors, ?_⟩
      show ext2BlockSizeToSectors sb ≤ 256
      have hle : ext2BlockSizeToSectors sb * 512 ≤ 4096 := hpage
      omega
    obtain ⟨hle, hone⟩ := blockAccess_eq disks₀ hctrl hexists hrange hpage haccess
    refine ⟨hle, fun hhonest n => ⟨n + 1, ?_⟩⟩
    rw [blockOnDevice_eq, if_neg hout]
    exact hone hhonest n

theorem client_grows {β : Type} {sb : Superblock} (hctrl : ctrl.Distinct)
    (hexists : (ctrl.devices 0).exists' = true) (hblock : sb.blockSize ≤ 2) (c : Client β) {b : β}
    (hrun : c.onDriver drive fuel ctrl sb s = (some b, s')) :
    s.accesses <:+ s'.accesses ∧ (Honest drive ctrl.base disks₀ s'.accesses → ∀ n, ∃ m,
      c.onDevice sb (deviceOf (s.blocks drive ctrl disks₀) s.buffer n) =
        some (deviceOf (s'.blocks drive ctrl disks₀) s'.buffer m, b)) := by
  induction c generalizing s with
  | done b' =>
    cases hrun
    exact ⟨List.suffix_refl _, fun _ n => ⟨n, rfl⟩⟩
  | superblock k ih =>
    obtain ⟨error, t, haccess, hrest⟩ := Code.exists_of_bind hrun
    obtain ⟨hle, hone⟩ := blockAccess_eq disks₀ hctrl hexists
      ⟨by decide, by decide, by decide⟩ (by decide) haccess
    obtain ⟨hle', hall⟩ := ih _ hrest
    refine ⟨hle.trans hle', fun hhonest n => ?_⟩
    have hfirst : ext2GetSuperblock (deviceOf (s.blocks drive ctrl disks₀) s.buffer n) = _ :=
      hone ((honestly drive ctrl disks₀).anti hle' hhonest) n
    obtain ⟨m, hm⟩ := hall hhonest (n + 1)
    exact ⟨m, by rw [Client.onDevice, hfirst, Option.bind_some, hm]⟩
  | read block k ih =>
    obtain ⟨ok, t, htransfer, hrest⟩ := Code.exists_of_bind hrun
    obtain ⟨hle, hone⟩ := blockTransfer_eq disks₀ hctrl hexists hblock htransfer
    obtain ⟨hle', hall⟩ := ih _ hrest
    refine ⟨hle.trans hle', fun hhonest n => ?_⟩
    obtain ⟨n', hn⟩ := hone ((honestly drive ctrl disks₀).anti hle' hhonest) n
    obtain ⟨m, hm⟩ := hall hhonest n'
    rw [blockOnDevice] at hn
    exact ⟨m, by rw [Client.onDevice, hn, Option.bind_some, hm]⟩
  | write block k ih =>
    obtain ⟨ok, t, htransfer, hrest⟩ := Code.exists_of_bind hrun
    obtain ⟨hle, hone⟩ := blockTransfer_eq disks₀ hctrl hexists hblock htransfer
    obtain ⟨hle', hall⟩ := ih _ hrest
    refine ⟨hle.trans hle', fun hhonest n => ?_⟩
    obtain ⟨n', hn⟩ := hone ((honestly drive ctrl disks₀).anti hle' hhonest) n
    obtain ⟨m, hm⟩ := hall hhonest n'
    rw [blockOnDevice] at hn
    exact ⟨m, by rw [Client.onDevice, hn, Option.bind_some, hm]⟩
  | page change k ih =>
    obtain ⟨_, _, hget, hrest⟩ := Code.exists_of_bind hrun
    cases hget
    obtain ⟨_, _, hchange, hrest⟩ := Code.exists_of_bind hrest
    cases hchange
    obtain ⟨hle, hall⟩ := ih _ hrest
    refine ⟨hle, fun hhonest n => ?_⟩
    obtain ⟨m, hm⟩ := hall hhonest n
    have hdevice : deviceOf (s.blocks drive ctrl disks₀) (wordsOf (change (bytesOf s.buffer))) n =
        { deviceOf (s.blocks drive ctrl disks₀) s.buffer n with
          buffer := change (bytesOf s.buffer) } := by
      rw [deviceOf, bytesOf_wordsOf]
      rfl
    refine ⟨m, ?_⟩
    rw [Client.onDevice, ← hm]
    exact congrArg ((k (bytesOf s.buffer)).onDevice sb) hdevice.symm

/-- **The file system over the driver.** For every client and every run of it over honest disks: it
ends as on the device without faults, with the same bytes on the disk and in the page. -/
theorem client_eq_device {β : Type} {sb : Superblock} (hctrl : ctrl.Distinct)
    (hexists : (ctrl.devices 0).exists' = true) (hblock : sb.blockSize ≤ 2) (c : Client β) {b : β}
    (hrun : c.onDriver drive fuel ctrl sb s = (some b, s'))
    (hhonest : Honest drive ctrl.base disks₀ s'.accesses) (n : ℕ) :
    ∃ m, c.onDevice sb (deviceOf (s.blocks drive ctrl disks₀) s.buffer n) =
      some (deviceOf (s'.blocks drive ctrl disks₀) s'.buffer m, b) :=
  (client_grows hctrl hexists hblock c hrun).2 hhonest n

/-- A client that says what is in byte 600 of block 1. -/
def readClient : Client UInt8 := .read 1 fun _ => .page id fun page => .done (page 600)

/-- A file system of three blocks. -/
def threeBlocks : Superblock := ⟨0, 2, 0, 8, 8, 128⟩

/-- A drive that is ready, and has the words of block 1 for the reads of its two sectors, from the
times 12 and 273 on. -/
def blockDrive : Drive := fun t port =>
  if port = 0x1f0 then 3 * .ofNat (512 + if t < 273 then t - 12 else t - 17) + 1 else 0x40

/-- The run of the client. -/
def readRun : Option UInt8 × Bus :=
  readClient.onDriver blockDrive 1 firstMaster threeBlocks ⟨[], [], fun _ => 0⟩

theorem readRun_honest :
    HonestSteps blockDrive firstMaster.base countingDisks readRun.2.accesses := by
  decide +kernel

theorem client_eq_device_read : ∃ m, readClient.onDevice threeBlocks
    (deviceOf (blocksOf firstMaster fun c => (countingDisks c).words) (fun _ => 0) 0) =
      some (deviceOf (readRun.2.blocks blockDrive firstMaster countingDisks) readRun.2.buffer m,
        133) := by
  have hvalue : readRun.1 = some 133 := by decide +kernel
  have hrun : readRun = (some 133, readRun.2) := by
    rw [← hvalue]
  exact client_eq_device firstMaster_distinct (by decide) (by decide) readClient hrun
    readRun_honest.honest 0

end

end C4OS.Ata
