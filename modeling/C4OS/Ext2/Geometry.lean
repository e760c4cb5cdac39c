import C4OS.Ext2.Checked
import Mathlib.Data.Set.Operations

/-!
# The geometry of a superblock

The superblocks with which no request goes wrong for the numbers in them (`Usable`). They keep all
accesses in the page by their numbers alone, since the disk may hold anything: the descriptors of
all groups that a request can name lie in the first page of them, a record is at its place in a
block, and two blocks fit into the page, because an entry of a directory starts before the end of
its block and is at most 263 bytes long. Where the block of the descriptors is not in the file
system, no inode is ever read, and the records of all clients stay cleared (`ConnOk`).

Inode numbers are not checked from below: for number zero the subtraction wraps around, and its
group is the last one that there is. So the numbers that requests name are a parameter, `N`, and
`served_of_usable` is the result for all runs with such requests.
-/

namespace C4OS.Ext2

open Foundations Ringbuffer

/-- The group of an inode number. -/
def groupOf (sb : Superblock) (inode : ℕ) : ℕ :=
  (inode + (wordSize - 1)) % wordSize / sb.inodesPerGroup

/-- What the numbers of a superblock have to satisfy when the block of the descriptors can be read,
and requests name the inode numbers in `N`. -/
structure Reached (sb : Superblock) (N : Set ℕ) : Prop where
  descs : ∀ inode ∈ N, groupOf sb inode < 128
  half : 2 * ext2BlockSize sb ≤ pageSize
  size_ne : sb.inodeSize ≠ 0
  size_le : sb.inodeSize ≤ ext2BlockSize sb
  /-- The words of the bitmap that are looked at are in the page. -/
  bitmap : sb.blocksPerGroup ≤ sb.totalBlocks →
    ext2BlockSize sb ≤ 1024 ∨ sb.blocksPerGroup ≤ 1024

/-- The superblocks that can be used. -/
structure Usable (sb : Superblock) (N : Set ℕ) : Prop where
  shift : (sb.blockSize + 10) % wordSize < 32
  block : ext2BlockSize sb ≤ pageSize
  blocksPerGroup : sb.blocksPerGroup ≠ 0
  inodesPerGroup : sb.inodesPerGroup ≠ 0
  reached : descStart sb ≤ sb.totalBlocks → Reached sb N

namespace Checked

variable {sb : Superblock} {N : Set ℕ}

/-! ## Programs without hazards -/

theorem not_hazard_other : ¬ Hazard .other := fun h => h rfl

theorem avoids_deref (ok : Bool) : Avoids Hazard (deref ok) fun _ => ok = true := by
  cases ok with
  | true => exact .pure rfl
  | false => exact .throw not_hazard_other

theorem avoids_other {α : Type} (x : Option α) :
    Avoids Hazard (Faulting.read .other fun _ : Device => x) fun a => x = some a :=
  .act not_hazard_other fun _ a _ h => by
    obtain ⟨b, hx, heq⟩ := Option.map_eq_some_iff.1 h
    cases heq
    exact hx

theorem avoids_divide {y : ℕ} (hy : y ≠ 0) (x : ℕ) :
    Avoids Hazard (divide x y) (· = x / y) := by
  rw [divide, if_neg hy]
  exact .pure rfl

theorem avoids_modulo {y : ℕ} (hy : y ≠ 0) (x : ℕ) :
    Avoids Hazard (modulo x y) (· = x % y) := by
  rw [modulo, if_neg hy]
  exact .pure rfl

theorem avoids_load {k off : ℕ} (h : off + k ≤ pageSize) :
    Avoids Hazard (load k off) fun _ => True := .read_ite h

theorem avoids_store {k off : ℕ} (h : off + k ≤ pageSize) (x : ℕ) :
    Avoids Hazard (store k off x) fun _ => True := .update_ite h ()

theorem avoids_blockSize (h : Usable sb N) :
    Avoids Hazard (ext2BlockSize sb) (· = Ext2.ext2BlockSize sb) := by
  rw [ext2BlockSize, if_neg (Nat.not_le_of_lt h.shift)]
  exact .pure rfl

/-- The sectors of a block fit in the page, if the block does. -/
theorem sectors_le (h : Ext2.ext2BlockSize sb ≤ pageSize) :
    ¬ ext2BlockSizeToSectors sb * 512 > pageSize :=
  Nat.not_lt_of_le (Nat.le_trans (Nat.div_mul_le_self _ _) h)

theorem avoids_readBlock (h : Usable sb N) (block : ℕ) :
    Avoids Hazard (ext2ReadBlock sb block) fun ok => ok = true → block ≤ sb.totalBlocks := by
  rw [ext2ReadBlock]
  split
  · exact .pure fun hok => nomatch hok
  · next hle =>
    refine .bind (avoids_blockSize h) fun _ _ => .act_of_some fun d => ?_
    rw [blockRead, if_neg (sectors_le h.block)]
    split
    · exact ⟨_, _, rfl, fun _ => Nat.le_of_not_lt hle⟩
    · exact ⟨_, _, rfl, fun _ => Nat.le_of_not_lt hle⟩

theorem avoids_writeBlock (h : Usable sb N) (block : ℕ) :
    Avoids Hazard (ext2WriteBlock sb block) fun _ => True := by
  rw [ext2WriteBlock]
  split
  · exact .pure trivial
  · refine .bind (avoids_blockSize h) fun _ _ => .act_of_some fun d => ?_
    rw [blockWrite, if_neg (sectors_le h.block)]
    split
    · exact ⟨_, _, rfl, trivial⟩
    · exact ⟨_, _, rfl, trivial⟩

/-! ## Allocation -/

theorem avoids_getBlockDescs (h : Usable sb N) :
    Avoids Hazard (ext2GetBlockDescs sb) fun ok => ok = true → Reached sb N :=
  .bind (avoids_blockSize h) fun _ _ =>
    (avoids_readBlock h _).mono fun _ hok htrue => h.reached (hok htrue)

/-- The descriptor that `ext2_get_block_desc` returns, if any. -/
theorem avoids_getBlockDesc (h : Usable sb N) (index : ℕ) :
    Avoids Hazard (ext2GetBlockDesc sb index) fun desc => ∀ off, desc = some off →
      off = index * descSize ∧ index < sb.totalBlocks / sb.blocksPerGroup ∧ Reached sb N := by
  refine .bind (avoids_divide h.blocksPerGroup _) fun total htotal => ?_
  split
  · exact .pure fun _ hoff => nomatch hoff
  · next hlt =>
    refine .bind (avoids_getBlockDescs h) fun ok hok => ?_
    split
    · next htrue =>
      refine .pure fun off hoff => ?_
      cases hoff
      exact ⟨rfl, htotal ▸ Nat.lt_of_not_le hlt, hok htrue⟩
    · split
      · exact .pure fun _ hoff => nomatch hoff
      · exact .throw not_hazard_other

/-- The word of the bitmap for a block of a group is in the page. -/
theorem word_le (h : Reached sb N) {i : ℕ} (hle : sb.blocksPerGroup ≤ sb.totalBlocks)
    (hi : i < sb.blocksPerGroup) :
    4 * (i - i / Ext2.ext2BlockSize sb * Ext2.ext2BlockSize sb) + 4 ≤ pageSize := by
  have hmod : i - i / Ext2.ext2BlockSize sb * Ext2.ext2BlockSize sb = i % Ext2.ext2BlockSize sb :=
    by rw [Nat.mul_comm, Nat.mod_eq_sub]
  have hself := Nat.mod_le i (Ext2.ext2BlockSize sb)
  have hpos : 0 < Ext2.ext2BlockSize sb :=
    Nat.lt_of_lt_of_le (Nat.pos_of_ne_zero h.size_ne) h.size_le
  have hlt := Nat.mod_lt i hpos
  rw [hmod]
  show _ ≤ 4096
  rcases h.bitmap hle with hsmall | hfew
  · omega
  · omega

theorem avoids_allocBit (h : Usable sb N) {descIndex off : ℕ} (hdesc : descIndex < 128)
    (hoff : off + 4 ≤ pageSize) (block map k : ℕ) :
    Avoids Hazard (allocBit sb blockFields descIndex block off map k) fun _ => True := by
  refine .bind (avoids_store hoff _) fun _ _ => .bind (avoids_writeBlock h _) fun _ _ => ?_
  refine .bind (avoids_getBlockDesc h descIndex) fun desc hsome => ?_
  refine .bind (avoids_other desc) fun off' hoff' => ?_
  have hle : off' + 12 + 2 ≤ pageSize := by
    rw [(hsome off' hoff').1]
    show descIndex * 32 + 12 + 2 ≤ 4096
    omega
  refine .bind (avoids_load hle) fun _ _ => .bind (avoids_store hle _) fun _ _ => ?_
  exact .bind (.bind (avoids_blockSize h) fun _ _ => avoids_writeBlock h _) fun _ _ =>
    .pure trivial

theorem avoids_readTable (h : Usable sb N) (base index : ℕ) (last : Option ℕ) :
    Avoids Hazard (readTable sb base index last) fun _ => True := by
  rw [readTable]
  split
  · exact .pure trivial
  · exact .bind (avoids_readBlock h _) fun ok _ => (avoids_deref ok).mono fun _ _ => trivial

theorem avoids_allocLoop (h : Usable sb N) (hr : Reached sb N) {descIndex : ℕ}
    (hdesc : descIndex < 128) (hle : sb.blocksPerGroup ≤ sb.totalBlocks) (base fuel : ℕ)
    (last : Option ℕ) (i : ℕ) :
    Avoids Hazard (allocLoop sb blockFields sb.blocksPerGroup descIndex base fuel last i)
      fun _ => True := by
  induction fuel generalizing last i with
  | zero => exact .throw not_hazard_other
  | succ fuel ih =>
    rw [allocLoop]
    split
    · next hi =>
      refine .bind (avoids_blockSize h) fun blockSize heq => ?_
      subst heq
      have hword := word_le hr hle hi
      refine .bind (avoids_readTable h _ _ _) fun _ _ => .bind (avoids_load hword) fun map _ => ?_
      split
      · exact .bind (avoids_allocBit h hdesc hword _ _ _) fun _ _ => .pure trivial
      · exact ih _ _
    · exact .pure trivial

theorem avoids_allocBlock (h : Usable sb N) {descIndex : ℕ}
    (hdesc : Reached sb N → descIndex < 128) :
    Avoids Hazard (ext2AllocBlock sb descIndex) fun n => n ≠ 0 → Reached sb N := by
  refine .bind (avoids_getBlockDesc h descIndex) fun desc hsome => ?_
  cases desc with
  | none => exact .pure fun hne => absurd rfl hne
  | some off =>
    obtain ⟨rfl, hlt, hr⟩ := hsome off rfl
    have hle : sb.blocksPerGroup ≤ sb.totalBlocks := by
      by_contra hgt
      rw [Nat.div_eq_of_lt (Nat.lt_of_not_le hgt)] at hlt
      omega
    have hload : descIndex * descSize + blockFields.map + 4 ≤ pageSize := by
      have := hdesc hr
      show descIndex * 32 + 0 + 4 ≤ 4096
      omega
    refine .bind (avoids_load hload) fun base _ => ?_
    exact (avoids_allocLoop h hr (hdesc hr) hle _ _ _ _).mono fun _ _ _ => hr

/-! ## Inodes -/

theorem avoids_blockGroup (h : Usable sb N) (inode : ℕ) :
    Avoids Hazard (ext2BlockGroup sb inode) (· = groupOf sb inode) :=
  avoids_divide h.inodesPerGroup _

theorem avoids_inodesPerBlock (h : Usable sb N) (hr : Reached sb N) :
    Avoids Hazard (ext2InodesPerBlock sb) (· = Ext2.ext2BlockSize sb / sb.inodeSize) := by
  refine .bind (avoids_blockSize h) fun blockSize heq => ?_
  subst heq
  exact avoids_divide hr.size_ne _

theorem avoids_inodeLocation (h : Usable sb N) {inode : ℕ} (hN : inode ∈ N) {descs : Bool}
    (hr : descs = true → Reached sb N) :
    Avoids Hazard (inodeLocation sb descs inode) fun place =>
      place.2 < Ext2.ext2BlockSize sb / sb.inodeSize := by
  refine .bind (avoids_blockGroup h inode) fun group hgroup => ?_
  refine .bind (avoids_deref descs) fun _ hdescs => ?_
  have hreached := hr hdescs
  have hlt := hreached.descs inode hN
  have hload : group * descSize + 8 + 4 ≤ pageSize := by
    rw [hgroup]
    show groupOf sb inode * 32 + 8 + 4 ≤ 4096
    omega
  have hper : Ext2.ext2BlockSize sb / sb.inodeSize ≠ 0 :=
    Nat.ne_of_gt (Nat.div_pos hreached.size_le (Nat.pos_of_ne_zero hreached.size_ne))
  refine .bind (avoids_load hload) fun _ _ => .bind (avoids_modulo h.inodesPerGroup _) ?_
  refine fun _ _ => .bind (avoids_inodesPerBlock h hreached) fun perBlock heq => ?_
  subst heq
  refine .bind (avoids_divide hper _) fun _ _ => .bind (avoids_modulo hper _) fun _ hmod => ?_
  refine .pure ?_
  rw [hmod]
  exact Nat.mod_lt _ (Nat.pos_of_ne_zero hper)

/-- A record at its place in a block is in the page. -/
theorem record_le (hr : Reached sb N) {index : ℕ}
    (hlt : index < Ext2.ext2BlockSize sb / sb.inodeSize) :
    index * sb.inodeSize + inodeRecordSize ≤ pageSize := by
  have hmul : (index + 1) * sb.inodeSize ≤ Ext2.ext2BlockSize sb :=
    Nat.le_trans (Nat.mul_le_mul_right _ hlt) (Nat.div_mul_le_self _ _)
  have hhalf := hr.half
  rw [Nat.succ_mul] at hmul
  show index * sb.inodeSize + 120 ≤ 4096
  change 2 * Ext2.ext2BlockSize sb ≤ 4096 at hhalf
  omega

/-- The place of the record that `ext2_get_inode` returns, if any. -/
theorem avoids_getInode (h : Usable sb N) {inode : ℕ} (hN : inode ∈ N) :
    Avoids Hazard (ext2GetInode sb inode) fun buf => ∀ off e, buf = some (off, e) →
      off + inodeRecordSize ≤ pageSize ∧ Reached sb N := by
  refine .bind (avoids_getBlockDescs h) fun descs hdescs => ?_
  split
  · exact .pure fun _ _ hbuf => nomatch hbuf
  · next hcond =>
    have htrue : descs = true := by
      by_contra hfalse
      simp [hfalse] at hcond
    refine .bind (avoids_inodeLocation h hN hdescs) fun place hplace => ?_
    refine .bind (avoids_readBlock h _) fun ok _ => ?_
    have hle := record_le (hdescs htrue) hplace
    split
    · refine .bind (.read_ite hle) fun e _ => .pure fun off e' hbuf => ?_
      cases hbuf
      exact ⟨hle, hdescs htrue⟩
    · exact .pure fun _ _ hbuf => nomatch hbuf

theorem avoids_inodeUpdate (h : Usable sb N) {inode : ℕ} (hN : inode ∈ N) (e : Inode) :
    Avoids Hazard (ext2InodeUpdate sb inode e) fun _ => True := by
  have htable : Avoids Hazard (ext2InodeTableBlock sb inode) fun _ => True :=
    .bind (avoids_getBlockDescs h) fun descs hdescs =>
      .bind (avoids_inodeLocation h hN hdescs) fun _ _ => .pure trivial
  refine .bind htable fun tableBlock _ => .bind (avoids_getInode h hN) fun buf hbuf => ?_
  cases buf with
  | none => exact .pure trivial
  | some record =>
    refine .bind (.update_ite (hbuf record.1 record.2 rfl).1 ()) fun _ _ => ?_
    exact .bind (avoids_writeBlock h _) fun _ _ => .pure trivial

/-! ## The blocks of a file -/

/-- The group of an inode, and a block in it. -/
theorem avoids_allocFor (h : Usable sb N) {inode : ℕ} (hN : inode ∈ N) {α : Type}
    {k : ℕ → Prog α} (hk : ∀ n, Avoids Hazard (k n) fun _ => True) :
    Avoids Hazard (do
      let group ← ext2BlockGroup sb inode
      let nBlock ← ext2AllocBlock sb group
      k nBlock) fun _ => True := by
  refine .bind (avoids_blockGroup h inode) fun group hgroup => ?_
  have hlt (hr : Reached sb N) : group < 128 := hgroup ▸ hr.descs inode hN
  exact .bind (avoids_allocBlock h hlt) fun n _ => hk n

theorem avoids_allocDirect (h : Usable sb N) {inode : ℕ} (hN : inode ∈ N) (block : ℕ) (e : Inode) :
    Avoids Hazard (allocDirect sb inode block e) fun _ => True := by
  rw [allocDirect]
  split
  · exact .pure trivial
  · refine avoids_allocFor h hN fun nBlock => ?_
    split
    · exact .pure trivial
    · exact .bind (avoids_inodeUpdate h hN _) fun _ _ => .pure trivial

theorem avoids_allocIndirect (h : Usable sb N) {inode : ℕ} (hN : inode ∈ N) (e : Inode) :
    Avoids Hazard (allocIndirect sb inode e) fun _ => True := by
  rw [allocIndirect]
  split
  · exact .pure trivial
  · refine avoids_allocFor h hN fun nBlock => ?_
    split
    · exact .pure trivial
    · exact .bind (avoids_inodeUpdate h hN _) fun _ _ => .pure trivial

/-- An entry of an indirect block is in the page. -/
theorem entry_le (h : Usable sb N) {block : ℕ} (hlt : block < Ext2.ext2BlockSize sb / 4 + 12)
    (hge : ¬ block < 12) : 4 * (block - 12) + 4 ≤ pageSize := by
  have hblock := h.block
  show _ ≤ 4096
  change Ext2.ext2BlockSize sb ≤ 4096 at hblock
  omega

theorem avoids_allocEntry (h : Usable sb N) {inode block : ℕ} (hN : inode ∈ N)
    (hentry : 4 * (block - 12) + 4 ≤ pageSize) (e : Inode) :
    Avoids Hazard (allocEntry sb inode block e) fun _ => True := by
  refine .bind (avoids_readBlock h _) fun ok _ => .bind (avoids_deref ok) fun _ _ => ?_
  refine .bind (avoids_load hentry) fun ent _ => ?_
  split
  · exact .pure trivial
  · refine avoids_allocFor h hN fun nBlock => ?_
    split
    · exact .pure trivial
    · refine .bind (avoids_store hentry _) fun _ _ => ?_
      exact .bind (avoids_writeBlock h _) fun _ _ => .pure trivial

theorem avoids_inodeAllocBlock (h : Usable sb N) {inode : ℕ} (hN : inode ∈ N) (junk : Inode)
    (block : ℕ) : Avoids Hazard (ext2InodeAllocBlock sb junk inode block) fun _ => True := by
  refine .bind (avoids_getInode h hN) fun buf _ => ?_
  split
  · exact avoids_allocDirect h hN _ _
  · next hge =>
    refine .bind (avoids_blockSize h) fun blockSize heq => ?_
    subst heq
    split
    · next hlt =>
      refine .bind (avoids_allocIndirect h hN _) fun e _ => ?_
      cases e with
      | none => exact .pure trivial
      | some e => exact avoids_allocEntry h hN (entry_le h hlt hge) e
    · exact .pure trivial

theorem avoids_inodeReadBlock (h : Usable sb N) (e : Inode) (block : ℕ) :
    Avoids Hazard (ext2InodeReadBlock sb e block) fun _ => True := by
  have hnumber : Avoids Hazard (inodeBlock sb e block) fun _ => True := by
    rw [inodeBlock]
    split
    · exact .pure trivial
    · next hge =>
      refine .bind (avoids_blockSize h) fun blockSize heq => ?_
      subst heq
      split
      · next hlt =>
        split
        · exact .pure trivial
        · refine .bind (avoids_readBlock h _) fun ok _ => .bind (avoids_deref ok) fun _ _ => ?_
          exact avoids_load (entry_le h hlt hge)
      · exact .pure trivial
  refine .bind hnumber fun rBlock _ => ?_
  split
  · exact (avoids_readBlock h _).mono fun _ _ => trivial
  · refine .bind (avoids_blockSize h) fun blockSize heq => .act_of_some fun d => ?_
    subst heq
    exact ⟨_, _, if_pos h.block, trivial⟩

/-! ## Directories -/

/-- Without the descriptors no inode is read. -/
theorem avoids_getInode_unreached (h : Usable sb N) {inode : ℕ} (hN : inode ∈ N) :
    Avoids Hazard (ext2GetInode sb inode) fun buf => ¬ Reached sb N → buf = none :=
  (avoids_getInode h hN).mono fun buf hbuf hr => by
    cases buf with
    | none => rfl
    | some record => exact absurd (hbuf record.1 record.2 rfl).2 hr

/-- An entry that starts in a block is in the page, with a name of up to 255 bytes. -/
theorem entry_in_page (hr : Reached sb N) {i : ℕ} (hi : i < Ext2.ext2BlockSize sb) (len : ℕ)
    (hlen : len < fsMaxNameLen) : i + 8 + len ≤ pageSize := by
  have hhalf := hr.half
  change 2 * Ext2.ext2BlockSize sb ≤ 4096 at hhalf
  change len < 256 at hlen
  show i + 8 + len ≤ 4096
  omega

theorem load_in_page {d : Device} {k off : ℕ} (h : off + k ≤ pageSize) :
    d.load k off = some (readLE k d.buffer off) := if_pos h

theorem matchLoop_isSome (d : Device) {off : ℕ} {name : List UInt8}
    (h : off + name.length ≤ pageSize) : ∃ found, matchLoop d off name = some found := by
  induction name generalizing off with
  | nil => exact ⟨true, rfl⟩
  | cons c name ih =>
    rw [List.length_cons] at h
    simp only [matchLoop, load_in_page (show off + 1 ≤ pageSize by omega), Option.bind_eq_bind,
      Option.bind_some]
    split
    · exact ih (by omega)
    · exact ⟨false, rfl⟩

theorem avoids_nameMatches {off : ℕ} {name : List UInt8} (h : off + 8 + name.length ≤ pageSize) :
    Avoids Hazard (Faulting.read .outside fun d => nameMatches d off name) fun _ => True := by
  refine .read_of_some fun d => ?_
  simp only [nameMatches, load_in_page (show off + 6 + 1 ≤ pageSize by omega), Option.bind_eq_bind,
    Option.bind_some]
  split
  · exact ⟨false, rfl⟩
  · exact matchLoop_isSome d h

theorem avoids_loadDirent {off : ℕ} (h : off + 8 ≤ pageSize) :
    Avoids Hazard (Faulting.read .outside fun d : Device => d.loadDirent off) fun _ => True := by
  refine .read_of_some fun d => ?_
  rw [Device.loadDirent, load_in_page (by omega), load_in_page (by omega), load_in_page (by omega),
    load_in_page (by omega)]
  exact ⟨_, rfl⟩

theorem avoids_copyName {off : ℕ} (h : off + 8 + 255 ≤ pageSize) (ent : Dirent)
    (name : ℕ → UInt8) :
    Avoids Hazard (Faulting.read .outside fun d => copyName d off ent name) fun _ => True := by
  have hlen : off + 8 + min ent.nameLength (fsMaxNameLen - 1) ≤ pageSize :=
    Nat.le_trans (Nat.add_le_add_left (Nat.min_le_right _ _) _) h
  refine .read_of_some fun d => ?_
  rw [copyName, Device.loadBytes, if_pos hlen]
  exact ⟨_, rfl⟩

theorem avoids_findInBlock (h : Usable sb N) (hr : Reached sb N) {name : List UInt8}
    (hname : name.length < fsMaxNameLen) (fuel i : ℕ) :
    Avoids Hazard (findInBlock sb name fuel i) fun _ => True := by
  induction fuel generalizing i with
  | zero => exact .throw not_hazard_other
  | succ fuel ih =>
    rw [findInBlock]
    refine .bind (avoids_blockSize h) fun blockSize heq => ?_
    subst heq
    split
    · next hi =>
      have hpage := entry_in_page hr hi 0 (by decide)
      refine .bind (avoids_nameMatches (entry_in_page hr hi _ hname)) fun found _ => ?_
      split
      · exact .bind (avoids_loadDirent hpage) fun _ _ => .pure trivial
      · exact .bind (avoids_load (by omega)) fun size _ => ih _
    · exact .pure trivial

theorem avoids_findInDir (h : Usable sb N) (hr : Reached sb N) (e : Inode) {name : List UInt8}
    (hname : name.length < fsMaxNameLen) (fuel block : ℕ) :
    Avoids Hazard (findInDir sb e name fuel block) fun _ => True := by
  induction fuel generalizing block with
  | zero => exact .throw not_hazard_other
  | succ fuel ih =>
    rw [findInDir]
    refine .bind (avoids_blockSize h) fun blockSize _ => ?_
    split
    · refine .bind (avoids_inodeReadBlock h e block) fun ok _ => ?_
      refine .bind (avoids_deref ok) fun _ _ => ?_
      refine .bind (avoids_findInBlock h hr hname _ _) fun found _ => ?_
      cases found with
      | some ent => exact .pure trivial
      | none => exact ih _
    · exact .pure trivial

theorem avoids_listLoop (h : Usable sb N) (hr : Reached sb N) (fuel : ℕ) (ring : C4Ringbuf)
    (name : ℕ → UInt8) (i sent : ℕ) :
    Avoids Hazard (listLoop sb fuel ring name i sent) fun _ => True := by
  induction fuel generalizing ring name i sent with
  | zero => exact .throw not_hazard_other
  | succ fuel ih =>
    rw [listLoop]
    refine .bind (avoids_blockSize h) fun blockSize heq => ?_
    subst heq
    split
    · next hi =>
      have hpage := entry_in_page hr hi 255 (by decide)
      refine .bind (avoids_loadDirent (by omega)) fun ent _ => ?_
      refine .bind (avoids_copyName hpage ent name) fun copied _ => ?_
      refine .bind (avoids_other _) fun canWrite _ => ?_
      split
      · exact .bind (avoids_other _) fun write _ => ih _ _ _ _
      · exact ih _ _ _ _
    · exact .pure trivial

/-! ## The handlers -/

/-- The state of a client: its inode number is one of those that requests name, and its record is
cleared if no inode can be read. -/
structure ClientOk (sb : Superblock) (N : Set ℕ) (cli : ClientState) : Prop where
  mem : cli.fsnode.inode ∈ N
  cleared : ¬ Reached sb N → cli.e2node = ⟨fun _ => 0⟩

/-- The state of a connection. -/
def ConnOk (sb : Superblock) (N : Set ℕ) (conn : Conn) : Prop :=
  ∀ cli, conn.progData = some cli → ClientOk sb N cli

end Checked

/-- The inode numbers that a request names are in `N`. -/
def Names (N : Set ℕ) (msg : Message) : Prop :=
  msg.type = .setNode ∨ msg.type = .getNodeInfo → msg.data 0 ∈ N

namespace Checked

variable {conn : Conn} {stack : ℕ → UInt8}

theorem avoids_handleSetNode (h : Usable sb N) (hc : ConnOk sb N conn) {inode : ℕ}
    (hN : inode ∈ N) : Avoids Hazard (handleSetNode sb conn inode) fun r => ConnOk sb N r.1 := by
  refine .bind (avoids_getInode_unreached h hN) fun buf hbuf => .pure fun cli hcli => ?_
  cases hcli
  refine ⟨hN, fun hr => ?_⟩
  rw [hbuf hr]
  cases hold : conn.progData with
  | none => rfl
  | some cli => exact (hc cli hold).cleared hr

/-- A record with something in it comes from a block of inodes. -/
theorem ClientOk.reached {cli : ClientState} (hcli : ClientOk sb N cli)
    (h : cli.e2node ≠ ⟨fun _ => 0⟩) : Reached sb N := by
  by_contra hr
  exact h (hcli.cleared hr)

theorem ClientOk.reached_of_lt {cli : ClientState} (hcli : ClientOk sb N cli) {i : ℕ}
    (h : i < cli.e2node.lowerSize) : Reached sb N := by
  refine hcli.reached fun hzero => ?_
  rw [hzero] at h
  exact absurd h (Nat.not_lt_zero i)

/-- A client that moves on in its file. -/
theorem ConnOk.move (hc : ConnOk sb N conn) {cli : ClientState} (hcli : conn.progData = some cli)
    (ring : C4Ringbuf) (index : ℕ) : ConnOk sb N ⟨ring, some { cli with index := index }⟩ := by
  intro cli' heq
  cases heq
  exact ⟨(hc cli hcli).mem, (hc cli hcli).cleared⟩

theorem avoids_handleFindName (h : Usable sb N) (hc : ConnOk sb N conn) (namelen : ℕ) :
    Avoids Hazard (handleFindName sb stack conn namelen) fun r => ConnOk sb N r.1 := by
  refine .bind (avoids_other conn.progData) fun cli hcli => ?_
  split
  · exact .pure hc
  · next hdir =>
    have hr : Reached sb N := (hc cli hcli).reached fun hzero => hdir (by rw [hzero]; rfl)
    refine .bind (avoids_other _) fun canRead _ => ?_
    split
    · exact .pure hc
    · next hbad =>
      refine .bind (avoids_other _) fun bytes hbytes => ?_
      have hlen : (nameBytes stack bytes.2 namelen).length < fsMaxNameLen := by
        have hle := c4RingbufRead_length_le hbytes
        have hlt : ¬ namelen ≥ fsMaxNameLen := fun hge => hbad (by simp [hge])
        rw [nameBytes, List.length_append, List.length_map, List.length_range]
        omega
      exact .bind (avoids_findInDir h hr _ hlen _ _) fun _ _ => .pure hc

theorem avoids_handleListDir (h : Usable sb N) (hc : ConnOk sb N conn) :
    Avoids Hazard (handleListDir sb stack conn) fun r => ConnOk sb N r.1 := by
  rw [handleListDir]
  split
  · exact .pure hc
  · next cli hcli =>
    refine .bind (avoids_blockSize h) fun blockSize _ => ?_
    split
    · exact .pure hc
    · next hlt =>
      have hr := (hc cli hcli).reached_of_lt (Nat.lt_of_not_le hlt)
      refine .bind (avoids_inodeReadBlock h _ _) fun ok _ => .bind (avoids_deref ok) fun _ _ => ?_
      exact .bind (avoids_listLoop h hr _ _ _ _ _) fun list _ => .pure (hc.move hcli _ _)

theorem avoids_handleReadBlock (h : Usable sb N) (hc : ConnOk sb N conn) :
    Avoids Hazard (handleReadBlock sb conn) fun r => ConnOk sb N r.1 := by
  rw [handleReadBlock]
  split
  · exact .pure hc
  · next cli hcli =>
    split
    · exact .pure hc
    · next hlt =>
      have hr := (hc cli hcli).reached_of_lt (Nat.lt_of_not_le hlt)
      have hpos : 0 < Ext2.ext2BlockSize sb :=
        Nat.lt_of_lt_of_le (Nat.pos_of_ne_zero hr.size_ne) hr.size_le
      refine .bind (avoids_blockSize h) fun blockSize heq => ?_
      subst heq
      refine .bind (avoids_modulo (Nat.ne_of_gt hpos) _) fun offset hoff => ?_
      refine .bind (avoids_other _) fun canWrite _ => ?_
      split
      · exact .pure hc
      · have hpage : offset + min (cli.e2node.lowerSize - cli.index) (Ext2.ext2BlockSize sb) ≤
            pageSize := by
          have hmod := Nat.mod_lt cli.index hpos
          have hmin := Nat.min_le_right (cli.e2node.lowerSize - cli.index) (Ext2.ext2BlockSize sb)
          have hhalf := hr.half
          omega
        refine .bind (avoids_inodeReadBlock h _ _) fun ok _ => ?_
        refine .bind (avoids_deref ok) fun _ _ => .bind (.read_ite hpage) fun bytes _ => ?_
        exact .bind (avoids_other _) fun write _ => .pure (hc.move hcli _ _)

theorem blockSize_ne_zero (h : Usable sb N) : Ext2.ext2BlockSize sb ≠ 0 := by
  rw [Ext2.ext2BlockSize, Nat.mod_eq_of_lt (Nat.pow_lt_pow_right (by decide) h.shift)]
  exact Nat.ne_of_gt (Nat.pow_pos (by decide))

theorem avoids_handleWriteBlock (h : Usable sb N) (hc : ConnOk sb N conn) :
    Avoids Hazard (handleWriteBlock sb stack conn) fun r => ConnOk sb N r.1 := by
  rw [handleWriteBlock]
  split
  · exact .pure hc
  · next cli hcli =>
    refine .bind (avoids_blockSize h) fun blockSize heq => ?_
    subst heq
    refine .bind (avoids_modulo (blockSize_ne_zero h) _) fun offset hoff => ?_
    split
    · exact .pure hc
    · refine .bind (avoids_inodeAllocBlock h (hc cli hcli).mem _ _) fun fsBlock _ => ?_
      refine .bind (avoids_readBlock h _) fun ok _ => .bind (avoids_deref ok) fun _ _ => ?_
      refine .bind (avoids_other _) fun bytes hbytes => ?_
      have hpage : offset + bytes.2.length ≤ pageSize := by
        have hle := c4RingbufRead_length_le hbytes
        have hmod := Nat.mod_lt cli.index (Nat.pos_of_ne_zero (blockSize_ne_zero h))
        have hblock := h.block
        omega
      refine .bind (.update_ite hpage ()) fun _ _ => ?_
      exact .bind (avoids_writeBlock h _) fun _ _ => .pure (hc.move hcli _ _)

/-- **A request that names a number in `N` meets no hazard**, and leaves its connection as a request
may find it. -/
theorem avoids_ext2Server (h : Usable sb N) (hroot : 2 ∈ N) (hc : ConnOk sb N conn) {msg : Message}
    (hN : Names N msg) :
    Avoids Hazard (ext2Server sb stack conn msg) fun r => ConnOk sb N r.1 := by
  obtain ⟨type, data⟩ := msg
  cases type with
  | setNode => exact avoids_handleSetNode h hc (hN (.inl rfl))
  | findName => exact avoids_handleFindName h hc _
  | getRootDir => exact .bind (avoids_getInode h hroot) fun _ _ => .pure hc
  | getNodeInfo =>
    refine .bind (avoids_getInode h (hN (.inr rfl))) fun buf _ => ?_
    cases buf <;> exact .pure hc
  | listDir => exact avoids_handleListDir h hc
  | readBlock => exact avoids_handleReadBlock h hc
  | writeBlock => exact avoids_handleWriteBlock h hc
  | other => exact .pure hc

end Checked

/-! ## Runs -/

/-- The requests of an event name inode numbers in `N`. -/
def Event.Names (N : Set ℕ) : Event → Prop
  | .request _ _ msg => Ext2.Names N msg
  | _ => True

/-- No request in a run from new connections meets a hazard, where the requests name the numbers in
`N`. -/
def ServedFor (sb : Superblock) (N : Set ℕ) : Prop :=
  ∀ (d : Device) (es : List Event) (x : Server), (∀ ev ∈ es, ev.Names N) →
    Run (Serves sb) (.on d) es x → ∀ c stack msg, Names N msg →
      ¬ Faults Hazard (Checked.ext2Server sb stack (x.conns c) msg) x.dev

variable {sb : Superblock} {N : Set ℕ} {x y : Server} {ev : Event}

/-- A step keeps the connections in order. -/
theorem connOk_step (h : Usable sb N) (hroot : 2 ∈ N) (hev : ev.Names N)
    (hx : ∀ c, Checked.ConnOk sb N (x.conns c)) (hstep : Serves sb x ev y) (c : ℕ) :
    Checked.ConnOk sb N (y.conns c) := by
  have hupdate {c' : ℕ} {conn : Conn} (hconn : Checked.ConnOk sb N conn) :
      Checked.ConnOk sb N (Function.update x.conns c' conn c) := by
    by_cases hc : c = c'
    · subst hc
      rwa [Function.update_self]
    · rw [Function.update_of_ne hc]
      exact hx c
  cases hstep with
  | @request c' stack _ _ r hrun =>
    exact hupdate ((Checked.avoids_ext2Server h hroot (hx c') hev x.dev).2 _ _ hrun)
  | @write c' => exact hupdate fun cli hcli => hx c' cli hcli
  | @read c' => exact hupdate fun cli hcli => hx c' cli hcli

/-- **A usable superblock serves the clients that name the numbers in `N`**, in every run. -/
theorem served_of_usable (h : Usable sb N) (hroot : 2 ∈ N) : ServedFor sb N := by
  intro d es x hes hrun c stack msg hmsg
  have hconn : ∀ c, Checked.ConnOk sb N (x.conns c) :=
    hrun.keeps_of_forall hes (fun _ _ hcli => nomatch hcli)
      fun _ _ _ hev hx hstep => connOk_step h hroot hev hx hstep
  exact (Checked.avoids_ext2Server h hroot (hconn c) hmsg x.dev).1

/-- A small file system and clients that name its inodes. -/
example : ServedFor smallSuperblock {inode | 1 ≤ inode ∧ inode ≤ 8} := by
  refine served_of_usable ⟨by decide, by decide, by decide, by decide, fun _ => ?_⟩
    ⟨by decide, by decide⟩
  refine ⟨fun inode hinode => ?_, by decide, by decide, by decide, fun _ => .inl (by decide)⟩
  obtain ⟨hpos, hle⟩ := hinode
  show (inode + 4294967295) % 4294967296 / 8 < 128
  omega

end C4OS.Ext2
