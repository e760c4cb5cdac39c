import C4OS.Ext2.Geometry

/-!
# Accepted superblocks

The signature is all that `main` looks at before it goes on with a superblock (`ext2Main`), and
every number in it is used as it is. An inode size of zero, as a superblock of revision 0 may have,
makes the first request that names an inode divide by zero, and with more groups than descriptors in
a page a request reads behind the page (`unchecked_superblock`).

`accepted_served_iff` says with which superblocks no request goes wrong, whatever is on the disk and
in the page, and whichever transfers fail. For each number that is not usable there is a device on
which a request, the first one or one after `FS_MSG_SET_NODE`, meets a hazard. Few superblocks are
usable for all requests: inode number zero has the last of all groups, and so a group has to have
`2 ^ 25` inodes.
-/

namespace C4OS.Ext2

open Foundations Ringbuffer Faulting

/-! ## What `main` accepts -/

/-- `EXT2_SIGNATURE`. -/
abbrev ext2Signature : ℕ := 0xef53

/-- `is_valid_ext2fs`. -/
def isValidExt2fs (bytes : ℕ → UInt8) : Bool := readLE 2 bytes 56 == ext2Signature

/-- The superblock in the bytes that `main` reads from the disk, when it goes on with it. -/
def ext2Main (bytes : ℕ → UInt8) : Option Superblock :=
  if isValidExt2fs bytes then
    some {
      totalInodes := readLE 4 bytes 0
      totalBlocks := readLE 4 bytes 4
      blockSize := readLE 4 bytes 24
      blocksPerGroup := readLE 4 bytes 32
      inodesPerGroup := readLE 4 bytes 40
      inodeSize := readLE 2 bytes 88 }
  else none

/-- Every later request is served without a hazard: in every run from new connections on a device,
whatever is on the disk and in the page and whichever transfers fail. -/
def AllServed (sb : Superblock) : Prop :=
  ∀ (d : Device) (es : List Event) (x : Server), Run (Serves sb) (.on d) es x →
    ∀ c stack msg, ¬ Faults Hazard (Checked.ext2Server sb stack (x.conns c) msg) x.dev

namespace Checked

variable {sb : Superblock} {d d' d'' : Device} {inode block : ℕ}

/-! ## Single steps -/

theorem blockSize_eq (hs : (sb.blockSize + 10) % wordSize < 32) :
    Ext2.ext2BlockSize sb = 2 ^ ((sb.blockSize + 10) % wordSize) :=
  Nat.mod_eq_of_lt (Nat.pow_lt_pow_right (by decide) hs)

/-- The device after a block is read. -/
def afterRead (sb : Superblock) (d : Device) (block : ℕ) : Device :=
  { d with
    transfers := d.transfers + 1
    buffer := fun c => if c < ext2BlockSizeToSectors sb * 512 then
      d.disk (ext2BlockToSector sb block * 512 + c) else d.buffer c }

theorem readBlock_run (hs : (sb.blockSize + 10) % wordSize < 32)
    (hb : Ext2.ext2BlockSize sb ≤ pageSize) (hle : block ≤ sb.totalBlocks)
    (hf : d.fault d.transfers = false) :
    (ext2ReadBlock sb block).run d = .ok (true, afterRead sb d block) := by
  rw [ext2ReadBlock, if_neg (Nat.not_lt_of_le hle), run_bind_of_ok (blockSize_run hs d)]
  refine run_act_of_some ?_
  rw [blockRead, if_neg (sectors_le hb), hf]
  rfl

theorem readBlock_run_of_fails (hs : (sb.blockSize + 10) % wordSize < 32)
    (hb : Ext2.ext2BlockSize sb ≤ pageSize) (hle : block ≤ sb.totalBlocks)
    (hf : d.fault d.transfers = true) :
    (ext2ReadBlock sb block).run d = .ok (false, { d with transfers := d.transfers + 1 }) := by
  rw [ext2ReadBlock, if_neg (Nat.not_lt_of_le hle), run_bind_of_ok (blockSize_run hs d)]
  refine run_act_of_some ?_
  rw [blockRead, if_neg (sectors_le hb), hf]
  rfl

/-- A block that is larger than the page. -/
theorem faults_readBlock (hs : (sb.blockSize + 10) % wordSize < 32) (hle : block ≤ sb.totalBlocks)
    (hb : pageSize < Ext2.ext2BlockSize sb) : Faults Hazard (ext2ReadBlock sb block) d := by
  have hsize : ext2BlockSizeToSectors sb * 512 > pageSize := by
    rw [blockSize_eq hs] at hb
    have hexp : 12 < (sb.blockSize + 10) % wordSize :=
      (Nat.pow_lt_pow_iff_right Nat.one_lt_two).1 (show 2 ^ 12 < 2 ^ _ from hb)
    obtain ⟨k, hk⟩ := Nat.exists_eq_add_of_lt hexp
    rw [ext2BlockSizeToSectors, blockSize_eq hs, Nat.div_mul_cancel]
    · exact hb
    · exact Nat.pow_dvd_pow 2 (show 9 ≤ _ by omega)
  rw [ext2ReadBlock, if_neg (Nat.not_lt_of_le hle)]
  refine .of_ok (blockSize_run hs d) (faults_act ?_ (by decide))
  rw [blockRead, if_pos hsize]

end Checked

open Checked

variable {sb : Superblock} {d d' d'' : Device} {inode : ℕ}

/-! ## The first request -/

/-- The ring of a new connection. -/
def newRing : C4Ringbuf := (System.connect fun _ => 0).conn.ring

/-- A device without failures, with zeros everywhere. -/
def zeroDevice : Device := ⟨fun _ => 0, fun _ => false, 0, fun _ => 0⟩

namespace AllServed

/-- A request for an inode, the first one. -/
theorem not_faults_getInode (h : AllServed sb) (d : Device) (inode : ℕ) :
    ¬ Faults Hazard (Checked.ext2GetInode sb inode) d := fun hfault =>
  h d [] (.on d) (.nil _) 0 (fun _ => 0) ⟨.getNodeInfo, fun _ => inode⟩ hfault.bind

theorem shift (h : AllServed sb) : (sb.blockSize + 10) % wordSize < 32 := by
  by_contra hge
  refine h.not_faults_getInode zeroDevice 0 (.bind (.bind ?_))
  rw [Checked.ext2BlockSize, if_pos (Nat.le_of_not_lt hge)]
  exact faults_throw (by decide)

theorem block_of_reached (h : AllServed sb) (hle : descStart sb ≤ sb.totalBlocks) :
    ext2BlockSize sb ≤ pageSize := by
  by_contra hgt
  refine h.not_faults_getInode zeroDevice 0 (.bind ?_)
  exact .of_ok (blockSize_run h.shift _) (faults_readBlock h.shift hle (Nat.lt_of_not_le hgt))

/-! ## Requests after a node is set -/

/-- The client after its node is set. -/
def clientSet (inode : ℕ) (buf : Option (ℕ × Inode)) : ClientState :=
  ⟨⟨inode, FileType.unknown.toNat, 0⟩, (buf.map Prod.snd).getD ⟨fun _ => 0⟩, 0⟩

theorem serves_setNode {buf : Option (ℕ × Inode)}
    (hget : (Checked.ext2GetInode sb inode).run d = .ok (buf, d')) :
    Serves sb (.on d) (.request 0 (fun _ => 0) ⟨.setNode, fun _ => inode⟩)
      ⟨d', Function.update (Server.on d).conns 0 ⟨newRing, some (clientSet inode buf)⟩⟩ :=
  .request (r := (⟨newRing, some (clientSet inode buf)⟩, [.completed []])) (run_bind_of_ok hget)

/-- The second request. -/
theorem after_setNode (h : AllServed sb) {buf : Option (ℕ × Inode)}
    (hget : (Checked.ext2GetInode sb inode).run d = .ok (buf, d')) (stack : ℕ → UInt8)
    (msg : Message) :
    ¬ Faults Hazard (Checked.ext2Server sb stack ⟨newRing, some (clientSet inode buf)⟩ msg) d' := by
  have hno := h d [_] _ (.cons (serves_setNode hget) (.nil _)) 0 stack msg
  simpa only [Function.update_self] using hno

/-- The second request, with a byte in the ring. -/
theorem after_write (h : AllServed sb) {buf : Option (ℕ × Inode)}
    (hget : (Checked.ext2GetInode sb inode).run d = .ok (buf, d')) :
    ∃ ring, c4RingbufEmpty ring = false ∧ ¬ Faults Hazard (Checked.ext2Server sb (fun _ => 0)
      ⟨ring, some (clientSet inode buf)⟩ ⟨.writeBlock, fun _ => 0⟩) d' := by
  obtain ⟨ring, n, hwrite, hempty⟩ : ∃ ring n, c4RingbufWrite newRing [0] = some (ring, n) ∧
      c4RingbufEmpty ring = false := ⟨_, _, rfl, rfl⟩
  have hstep (x : Server) (hx : (x.conns 0).ring = newRing) :
      Serves sb x (.write 0 [0]) (x.setRing 0 ring) := .write (by rw [hx]; exact hwrite)
  have hwritten := hstep
    ⟨d', Function.update (Server.on d).conns 0 ⟨newRing, some (clientSet inode buf)⟩⟩
    (by simp only [Function.update_self])
  have hno := h d [_, _] _ (.cons (serves_setNode hget) (.cons hwritten (.nil _))) 0 (fun _ => 0)
    ⟨.writeBlock, fun _ => 0⟩
  refine ⟨ring, hempty, ?_⟩
  simpa only [Server.setRing, Function.update_self] using hno

/-- A write by a client whose inode cannot be read: the record is not initialised, and zeros are as
good as anything else. -/
theorem write_unread (h : AllServed sb)
    (hget : (Checked.ext2GetInode sb inode).run d = .ok (none, d'))
    (hget' : (Checked.ext2GetInode sb inode).run d' = .ok (none, d'')) :
    ¬ Faults Hazard (do
      let fsBlock ← Checked.allocDirect sb inode 0 ⟨fun _ => 0⟩
      Checked.ext2ReadBlock sb fsBlock) d'' := by
  intro hfault
  obtain ⟨ring, hempty, hno⟩ := h.after_write hget
  have hpos : ext2BlockSize sb ≠ 0 := by
    rw [blockSize_eq h.shift]
    exact Nat.ne_of_gt (Nat.pow_pos (by decide))
  refine hno (show Faults Hazard (Checked.handleWriteBlock sb (fun _ => 0)
    ⟨ring, some (clientSet inode none)⟩) d' from ?_)
  refine .of_ok (blockSize_run h.shift d') (.of_ok (modulo_run hpos d') ?_)
  rw [if_neg (by rw [hempty]; decide), clientSet, Nat.zero_div]
  rcases hfault.of_bind with hfault | ⟨fsBlock, d₃, hrun, hfault⟩
  · exact .bind (.of_ok hget' hfault)
  · have halloc : (Checked.ext2InodeAllocBlock sb ⟨fun _ => 0⟩ inode 0).run d' =
        .ok (fsBlock, d₃) := (run_bind_of_ok hget').trans hrun
    exact .of_ok halloc hfault.bind

/-! ## A device that fails -/

/-- All transfers fail. -/
def Fails (d : Device) : Prop := ∀ i, d.fault i = true

theorem getInode_run_of_fails (h : AllServed sb) (hle : descStart sb ≤ sb.totalBlocks)
    (hf : d.fault d.transfers = true) (inode : ℕ) :
    (Checked.ext2GetInode sb inode).run d =
      .ok (none, { d with transfers := d.transfers + 1 }) := by
  have hnull : (Checked.ext2GetBlockDescs sb).run d =
      .ok (false, { d with transfers := d.transfers + 1 }) := by
    rw [Checked.ext2GetBlockDescs, run_bind_of_ok (blockSize_run h.shift d)]
    exact readBlock_run_of_fails h.shift (h.block_of_reached hle) hle hf
  exact run_bind_of_ok hnull

/-- No inode is read where the first transfers fail. -/
theorem getInode_run_null (h : AllServed sb) (hf : Fails d) (inode : ℕ) :
    ∃ d', (Checked.ext2GetInode sb inode).run d = .ok (none, d') ∧ Fails d' := by
  rcases Nat.lt_or_ge sb.totalBlocks (descStart sb) with hlt | hle
  · have hnull : (Checked.ext2GetBlockDescs sb).run d = .ok (false, d) := by
      rw [Checked.ext2GetBlockDescs, run_bind_of_ok (blockSize_run h.shift d),
        Checked.ext2ReadBlock, if_pos hlt]
      rfl
    exact ⟨d, run_bind_of_ok hnull, hf⟩
  · exact ⟨_, h.getInode_run_of_fails hle (hf _) inode, hf⟩

/-- What is left of a write when nothing can be read. -/
theorem write_fails (h : AllServed sb) (inode : ℕ) :
    ∃ d, Fails d ∧ ¬ Faults Hazard (do
      let fsBlock ← Checked.allocDirect sb inode 0 ⟨fun _ => 0⟩
      Checked.ext2ReadBlock sb fsBlock) d := by
  obtain ⟨d', hget, hf'⟩ :=
    h.getInode_run_null (d := ⟨fun _ => 0, fun _ => true, 0, fun _ => 0⟩) (fun _ => rfl) inode
  obtain ⟨d'', hget', hf''⟩ := h.getInode_run_null hf' inode
  exact ⟨d'', hf'', h.write_unread hget hget'⟩

theorem inodesPerGroup (h : AllServed sb) : sb.inodesPerGroup ≠ 0 := by
  intro hzero
  obtain ⟨d, -, hno⟩ := h.write_fails 0
  refine hno (.bind (.bind ?_))
  rw [Checked.ext2BlockGroup, divide, if_pos hzero]
  exact faults_throw (by decide)

theorem blockGroup_run (h : AllServed sb) (inode : ℕ) (d : Device) :
    (Checked.ext2BlockGroup sb inode).run d = .ok (groupOf sb inode, d) := by
  rw [Checked.ext2BlockGroup, divide, if_neg h.inodesPerGroup]
  rfl

theorem blocksPerGroup (h : AllServed sb) : sb.blocksPerGroup ≠ 0 := by
  intro hzero
  obtain ⟨d, -, hno⟩ := h.write_fails 0
  refine hno (.bind (.of_ok (h.blockGroup_run 0 d) (.bind (.bind (.bind ?_)))))
  rw [Checked.ext2TotalBlockDescs, divide, if_pos hzero]
  exact faults_throw (by decide)

theorem totalBlockDescs_run (h : AllServed sb) (d : Device) :
    (Checked.ext2TotalBlockDescs sb).run d = .ok (sb.totalBlocks / sb.blocksPerGroup, d) := by
  rw [Checked.ext2TotalBlockDescs, divide, if_neg h.blocksPerGroup]
  rfl

theorem block (h : AllServed sb) : ext2BlockSize sb ≤ pageSize := by
  rcases Nat.lt_or_ge sb.totalBlocks (descStart sb) with hlt | hle
  · by_contra hgt
    have hgt : 4096 < ext2BlockSize sb := Nat.lt_of_not_le hgt
    -- the descriptors are in block one then, and there is block zero only
    have hstart : descStart sb = 1 := if_neg (by omega)
    have hzero : sb.totalBlocks = 0 := by omega
    obtain ⟨d, -, hno⟩ := h.write_fails 0
    refine hno ?_
    have hdesc : (Checked.ext2GetBlockDesc sb (groupOf sb 0)).run d = .ok (none, d) := by
      rw [Checked.ext2GetBlockDesc, run_bind_of_ok (h.totalBlockDescs_run d),
        if_pos (by rw [hzero, Nat.zero_div]; exact Nat.zero_le _)]
      rfl
    have halloc : (Checked.ext2AllocBlock sb (groupOf sb 0)).run d = .ok (0, d) :=
      run_bind_of_ok hdesc
    have hdirect : (Checked.allocDirect sb 0 0 ⟨fun _ => 0⟩).run d = .ok (0, d) :=
      (run_bind_of_ok (h.blockGroup_run 0 d)).trans (run_bind_of_ok halloc)
    exact .of_ok hdirect (faults_readBlock h.shift (Nat.zero_le _) hgt)
  · exact h.block_of_reached hle

/-! ## A device that works -/

theorem getBlockDescs_run (h : AllServed sb) (hle : descStart sb ≤ sb.totalBlocks)
    (hf : d.fault d.transfers = false) :
    (Checked.ext2GetBlockDescs sb).run d = .ok (true, afterRead sb d (descStart sb)) :=
  (run_bind_of_ok (blockSize_run h.shift d)).trans (readBlock_run h.shift h.block hle hf)

/-- The place of an inode cannot go wrong where the descriptors were read. -/
theorem not_faults_inodeLocation (h : AllServed sb) (hle : descStart sb ≤ sb.totalBlocks)
    (hi : inode ≤ sb.totalInodes) (hf : d.fault d.transfers = false) :
    ¬ Faults Hazard (Checked.inodeLocation sb true inode) (afterRead sb d (descStart sb)) := by
  intro hfault
  refine h.not_faults_getInode d inode (.of_ok (h.getBlockDescs_run hle hf) ?_)
  rw [if_neg (by simpa using hi)]
  exact hfault.bind

theorem groupOf_lt (h : AllServed sb) (hle : descStart sb ≤ sb.totalBlocks) (inode : ℕ) :
    groupOf sb inode < 128 := by
  have hzero : groupOf sb 0 < 128 := by
    by_contra hge
    refine h.not_faults_inodeLocation (d := zeroDevice) hle (Nat.zero_le _) rfl ?_
    refine .of_ok (h.blockGroup_run 0 _) (.of_ok (a := ()) rfl ?_)
    refine .bind (faults_read ?_ (by decide))
    have hout : ¬ groupOf sb 0 * descSize + 8 + 4 ≤ pageSize := by
      show ¬ groupOf sb 0 * 32 + 8 + 4 ≤ 4096
      omega
    exact if_neg hout
  -- no number has a group behind that of number zero
  refine Nat.lt_of_le_of_lt (Nat.div_le_div_right ?_) hzero
  show (inode + 4294967295) % 4294967296 ≤ (0 + 4294967295) % 4294967296
  omega

/-- The descriptor of an inode number is in the page. -/
theorem desc_run (h : AllServed sb) (hle : descStart sb ≤ sb.totalBlocks) (d : Device) :
    (load 4 (groupOf sb inode * descSize + 8)).run d =
      .ok (readLE 4 d.buffer (groupOf sb inode * descSize + 8), d) := by
  have hlt := h.groupOf_lt hle inode
  refine load_run (load_in_page ?_)
  show groupOf sb inode * 32 + 8 + 4 ≤ 4096
  omega

/-- What `ext2_group_index` returns. -/
def groupIndexOf (sb : Superblock) (inode : ℕ) : ℕ :=
  (inode + (wordSize - 1)) % wordSize % sb.inodesPerGroup

theorem groupIndex_run (h : AllServed sb) (inode : ℕ) (d : Device) :
    (Checked.ext2GroupIndex sb inode).run d = .ok (groupIndexOf sb inode, d) :=
  modulo_run h.inodesPerGroup d

/-- Inode number zero is in the file system, and its place is computed. -/
theorem not_faults_inodesPerBlock (h : AllServed sb) (hle : descStart sb ≤ sb.totalBlocks) :
    ∃ d, ¬ Faults Hazard (do
      let perBlock ← Checked.ext2InodesPerBlock sb
      divide (groupIndexOf sb 0) perBlock) d := by
  refine ⟨afterRead sb zeroDevice (descStart sb), fun hfault => ?_⟩
  refine h.not_faults_inodeLocation (d := zeroDevice) hle (Nat.zero_le _) rfl ?_
  refine .of_ok (h.blockGroup_run 0 _) ?_
  refine .of_ok (a := ()) rfl (.of_ok (h.desc_run hle _) (.of_ok (h.groupIndex_run 0 _) ?_))
  rcases hfault.of_bind with hfault | ⟨perBlock, d', hrun, hfault⟩
  · exact hfault.bind
  · exact .of_ok hrun hfault.bind

theorem size_ne (h : AllServed sb) (hle : descStart sb ≤ sb.totalBlocks) : sb.inodeSize ≠ 0 := by
  intro hzero
  obtain ⟨d, hno⟩ := h.not_faults_inodesPerBlock hle
  refine hno (.bind (.of_ok (blockSize_run h.shift d) ?_))
  rw [divide, if_pos hzero]
  exact faults_throw (by decide)

theorem inodesPerBlock_run (h : AllServed sb) (hle : descStart sb ≤ sb.totalBlocks) (d : Device) :
    (Checked.ext2InodesPerBlock sb).run d = .ok (ext2BlockSize sb / sb.inodeSize, d) := by
  rw [Checked.ext2InodesPerBlock, run_bind_of_ok (blockSize_run h.shift d), divide,
    if_neg (h.size_ne hle)]
  rfl

theorem size_le (h : AllServed sb) (hle : descStart sb ≤ sb.totalBlocks) :
    sb.inodeSize ≤ ext2BlockSize sb := by
  by_contra hgt
  obtain ⟨d, hno⟩ := h.not_faults_inodesPerBlock hle
  refine hno (.of_ok (h.inodesPerBlock_run hle d) ?_)
  rw [divide, if_pos (Nat.div_eq_of_lt (Nat.lt_of_not_le hgt))]
  exact faults_throw (by decide)

/-- The offset of the record of an inode in its block. -/
def recordOf (sb : Superblock) (inode : ℕ) : ℕ :=
  groupIndexOf sb inode % (ext2BlockSize sb / sb.inodeSize) * sb.inodeSize

theorem inodeLocation_run (h : AllServed sb) (hle : descStart sb ≤ sb.totalBlocks) (inode : ℕ)
    (d : Device) :
    (Checked.inodeLocation sb true inode).run d =
      .ok (((readLE 4 d.buffer (groupOf sb inode * descSize + 8) +
          groupIndexOf sb inode / (ext2BlockSize sb / sb.inodeSize)) % wordSize,
        groupIndexOf sb inode % (ext2BlockSize sb / sb.inodeSize)), d) := by
  have hper : ext2BlockSize sb / sb.inodeSize ≠ 0 :=
    Nat.ne_of_gt (Nat.div_pos (h.size_le hle) (Nat.pos_of_ne_zero (h.size_ne hle)))
  have hderef : (deref true).run d = .ok ((), d) := rfl
  rw [Checked.inodeLocation, run_bind_of_ok (h.blockGroup_run inode d), run_bind_of_ok hderef,
    run_bind_of_ok (h.desc_run hle d), run_bind_of_ok (h.groupIndex_run inode d),
    run_bind_of_ok (h.inodesPerBlock_run hle d), run_bind_of_ok (divide_run hper d),
    run_bind_of_ok (modulo_run hper d)]
  rfl

/-- An inode that is read from block zero, which its table is in. -/
theorem getInode_run (h : AllServed sb) (hle : descStart sb ≤ sb.totalBlocks)
    (hi : inode ≤ sb.totalInodes) (hf : ∀ i, d.fault i = false)
    (htable : (readLE 4 (afterRead sb d (descStart sb)).buffer (groupOf sb inode * descSize + 8) +
      groupIndexOf sb inode / (ext2BlockSize sb / sb.inodeSize)) % wordSize = 0) :
    ∃ d', d' = afterRead sb (afterRead sb d (descStart sb)) 0 ∧
      recordOf sb inode + inodeRecordSize ≤ pageSize ∧
      (Checked.ext2GetInode sb inode).run d =
        .ok (some (recordOf sb inode, ⟨fun i => d'.buffer (recordOf sb inode + i)⟩), d') := by
  have hdescs := h.getBlockDescs_run hle (hf _)
  have hplace := h.inodeLocation_run hle inode (afterRead sb d (descStart sb))
  rw [htable] at hplace
  have hread : (Checked.ext2ReadBlock sb 0).run (afterRead sb d (descStart sb)) =
      .ok (true, afterRead sb (afterRead sb d (descStart sb)) 0) :=
    readBlock_run h.shift h.block (Nat.zero_le _) (hf _)
  have hcond : ¬ ((!true) = true ∨ inode > sb.totalInodes) := by simpa using hi
  have hpage : recordOf sb inode + inodeRecordSize ≤ pageSize := by
    by_contra hout
    refine h.not_faults_getInode d inode (.of_ok hdescs ?_)
    rw [if_neg (by simpa using hi)]
    refine .of_ok hplace (.of_ok hread ?_)
    exact .bind (faults_read (if_neg hout) (by decide))
  refine ⟨_, rfl, hpage, (run_bind_of_ok hdescs).trans ?_⟩
  rw [if_neg (by simpa using hi)]
  refine (run_bind_of_ok hplace).trans ((run_bind_of_ok hread).trans ?_)
  exact run_bind_of_ok (run_read_of_some (if_pos hpage))

/-- A number in the page after a block is read. -/
theorem readLE_afterRead {B k off block : ℕ} (hB : ext2BlockSizeToSectors sb * 512 = B)
    (hle : off + k ≤ B) :
    readLE k (afterRead sb d block).buffer off =
      readLE k d.disk (ext2BlockToSector sb block * 512 + off) := by
  refine readLE_congr_at fun i hi => ?_
  show (if off + i < ext2BlockSizeToSectors sb * 512 then _ else _) = _
  rw [if_pos (by omega), Nat.add_assoc]

/-- The block sizes are powers of two. -/
theorem blockSize_eq_pow (h : AllServed sb) {n : ℕ} (hle : ext2BlockSize sb ≤ 2 ^ n)
    (hgt : 2 ^ n < 2 * ext2BlockSize sb) : ext2BlockSize sb = 2 ^ n := by
  rw [blockSize_eq h.shift] at hle hgt ⊢
  have hle' := (Nat.pow_le_pow_iff_right Nat.one_lt_two).1 hle
  rw [Nat.mul_comm, ← Nat.pow_succ] at hgt
  have hgt' := (Nat.pow_lt_pow_iff_right Nat.one_lt_two).1 hgt
  congr 1
  omega

/-! ## Blocks that fill the page -/

/-- A disk with blocks of 4096 bytes. In block zero is a record, a directory of one byte in block
one. In block one are the descriptors; there is the number of a table of inodes, and in front of it
what is read as a directory, the length and the size of an entry that ends a byte before the block
does. -/
def trapDisk (record desc table : ℕ) : ℕ → UInt8 :=
  writeLE 2 (writeLE 1 (writeLE 4 (writeLE 2 (writeLE 4 (writeLE 4 (fun _ => 0)
    (1048576 + record + 40) 1) (1048576 + record + 4) 1) (1048576 + record) 0x4000)
    (1052672 + desc) table) (1052672 + 6) 1) (1052672 + 4) 4095

section

variable {record desc table : ℕ}

theorem trapDisk_table (hdesc : 8 ≤ desc) (htable : table < wordSize) :
    readLE 4 (trapDisk record desc table) (1052672 + desc) = table := by
  rw [trapDisk, readLE_writeLE_of_disjoint (by omega), readLE_writeLE_of_disjoint (by omega),
    readLE_writeLE_of_lt htable]

theorem trapDisk_entry : readLE 1 (trapDisk record desc table) (1052672 + 6) = 1 ∧
    readLE 2 (trapDisk record desc table) (1052672 + 4) = 4095 := by
  rw [trapDisk, readLE_writeLE_of_disjoint (by omega), readLE_writeLE_of_lt (by decide),
    readLE_writeLE_of_lt (by decide)]
  exact ⟨rfl, rfl⟩

theorem trapDisk_record (desc table : ℕ) (hrecord : record + 120 ≤ 4096) :
    readLE 2 (trapDisk record desc table) (1048576 + record) = 0x4000 ∧
      readLE 4 (trapDisk record desc table) (1048576 + (record + 4)) = 1 ∧
      readLE 4 (trapDisk record desc table) (1048576 + (record + 40)) = 1 := by
  rw [← Nat.add_assoc, ← Nat.add_assoc]
  refine ⟨?_, ?_, ?_⟩
  · rw [trapDisk, readLE_writeLE_of_disjoint (by omega), readLE_writeLE_of_disjoint (by omega),
      readLE_writeLE_of_disjoint (by omega), readLE_writeLE_of_lt (by decide)]
  · rw [trapDisk, readLE_writeLE_of_disjoint (by omega), readLE_writeLE_of_disjoint (by omega),
      readLE_writeLE_of_disjoint (by omega), readLE_writeLE_of_disjoint (by omega),
      readLE_writeLE_of_lt (by decide)]
  · rw [trapDisk, readLE_writeLE_of_disjoint (by omega), readLE_writeLE_of_disjoint (by omega),
      readLE_writeLE_of_disjoint (by omega), readLE_writeLE_of_disjoint (by omega),
      readLE_writeLE_of_disjoint (by omega), readLE_writeLE_of_lt (by decide)]

end

/-- A search for the empty name, in a directory of one byte. -/
theorem faults_findInDir (h : AllServed sb) {e : Inode}
    (hsize : e.lowerSize = 1) (hptr : e.directPtr 0 = 1) (hle : 1 ≤ sb.totalBlocks)
    (hf : d.fault d.transfers = false)
    (hfault : Faults Hazard (Checked.findInBlock sb [] (ext2BlockSize sb + 1) 0) (afterRead sb d 1))
    (fuel : ℕ) : Faults Hazard (Checked.findInDir sb e [] (fuel + 1) 0) d := by
  have hread : (Checked.ext2InodeReadBlock sb e 0).run d = .ok (true, afterRead sb d 1) := by
    rw [Checked.ext2InodeReadBlock, Checked.inodeBlock, if_pos (by decide), hptr]
    exact readBlock_run h.shift h.block hle hf
  have hderef : (deref true).run (afterRead sb d 1) = .ok ((), afterRead sb d 1) := rfl
  rw [Checked.findInDir]
  refine .of_ok (blockSize_run h.shift d) ?_
  rw [hsize, if_pos (by rw [Nat.zero_mul]; decide)]
  exact .of_ok hread (.of_ok hderef hfault.bind)

/-- The search through a directory whose first entry ends behind the last place for one. -/
theorem faults_findInBlock (h : AllServed sb) (hB : ext2BlockSize sb = 4096)
    (hlen : readLE 1 d.buffer 6 = 1) (hsize : readLE 2 d.buffer 4 = 4095) (fuel : ℕ) :
    Faults Hazard (Checked.findInBlock sb [] (fuel + 2) 0) d := by
  have hmatch : nameMatches d 0 [] = some false := by
    rw [nameMatches, load_in_page (by decide), Nat.zero_add, hlen]
    rfl
  rw [Checked.findInBlock]
  refine .of_ok (blockSize_run h.shift d) ?_
  rw [hB, if_pos (by decide)]
  refine .of_ok (run_read_of_some hmatch) (.of_ok (load_run (load_in_page (by decide))) ?_)
  rw [Nat.zero_add, hsize, Checked.findInBlock]
  refine .of_ok (blockSize_run h.shift d) ?_
  rw [hB, if_pos (by decide)]
  exact .bind (faults_read rfl (by decide))

/-- A number of block zero or block one, where a block fills the page. -/
theorem readLE_afterRead_full (hB : ext2BlockSize sb = 4096) {k off b : ℕ} (hb : b ≤ 1)
    (hle : off + k ≤ 4096) :
    readLE k (afterRead sb d b).buffer off = readLE k d.disk (1048576 + b * 4096 + off) := by
  have hsectors : ext2BlockSizeToSectors sb * 512 = 4096 := by rw [ext2BlockSizeToSectors, hB]
  have hsector : ext2BlockToSector sb b * 512 = 1048576 + b * 4096 := by
    rw [ext2BlockToSector, hB]
    obtain rfl | rfl : b = 0 ∨ b = 1 := by omega
    all_goals rfl
  rw [readLE_afterRead hsectors hle, hsector]

/-- A number of a record in block zero. -/
theorem readLE_record (hB : ext2BlockSize sb = 4096) {record k off : ℕ}
    (hrecord : record + 120 ≤ 4096) (hoff : off + k ≤ 120) :
    readLE k (fun i => (afterRead sb d 0).buffer (record + i)) off =
      readLE k d.disk (1048576 + (record + off)) := by
  refine Eq.trans (readLE_congr_at fun i _ => ?_)
    (readLE_afterRead_full hB (Nat.zero_le 1) (show record + off + k ≤ 4096 by omega))
  rw [Nat.add_assoc]

/-- A number for the table of inodes, so that a record is in block zero. -/
theorem exists_table (n : ℕ) : ∃ table, table < wordSize ∧ (table + n) % wordSize = 0 := by
  refine ⟨(wordSize - n % wordSize) % wordSize, Nat.mod_lt _ (by decide), ?_⟩
  show ((4294967296 - n % 4294967296) % 4294967296 + n) % 4294967296 = 0
  omega

/-- Inode zero of the disk is a directory of one byte in block one. -/
theorem exists_trap (h : AllServed sb) (hle : descStart sb ≤ sb.totalBlocks)
    (hB : ext2BlockSize sb = 4096) :
    ∃ record desc table d d' e, (Checked.ext2GetInode sb 0).run d = .ok (some (record, e), d') ∧
      d'.disk = trapDisk record desc table ∧ (∀ i, d'.fault i = false) ∧
      ext2IsDirectory e = true ∧ e.lowerSize = 1 ∧ e.directPtr 0 = 1 := by
  have hgroup := h.groupOf_lt hle 0
  have hstart : descStart sb = 1 := if_neg (by rw [hB]; decide)
  have hdesc : groupOf sb 0 * descSize + 8 + 4 ≤ 4096 := by
    show groupOf sb 0 * 32 + 8 + 4 ≤ 4096
    omega
  obtain ⟨table, hlt, htable⟩ :=
    exists_table (groupIndexOf sb 0 / (ext2BlockSize sb / sb.inodeSize))
  let disk := trapDisk (recordOf sb 0) (groupOf sb 0 * descSize + 8) table
  let d : Device := ⟨disk, fun _ => false, 0, fun _ => 0⟩
  have hload : readLE 4 (afterRead sb d (descStart sb)).buffer (groupOf sb 0 * descSize + 8) =
      table := by
    rw [hstart, readLE_afterRead_full hB (Nat.le_refl 1) hdesc]
    exact trapDisk_table (Nat.le_add_left _ _) hlt
  obtain ⟨d', rfl, hrecord, hget⟩ :=
    h.getInode_run hle (Nat.zero_le _) (fun _ => rfl) (by rw [hload, htable])
  obtain ⟨hmodes, hsize, hptr⟩ := trapDisk_record (groupOf sb 0 * descSize + 8) table hrecord
  refine ⟨recordOf sb 0, _, table, d, _, _, hget, rfl, fun _ => rfl, ?_, ?_, ?_⟩
  · rw [ext2IsDirectory, ext2InodeType, Inode.modes, readLE_record hB hrecord (by decide)]
    exact congrArg (fun modes => modes / 2 ^ 12 == 4) hmodes
  · rw [Inode.lowerSize, readLE_record hB hrecord (by decide)]
    exact hsize
  · rw [Inode.directPtr, readLE_record hB hrecord (by decide)]
    exact hptr

theorem half (h : AllServed sb) (hle : descStart sb ≤ sb.totalBlocks) :
    2 * ext2BlockSize sb ≤ pageSize := by
  by_contra hgt
  have hB : ext2BlockSize sb = 4096 := h.blockSize_eq_pow (n := 12) h.block (Nat.lt_of_not_le hgt)
  have hstart : descStart sb = 1 := if_neg (by rw [hB]; decide)
  obtain ⟨record, desc, table, d, d', e, hget, hdisk, hfault, hdir, hsize, hptr⟩ :=
    h.exists_trap hle hB
  have hlen : readLE 1 (afterRead sb d' 1).buffer 6 = 1 := by
    rw [readLE_afterRead_full hB (Nat.le_refl 1) (by decide), hdisk]
    exact trapDisk_entry.1
  have hnext : readLE 2 (afterRead sb d' 1).buffer 4 = 4095 := by
    rw [readLE_afterRead_full hB (Nat.le_refl 1) (by decide), hdisk]
    exact trapDisk_entry.2
  refine h.after_setNode hget (fun _ => 0) ⟨.findName, fun _ => 0⟩ (show Faults Hazard
    (Checked.handleFindName sb (fun _ => 0) ⟨newRing, some (clientSet 0 (some (record, e)))⟩ 0) d'
    from ?_)
  refine .of_ok (run_read_of_some rfl) ?_
  rw [clientSet, Option.map_some, Option.getD_some, hdir]
  refine .of_ok (a := true) (run_read_of_some rfl) (.of_ok (run_read_of_some rfl) (.bind ?_))
  refine h.faults_findInDir hsize hptr (hstart ▸ hle) (hfault _) ?_ _
  rw [hB]
  exact h.faults_findInBlock hB hlen hnext 4095

/-! ## Bitmaps that leave the page -/

theorem readLE_ones {f : ℕ → UInt8} {off : ℕ} (h : ∀ i < 4, f (off + i) = 255) :
    readLE 4 f off = 2 ^ 32 - 1 := by
  refine readLE_of_bytes (x := 2 ^ 32 - 1) fun i hi => (h i hi).trans ?_
  obtain rfl | rfl | rfl | rfl : i = 0 ∨ i = 1 ∨ i = 2 ∨ i = 3 := by omega
  all_goals rfl

/-- The loop of an allocation over a page of ones, from one of its words on. -/
theorem faults_allocLoop (h : AllServed sb) (hB : ext2BlockSize sb = 2048)
    (hmany : 1024 < sb.blocksPerGroup) (hones : ∀ c < 4096, d.buffer c = 255) {base n k fuel : ℕ}
    (hk : k + n = 32) (hfuel : n < fuel) :
    Faults Hazard (Checked.allocLoop sb blockFields sb.blocksPerGroup 0 base fuel (some 0) (32 * k))
      d := by
  have htable : (Checked.readTable sb base 0 (some 0)).run d = .ok ((), d) := by
    rw [Checked.readTable, if_pos rfl]
    rfl
  induction n generalizing k fuel with
  | zero =>
    obtain ⟨fuel, rfl⟩ := Nat.exists_eq_succ_of_ne_zero (Nat.ne_of_gt hfuel)
    have hindex : 32 * k / 2048 = 0 := Nat.div_eq_of_lt (by omega)
    rw [Checked.allocLoop, if_pos (by omega)]
    refine .of_ok (blockSize_run h.shift d) ?_
    rw [hB, hindex]
    refine .of_ok htable (.bind (faults_read (if_neg ?_) (by decide)))
    show ¬ 4 * (32 * k - 0 * 2048) + 4 ≤ 4096
    omega
  | succ n ih =>
    obtain ⟨fuel, rfl⟩ := Nat.exists_eq_succ_of_ne_zero (Nat.ne_of_gt (Nat.zero_lt_of_lt hfuel))
    have hindex : 32 * k / 2048 = 0 := Nat.div_eq_of_lt (by omega)
    have hword : d.load 4 (4 * (32 * k - 0 * 2048)) = some (2 ^ 32 - 1) := by
      rw [load_in_page (show _ ≤ 4096 by omega)]
      exact congrArg some (readLE_ones fun i hi => hones _ (by omega))
    have hnext : (32 * k + 32) % wordSize = 32 * (k + 1) := Nat.mod_eq_of_lt (by
      show 32 * k + 32 < 4294967296
      omega)
    have hnone : firstZero (2 ^ 32 - 1) = none := by decide
    rw [Checked.allocLoop, if_pos (by omega)]
    refine .of_ok (blockSize_run h.shift d) ?_
    rw [hB, hindex]
    refine .of_ok htable (.of_ok (load_run hword) ?_)
    rw [hnone, hnext]
    exact ih (by omega) (Nat.lt_of_succ_lt_succ hfuel)

/-- A device where the first block of the disk is full of ones, and so is the page; a block has 2048
bytes. Two transfers have failed, and no others do. -/
def onesDevice : Device where
  disk c := if c < 1050624 then 255 else 0
  fault i := decide (i < 2)
  transfers := 2
  buffer _ := 255

theorem onesDevice_page (hB : ext2BlockSize sb = 2048) (c : ℕ) :
    (afterRead sb (afterRead sb onesDevice (descStart sb)) 0).buffer c = 255 := by
  have hsectors : ext2BlockSizeToSectors sb * 512 = 2048 := by rw [ext2BlockSizeToSectors, hB]
  have hzero : ext2BlockToSector sb 0 * 512 = 1048576 := by
    rw [ext2BlockToSector, hB]
    rfl
  show (if c < ext2BlockSizeToSectors sb * 512 then
      onesDevice.disk (ext2BlockToSector sb 0 * 512 + c)
    else if c < ext2BlockSizeToSectors sb * 512 then _ else 255) = 255
  split
  · exact if_pos (by omega)
  · rfl

/-- The first descriptor has zero for the block of the bitmap. -/
theorem onesDevice_base (hB : ext2BlockSize sb = 2048) :
    (load 4 (0 * descSize + blockFields.map)).run (afterRead sb onesDevice (descStart sb)) =
      .ok (0, afterRead sb onesDevice (descStart sb)) := by
  have hsectors : ext2BlockSizeToSectors sb * 512 = 2048 := by rw [ext2BlockSizeToSectors, hB]
  have hstart : descStart sb = 1 := if_neg (by rw [hB]; decide)
  have hone : ext2BlockToSector sb 1 * 512 = 1050624 := by
    rw [ext2BlockToSector, hB]
    rfl
  refine load_run ((load_in_page (by decide)).trans (congrArg some ?_))
  rw [readLE_afterRead hsectors (by decide), hstart, hone]
  refine readLE_of_bytes (x := 0) fun i _ => ?_
  rw [Nat.zero_div]
  exact if_neg (by omega)

/-- The scan of the bitmap, with the read of its block. -/
theorem faults_allocLoop_first (h : AllServed sb) (hB : ext2BlockSize sb = 2048)
    (hmany : 1024 < sb.blocksPerGroup) :
    Faults Hazard (Checked.allocLoop sb blockFields sb.blocksPerGroup 0 0
      (sb.blocksPerGroup / 32 + 2) none 0) (afterRead sb onesDevice (descStart sb)) := by
  have hread : (Checked.readTable sb 0 0 none).run (afterRead sb onesDevice (descStart sb)) =
      .ok ((), afterRead sb (afterRead sb onesDevice (descStart sb)) 0) := by
    rw [Checked.readTable, if_neg (by simp)]
    exact run_bind_of_ok (readBlock_run h.shift h.block (Nat.zero_le _) rfl)
  have hword := load_run (d := afterRead sb (afterRead sb onesDevice (descStart sb)) 0)
    ((load_in_page (show 4 * (0 - 0 * 2048) + 4 ≤ pageSize by decide)).trans
      (congrArg some (readLE_ones fun i _ => onesDevice_page hB _)))
  have hnone : firstZero (2 ^ 32 - 1) = none := by decide
  rw [Checked.allocLoop, if_pos (by omega)]
  refine .of_ok (blockSize_run h.shift _) ?_
  rw [hB, Nat.zero_div]
  refine .of_ok hread (.of_ok hword ?_)
  rw [hnone]
  exact h.faults_allocLoop hB hmany (fun c _ => onesDevice_page hB c) (k := 1) (n := 31) rfl
    (by omega)

theorem bitmap (h : AllServed sb) (hle : descStart sb ≤ sb.totalBlocks)
    (hgroup : sb.blocksPerGroup ≤ sb.totalBlocks) :
    ext2BlockSize sb ≤ 1024 ∨ sb.blocksPerGroup ≤ 1024 := by
  by_contra hnot
  obtain ⟨hlarge, hmany⟩ := not_or.1 hnot
  have hhalf : 2 * ext2BlockSize sb ≤ 4096 := h.half hle
  have hB : ext2BlockSize sb = 2048 := h.blockSize_eq_pow (n := 11)
    (show _ ≤ 2048 by omega) (show 2048 < _ by omega)
  -- the inode is not read when the node is set nor for the write
  have hget : (Checked.ext2GetInode sb 1).run { onesDevice with transfers := 0 } =
    .ok (none, { onesDevice with transfers := 1 }) := h.getInode_run_of_fails hle rfl 1
  have hget' : (Checked.ext2GetInode sb 1).run { onesDevice with transfers := 1 } =
    .ok (none, onesDevice) := h.getInode_run_of_fails hle rfl 1
  have hindex : groupOf sb 1 = 0 := Nat.zero_div _
  have htotal : ¬ 0 ≥ sb.totalBlocks / sb.blocksPerGroup :=
    Nat.not_le_of_lt (Nat.div_pos hgroup (Nat.pos_of_ne_zero h.blocksPerGroup))
  have hdesc : (Checked.ext2GetBlockDesc sb 0).run onesDevice =
      .ok (some (0 * descSize), afterRead sb onesDevice (descStart sb)) := by
    rw [Checked.ext2GetBlockDesc, run_bind_of_ok (h.totalBlockDescs_run _), if_neg htotal]
    exact run_bind_of_ok (h.getBlockDescs_run hle rfl)
  refine h.write_unread hget hget' (.bind (.of_ok (h.blockGroup_run 1 _) (.bind ?_)))
  rw [hindex]
  exact .of_ok hdesc (.of_ok (onesDevice_base hB)
    (h.faults_allocLoop_first hB (Nat.lt_of_not_le hmany)))

end AllServed

/-- The numbers of a superblock that serves every request. -/
theorem AllServed.usable (h : AllServed sb) : Usable sb Set.univ where
  shift := h.shift
  block := h.block
  blocksPerGroup := h.blocksPerGroup
  inodesPerGroup := h.inodesPerGroup
  reached hle :=
    { descs := fun inode _ => h.groupOf_lt hle inode
      half := h.half hle
      size_ne := h.size_ne hle
      size_le := h.size_le hle
      bitmap := h.bitmap hle }

theorem allServed_of_usable (h : Usable sb Set.univ) : AllServed sb := by
  intro d es x hrun c stack msg
  have hes : ∀ ev ∈ es, ev.Names Set.univ := by
    intro ev _
    cases ev with
    | request => exact fun _ => trivial
    | write => trivial
    | read => trivial
  exact served_of_usable h trivial d es x hes hrun c stack msg fun _ => trivial

/-- **With exactly the usable superblocks no request of any run meets a hazard.** -/
theorem accepted_served_iff (bytes : ℕ → UInt8) :
    (∀ sb, ext2Main bytes = some sb → AllServed sb) ↔
      ∀ sb, ext2Main bytes = some sb → Usable sb Set.univ :=
  forall₂_congr fun _ _ => ⟨AllServed.usable, allServed_of_usable⟩

/-- The superblock of `crowdedDisk`: 2000 inodes in groups of eight. -/
def crowdedSuperblock : Superblock := ⟨2000, 64, 0, 64, 8, 128⟩

/-- A disk with a superblock of revision 0 in block one, a descriptor in block two, the record of
the root directory in block five, and the directory with its one entry in block six. -/
def crowdedDisk : ℕ → UInt8 :=
  image crowdedSuperblock [(1, 0, 4, 2000), (1, 4, 4, 64), (1, 32, 4, 64), (1, 40, 4, 8),
    (1, 56, 2, ext2Signature), (1, 88, 2, 128), (2, 8, 4, 5), (5, 128, 2, 0x41ed),
    (5, 132, 4, 1024), (5, 168, 4, 6), (6, 0, 4, 2), (6, 4, 2, 1024), (6, 6, 1, 1), (6, 7, 1, 2),
    (6, 8, 1, 0x2e)]

/-- The bytes that `main` reads, which are in the sectors from 2050 on. -/
def crowdedBytes : ℕ → UInt8 := fun c => crowdedDisk (2050 * 512 + c)

theorem crowded_accepted : ext2Main crowdedBytes = some crowdedSuperblock := by
  have hvalid : isValidExt2fs crowdedBytes = true := by decide +kernel
  obtain ⟨h₁, h₂, h₃, h₄, h₅, h₆⟩ : readLE 4 crowdedBytes 0 = 2000 ∧
      readLE 4 crowdedBytes 4 = 64 ∧ readLE 4 crowdedBytes 24 = 0 ∧
      readLE 4 crowdedBytes 32 = 64 ∧ readLE 4 crowdedBytes 40 = 8 ∧
      readLE 2 crowdedBytes 88 = 128 := by decide +kernel
  rw [ext2Main, if_pos hvalid, h₁, h₂, h₃, h₄, h₅, h₆]
  rfl

/-- The signature does not make a superblock usable: inode 1025 of this disk is in a group whose
descriptor is behind the page. -/
theorem unchecked_superblock :
    ¬ ∀ bytes sb, ext2Main bytes = some sb → AllServed sb := fun h =>
  h _ _ crowded_accepted ⟨crowdedDisk, fun _ => false, 0, fun _ => 0⟩ [] _ (.nil _) 0 (fun _ => 0)
    ⟨.getNodeInfo, fun _ => 1025⟩ ⟨.outside, rfl, by decide⟩

end C4OS.Ext2
