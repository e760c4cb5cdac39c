import C4OS.Ext2.Growth
import C4OS.Ext2.Reading
import C4OS.Ext2.WriteBlock
import C4OS.Ext2.Writing

/-!
# Reading and writing a file

What a client gets that reads and writes a file with one connection. The ring carries the bytes of
both directions, the server has one index for both, and `fs_write_block` adds the index of the
connection to the caller's pointer. `OpsRight` says that a sequence of calls stores only bytes of
its callers, and that each read returns the bytes of the file at the position of the client. This is
so when nothing is written after a byte was read or written, and when each request for a block
starts where the bytes to send do not go over the end of a block (`ops_right_of_fit`). Otherwise a
write stores what was sent ahead for a read (`write_stores_sent_bytes`).

`FileOpen` is what the disk and the record of the server have to do with each other meanwhile: a
write may allocate blocks behind the end of the file, and the record of the server is not updated.
-/

namespace C4OS.Ext2

open Foundations Ringbuffer

variable {sb : Superblock} {disk disk' : ℕ → UInt8} {d d₁ d' : Device} {conn : Conn} {e : Inode}
  {fsnode : FsNode} {sys : System} {b g i j k p inode : ℕ} {l : List UInt8}

/-! ## An open file -/

/-- The record `e` of the server is that of the inode, up to the blocks behind the end of the file,
and the blocks of the file are there. -/
structure FileOpen (sb : Superblock) (disk : ℕ → UInt8) (inode : ℕ) (e : Inode) : Prop where
  laidOut : LaidOut sb disk
  isInode : IsInode sb inode
  located : Located sb disk inode
  size : (inodeRecord sb disk inode).lowerSize = e.lowerSize
  single : (inodeRecord sb disk inode).singleIndirectPtr = e.singleIndirectPtr
  direct : ∀ j < 12, j * ext2BlockSize sb < e.lowerSize →
    (inodeRecord sb disk inode).directPtr j = e.directPtr j
  apart : e.singleIndirectPtr ≠ 0 → ∀ m : Meta, m.Valid sb → m.block sb disk ≠ e.singleIndirectPtr
  mapped : FileMapped sb disk e
  near : FileNear sb disk e

namespace FileOpen

/-- The server and the disk agree on the blocks of the file. -/
theorem fileMap_eq (h : FileOpen sb disk inode e) (hj : j * ext2BlockSize sb < e.lowerSize) :
    fileMap sb disk (inodeRecord sb disk inode) j = fileMap sb disk e j := by
  unfold fileMap
  split
  · next hlt => exact h.direct j hlt hj
  · rw [h.single]

/-- The server and the disk agree on the contents of the file. -/
theorem content_eq (h : FileOpen sb disk inode e) :
    fileContent sb disk (inodeRecord sb disk inode) = fileContent sb disk e := by
  unfold fileContent
  rw [h.size]
  refine List.map_congr_left fun i hi => ?_
  have hlt : i < e.lowerSize := List.mem_range.1 hi
  rw [fileByte, fileByte, h.fileMap_eq (Nat.lt_of_le_of_lt (Nat.div_mul_le_self i _) hlt)]

/-- A change of the disk that leaves the record and the table of the file as they are, up to the
blocks behind the end of the file. -/
theorem frame (h : FileOpen sb disk inode e) (hs : SameMaps sb disk disk')
    (hsize : (inodeRecord sb disk' inode).lowerSize = (inodeRecord sb disk inode).lowerSize)
    (hsingle : (inodeRecord sb disk' inode).singleIndirectPtr =
      (inodeRecord sb disk inode).singleIndirectPtr)
    (hdirect : ∀ j < 12, j * ext2BlockSize sb < e.lowerSize →
      (inodeRecord sb disk' inode).directPtr j = (inodeRecord sb disk inode).directPtr j)
    (htable : e.singleIndirectPtr ≠ 0 → ∀ i < ext2BlockSize sb,
      disk' (blockStart sb e.singleIndirectPtr + i) = disk (blockStart sb e.singleIndirectPtr + i)) :
    FileOpen sb disk' inode e := by
  have hmap : ∀ j, j * ext2BlockSize sb < e.lowerSize →
      fileMap sb disk' e j = fileMap sb disk e j := by
    intro j hj
    unfold fileMap
    split
    · rfl
    · next hge =>
      have hm := h.mapped j hj
      have hlt : j < ext2BlockSize sb / 4 + 12 := hm.lt
      have hne : e.singleIndirectPtr ≠ 0 := Nat.ne_of_gt (hm.indirect (by omega)).1
      exact readLE_congr fun i hi => htable hne (4 * (j - 12) + i) (by omega)
  constructor
  · exact hs.laidOut h.laidOut
  · exact h.isInode
  · exact hs.located h.laidOut h.isInode h.located
  · exact hsize.trans h.size
  · exact hsingle.trans h.single
  · exact fun j hj hlt => (hdirect j hj hlt).trans (h.direct j hj hlt)
  · intro hne m hm
    rw [hs.metaBlock_eq hm]
    exact h.apart hne m hm
  · intro j hj
    have hm := h.mapped j hj
    exact ⟨hm.lt, (hmap j hj).symm ▸ hm.pos, (hmap j hj).symm ▸ hm.le, hm.indirect⟩
  · intro j hj
    exact ⟨(hmap j hj).symm ▸ (h.near j hj).1, (h.near j hj).2⟩

/-- A change of the disk that leaves the whole record as it is. -/
theorem frame_record (h : FileOpen sb disk inode e) (hs : SameMaps sb disk disk')
    (hrecord : ∀ i < inodeRecordSize, (inodeRecord sb disk' inode).byte i =
      (inodeRecord sb disk inode).byte i)
    (htable : e.singleIndirectPtr ≠ 0 → ∀ i < ext2BlockSize sb,
      disk' (blockStart sb e.singleIndirectPtr + i) = disk (blockStart sb e.singleIndirectPtr + i)) :
    FileOpen sb disk' inode e := by
  refine h.frame hs ?_ ?_ (fun j hj _ => ?_) htable
  · exact readLE_congr fun i hi => hrecord (4 + i) (by show 4 + i < 120; omega)
  · exact readLE_congr fun i hi => hrecord (88 + i) (by show 88 + i < 120; omega)
  · exact readLE_congr fun i hi => hrecord (40 + 4 * j + i) (by show 40 + 4 * j + i < 120; omega)

/-- An allocation. -/
theorem onlyBitmap (h : FileOpen sb disk inode e) (hg : g < groupCount sb)
    (ho : OnlyBitmap sb disk disk' g) : FileOpen sb disk' inode e :=
  h.frame_record (ho.sameMaps h.laidOut hg)
    (fun _ hlt => ho.inodeRecord_byte h.laidOut hg h.isInode hlt) fun hne _ hi =>
    ho.block_eq h.laidOut hg (fun m hm _ => h.apart hne m hm) hi

/-- A block behind the end of the file is put into the record. -/
theorem setDirectPtr {e' : Inode} (h : FileOpen sb disk inode e)
    (he : ∀ i < inodeRecordSize, e'.byte i = (inodeRecord sb disk inode).byte i) (hj : j < 12)
    (hfree : e'.directPtr j = 0) :
    FileOpen sb (recordDisk sb disk inode (e'.setDirectPtr j b)) inode e := by
  have hbyte : ∀ i < inodeRecordSize,
      (inodeRecord sb (recordDisk sb disk inode (e'.setDirectPtr j b)) inode).byte i =
        writeLE 4 e'.byte (40 + 4 * j) b i :=
    fun i hlt => inodeRecord_byte_self h.laidOut h.isInode hlt
  have hkeep : ∀ {a n : ℕ}, a + n ≤ inodeRecordSize → (a + n ≤ 40 + 4 * j ∨ 40 + 4 * j + 4 ≤ a) →
      readLE n (inodeRecord sb (recordDisk sb disk inode (e'.setDirectPtr j b)) inode).byte a =
        readLE n (inodeRecord sb disk inode).byte a := by
    intro a n hle hdis
    refine readLE_congr fun i hi => ?_
    rw [hbyte _ (by omega), writeLE_of_notMem (by omega), he _ (by omega)]
  refine h.frame (recordDisk_sameMaps h.laidOut h.isInode) ?_ ?_ (fun j' hj' hlt => ?_)
    fun hne i hi => ?_
  · exact hkeep (by decide) (.inl (by omega))
  · exact hkeep (by decide) (.inr (by omega))
  · have hne : j' ≠ j := by
      rintro rfl
      have hpos := (h.mapped j' hlt).pos
      have hptr : e'.directPtr j' = (inodeRecord sb disk inode).directPtr j' :=
        readLE_congr fun i hi => he _ (by show 40 + 4 * j' + i < 120; omega)
      rw [fileMap, if_pos hj', ← h.direct j' hj' hlt, ← hptr, hfree] at hpos
      omega
    refine hkeep ?_ (by omega)
    show 40 + 4 * j' + 4 ≤ 120
    omega
  · exact recordDisk_block_eq h.laidOut
      (Ne.symm (h.apart hne _ (h.laidOut.inodeTable_valid h.isInode))) hi

end FileOpen

/-! ## A block that may be written -/

/-- A block that is neither a part of the file system nor the table of the file, in the first 4 GiB.
-/
structure BlockFits (sb : Superblock) (disk : ℕ → UInt8) (e : Inode) (b : ℕ) : Prop where
  le : b ≤ sb.totalBlocks
  near : Near sb b
  apart : ∀ m : Meta, m.Valid sb → m.block sb disk ≠ b
  notTable : e.singleIndirectPtr ≠ 0 → e.singleIndirectPtr ≠ b

theorem BlockFits.sameMaps (h : BlockFits sb disk e b) (hs : SameMaps sb disk disk') :
    BlockFits sb disk' e b :=
  ⟨h.le, h.near, fun m hm => (hs.metaBlock_eq hm).symm ▸ h.apart m hm, h.notTable⟩

/-- The block zero. -/
theorem BlockFits.zero (wf : LaidOut sb disk) : BlockFits sb disk e 0 := by
  refine ⟨Nat.zero_le _, ?_, fun m hm => ?_, fun hne => hne⟩
  · show 0 * ext2BlockSize sb < 2 ^ 32
    omega
  · have := (wf.inside m hm).1
    omega

/-- Bytes are written to a block. -/
theorem FileOpen.writeBytes {off : ℕ} (h : FileOpen sb disk inode e) (hb : BlockFits sb disk e b)
    (hoff : off + l.length ≤ ext2BlockSize sb) :
    FileOpen sb (writeBytes disk (blockStart sb b + off) l) inode e := by
  have hother : ∀ b', b' ≠ b → ∀ i < ext2BlockSize sb,
      Foundations.writeBytes disk (blockStart sb b + off) l (blockStart sb b' + i) =
        disk (blockStart sb b' + i) := by
    intro b' hne i hi
    have hdis := blockStart_disjoint sb hne
    exact writeBytes_of_notMem (by omega)
  have hs : SameMaps sb disk (Foundations.writeBytes disk (blockStart sb b + off) l) := by
    intro g hg i hi
    obtain ⟨hlo, hhi⟩ := descPos_mem h.laidOut.blockSize disk g
    have hsize : descSize = 32 := rfl
    have hdis := blockStart_disjoint sb (hb.apart _ (Meta.desc_valid hg))
    exact writeBytes_of_notMem (by omega)
  refine h.frame_record hs (fun i hlt => ?_) fun hne i hi => hother _ (hb.notTable hne) i hi
  have hle := h.laidOut.inodeOffset_le inode
  have hsize := h.laidOut.inodeSize.1
  have hlt' : i < 120 := hlt
  show Foundations.writeBytes disk _ l (inodePos sb _ inode + i) = disk (inodePos sb disk inode + i)
  rw [hs.inodePos_eq h.laidOut h.isInode, inodePos_eq, Nat.add_assoc]
  exact hother _ (hb.apart _ (h.laidOut.inodeTable_valid h.isInode)) _ (by omega)

/-! ## A block for a request -/

/-- A request for a block behind a direct pointer finds one that may be written: the block is mapped
already, or none is free and the block zero is taken, or the scan finds a zero in the first block of
the bitmap. -/
inductive RequestFits (sb : Superblock) (d : Device) (inode j : ℕ) : Prop
  | mapped (hne : (inodeRecord sb d.disk inode).directPtr j ≠ 0)
      (hb : BlockFits sb d.disk (inodeRecord sb d.disk inode)
        ((inodeRecord sb d.disk inode).directPtr j))
  | full (hfree : (inodeRecord sb d.disk inode).directPtr j = 0)
      (hfails : ScanFails sb d (inodeGroup sb inode))
  | new {w k : ℕ} (hfree : (inodeRecord sb d.disk inode).directPtr j = 0)
      (hg : inodeGroup sb inode < sb.totalBlocks / sb.blocksPerGroup)
      (hnear : Near sb (blockMap sb d.disk (inodeGroup sb inode)))
      (hw : 4 * w + 4 ≤ ext2BlockSize sb) (hwg : w < sb.blocksPerGroup) (hdvd : 32 ∣ w)
      (hzero : firstZero (word sb d.disk (blockMap sb d.disk (inodeGroup sb inode)) w) = some k)
      (hfull : ∀ i < w, 32 ∣ i →
        firstZero (word sb d.disk (blockMap sb d.disk (inodeGroup sb inode)) i) = none)
      (hb : BlockFits sb d.disk (inodeRecord sb d.disk inode)
        ((inodeGroup sb inode * sb.blocksPerGroup + (w + k)) % wordSize))

theorem BlockFits.congr {e' : Inode} (h : BlockFits sb disk e b)
    (hsingle : e.singleIndirectPtr = e'.singleIndirectPtr) : BlockFits sb disk e' b :=
  ⟨h.le, h.near, h.apart, hsingle ▸ h.notTable⟩

theorem onlyBitmap_allocDisk {w k : ℕ} (hw : 4 * w + 4 ≤ ext2BlockSize sb) :
    OnlyBitmap sb disk (allocDisk sb disk g (blockMap sb disk g) w k) g := by
  intro c hne
  by_contra hc
  exact hne (allocDisk_of_notMem (by omega) (by omega))

/-- **The block of a request**, and the disk when it is found. -/
theorem FileOpen.alloc (h : FileOpen sb d.disk inode e) (hd : d.Working) (hj : j < 12)
    (hf : RequestFits sb d inode j) :
    ∃ d₁ b, ext2InodeAllocBlock sb d inode j = some (d₁, b) ∧ d₁.Working ∧
      FileOpen sb d₁.disk inode e ∧ BlockFits sb d₁.disk e b := by
  have wf := h.laidOut
  have hgroup := wf.inodeGroup_lt h.isInode
  have hr : d.Reads sb (fetchInode sb d inode) := (Device.Reads.refl sb d).fetch.fetch
  have he : (pageInode (fetchInode sb d inode) (inodeOffset sb inode)).Agrees
      (inodeRecord sb d.disk inode) := pageInode_agrees wf
  have hptr := he.directPtr_eq hj
  -- the branch of the direct pointers
  have hrun : ∀ {d₁ b}, allocDirect sb (fetchInode sb d inode) inode j
      (pageInode (fetchInode sb d inode) (inodeOffset sb inode)) = some (d₁, b) →
      ext2InodeAllocBlock sb d inode j = some (d₁, b) := fun hdirect =>
    run_bind (ext2GetInode_eq wf hd h.isInode h.located) ((if_pos hj).trans hdirect)
  cases hf with
  | mapped hne hb =>
    refine ⟨_, _, hrun (if_pos (hptr ▸ hne)), hd, h, ?_⟩
    rw [hptr]
    exact hb.congr h.single
  | full hfree hfails =>
    obtain ⟨d₂, halloc, hdisk, hd₂⟩ := (hfails.reads hr).alloc wf hd
    refine ⟨d₂, 0, hrun ?_, hd₂, hdisk ▸ h, .zero (hdisk ▸ wf)⟩
    rw [allocDirect, if_neg (not_not.2 (hptr.trans hfree))]
    exact run_bind (ext2BlockGroup_eq wf h.isInode) (run_bind halloc (if_pos rfl))
  | @new w k hfree hg hnear hw hwg hdvd hzero hfull hb =>
    obtain ⟨d₂, halloc, hdisk, hd₂⟩ := ext2AllocBlock_eq (d := fetchInode sb d inode) wf hd hg
      h.located.desc hnear hw hwg hdvd hzero hfull
    have ho : OnlyBitmap sb d.disk d₂.disk (inodeGroup sb inode) := hdisk ▸ onlyBitmap_allocDisk hw
    have hs := ho.sameMaps wf hgroup
    have h₂ := h.onlyBitmap hgroup ho
    generalize (inodeGroup sb inode * sb.blocksPerGroup + (w + k)) % wordSize = n at halloc hb
    by_cases hn : n = 0
    · subst hn
      refine ⟨d₂, 0, hrun ?_, hd₂, h₂, .zero h₂.laidOut⟩
      rw [allocDirect, if_neg (not_not.2 (hptr.trans hfree))]
      exact run_bind (ext2BlockGroup_eq wf h.isInode) (run_bind halloc (if_pos rfl))
    · have he₂ : ∀ i < inodeRecordSize,
          (pageInode (fetchInode sb d inode) (inodeOffset sb inode)).byte i =
            (inodeRecord sb d₂.disk inode).byte i :=
        fun i hlt => (he i hlt).trans (ho.inodeRecord_byte wf hgroup h.isInode hlt).symm
      obtain ⟨d₃, hupdate, hdisk₃, hd₃⟩ := ext2InodeUpdate_eq h₂.laidOut hd₂ h.isInode h₂.located
        ((pageInode (fetchInode sb d inode) (inodeOffset sb inode)).setDirectPtr j n)
      refine ⟨d₃, n, hrun ?_, hd₃, ?_, ?_⟩
      · rw [allocDirect, if_neg (not_not.2 (hptr.trans hfree))]
        exact run_bind (ext2BlockGroup_eq wf h.isInode)
          (run_bind halloc ((if_neg hn).trans (run_bind hupdate rfl)))
      · rw [hdisk₃]
        exact h₂.setDirectPtr he₂ hj (hptr.trans hfree)
      · rw [hdisk₃]
        exact ((hb.congr h.single).sameMaps hs).sameMaps (recordDisk_sameMaps h₂.laidOut h.isInode)

/-! ## The requests of a write -/

/-- Each of the next `n` requests of a write, or of those that are left, finds a block that may be
written. -/
def RequestsFit (sb : Superblock) : ℕ → Device → Conn → Prop
  | 0, _, _ => True
  | n + 1, d, conn => ∀ cli, conn.progData = some cli → c4RingbufEmpty conn.ring = false →
    RequestFits sb d cli.fsnode.inode (cli.index / ext2BlockSize sb) ∧
      ∀ d' conn' replies, handleWriteBlock sb d conn = some (d', conn', replies) →
        RequestsFit sb n d' conn'

/-- The server of an open file when it has come to the byte `i`, and the rest of `n` bytes is in the
ring. -/
def Storing (sb : Superblock) (inode : ℕ) (e : Inode) (n : ℕ) (d : Device) (conn : Conn) : Prop :=
  d.Working ∧ FileOpen sb d.disk inode e ∧ ∃ fsnode i l, conn.progData = some ⟨fsnode, e, i⟩ ∧
    fsnode.inode = inode ∧ Holds ringSize conn.ring l ∧ i + l.length = n ∧
    ∃ m, l.length ≤ m ∧ RequestsFit sb m d conn

/-- A server whose requests find their blocks drains the ring. -/
theorem storing_drains {n : ℕ} (hbs : sb.blockSize ≤ 1) (hn : n < ringSize) :
    Drains (handleWriteBlock sb) (Storing sb inode e n) := by
  rintro d conn l ⟨hd, hopen, fsnode, i, l', hcli, rfl, hring', hsum, m, hle, hfits⟩ hring hne
  obtain rfl : l' = l := hring'.2.symm.trans hring.2
  have hlen := List.length_pos_iff.2 hne
  have hsmall : n < 4084 := hn
  obtain ⟨m, rfl⟩ : ∃ k, m = k + 1 := ⟨m - 1, by omega⟩
  obtain ⟨hfit, hrest⟩ := hfits _ hcli (hring.empty_eq.trans (decide_eq_false hne))
  have hblock := le_ext2BlockSize (Nat.le_succ_of_le hbs)
  have hj : i / ext2BlockSize sb < 12 := by
    rw [Nat.div_lt_iff_lt_mul (by omega)]
    omega
  obtain ⟨d₁, b, halloc, hd₁, hopen₁, hb⟩ := hopen.alloc hd hj hfit
  obtain ⟨d', ring', hrun, hpos, hring', hd', hdisk⟩ :=
    handleWriteBlock_eq (Nat.le_succ_of_le hbs) hcli hring hne halloc hd₁ hb.le hb.near
  have hsize : writeSize sb i l' ≤ l'.length := Nat.min_le_right _ _
  have hroom : writeSize sb i l' ≤ ext2BlockSize sb - i % ext2BlockSize sb := Nat.min_le_left _ _
  have hmod : (i + writeSize sb i l') % wordSize = i + writeSize sb i l' :=
    Nat.mod_eq_of_lt (by show _ < 2 ^ 32; omega)
  have hpos' : 0 < writeSize sb i l' := hpos
  have hlen' : (l'.drop (writeSize sb i l')).length = l'.length - writeSize sb i l' :=
    List.length_drop
  refine ⟨d', _, _, hrun, hpos, hsize, hring', hd', ?_, fsnode, i + writeSize sb i l',
    l'.drop (writeSize sb i l'), ?_, rfl, hring', by omega, m, by omega, hrest _ _ _ hrun⟩
  · rw [hdisk]
    refine hopen₁.writeBytes hb ?_
    have hlt : i % ext2BlockSize sb < ext2BlockSize sb := Nat.mod_lt i (by omega)
    have htake : (l'.take (writeSize sb i l')).length = writeSize sb i l' :=
      List.length_take_of_le hsize
    show i % ext2BlockSize sb + (l'.take (writeSize sb i l')).length ≤ _
    omega
  · simp only [hmod]

/-! ## Calls of both kinds -/

/-- A call of `fread` or of `fwrite`. -/
inductive FileOp
  | read (size members : ℕ)
  | write (c : WriteCall)

/-- The length of a call fits into an `int`, and its bytes are in the memory of the caller. -/
def FileOp.Valid : FileOp → Prop
  | .read size members => size * members < 2 ^ 31
  | .write c => c.Valid

/-- A call, with the bytes that it returns or that the server takes out of the ring. -/
def FileOp.run (sb : Superblock) (sys : System) : FileOp → Option (System × List UInt8)
  | .read size members => fread sb sys size members
  | .write c => do
    let (sys, t, _) ← fwrite (handleWriteBlock sb) c.mem sys c.ptr c.size c.members
    return (sys, t.taken)

/-- The bytes that a read returns are those of the file at the position of the client, and those
that the server stores come from the buffer of the caller. -/
def FileOp.Right (sb : Superblock) (inode : ℕ) (sys : System) (bytes : List UInt8) : FileOp → Prop
  | .read _ _ => bytes = ((fileContent sb sys.dev.disk (inodeRecord sb sys.dev.disk inode)).drop
      sys.index).take bytes.length
  | .write c => bytes.Sublist c.bytes

/-- The calls return, and move the right bytes. -/
def OpsRight (sb : Superblock) (inode : ℕ) : System → List FileOp → Prop
  | _, [] => True
  | sys, op :: ops => ∃ sys' bytes, op.run sb sys = some (sys', bytes) ∧
      op.Right sb inode sys bytes ∧ OpsRight sb inode sys' ops

/-- A read is made when the bytes that the next request sends are in one block. A write has no
bytes, or is made with the ring and the connection at their start, its bytes fit into the ring, and
its requests find blocks that may be written. -/
def FileOp.Fits (sb : Superblock) (sys : System) : FileOp → Prop
  | .read _ _ => ∀ cli, sys.conn.progData = some cli → Ext2.Fits sb cli.e2node cli.index
  | .write c => c.len = 0 ∨ sys.index = 0 ∧ c4RingbufEmpty sys.conn.ring = true ∧
      c.len ≤ ringSize - 1 ∧ ∀ ring, Holds ringSize ring c.bytes →
        RequestsFit sb c.len sys.dev { sys.conn with ring := ring }

/-- Every call of a sequence fits when it is made. -/
def OpsFit (sb : Superblock) : System → List FileOp → Prop
  | _, [] => True
  | sys, op :: ops => op.Fits sb sys ∧
    ∀ sys' bytes, op.run sb sys = some (sys', bytes) → OpsFit sb sys' ops

/-- A client of an open file that has come to the byte `p`: the bytes from there on to the index of
the server are in the ring. -/
structure AtPosition (sb : Superblock) (inode : ℕ) (e : Inode) (p : ℕ) (sys : System) : Prop where
  working : sys.dev.Working
  inbox : sys.inbox = []
  isOpen : FileOpen sb sys.dev.disk inode e
  index : sys.index = p
  lt : p < wordSize
  client : ∃ fsnode i, sys.conn.progData = some ⟨fsnode, e, i⟩ ∧ fsnode.inode = inode ∧ p ≤ i ∧
    (p < i → i ≤ e.lowerSize) ∧
    Holds ringSize sys.conn.ring (((fileContent sb sys.dev.disk e).drop p).take (i - p))

theorem AtPosition.read {size members : ℕ} (h : AtPosition sb inode e p sys) (hbs : sb.blockSize ≤ 1)
    (hv : size * members < 2 ^ 31) (hfits : (FileOp.read size members).Fits sb sys) :
    ∃ sys' bytes p', (FileOp.read size members).run sb sys = some (sys', bytes) ∧
      (FileOp.read size members).Right sb inode sys bytes ∧ AtPosition sb inode e p' sys' := by
  obtain ⟨fsnode, i, hcli, hinode, hp, hi, hring⟩ := h.client
  have hs : Streaming sb sys.dev.disk fsnode e p sys :=
    ⟨h.working, rfl, h.inbox, i, hcli, hp, hi, hfits _ hcli, hring⟩
  obtain ⟨sys', hrun, hs', hidx⟩ := hs.fread hbs h.isOpen.mapped h.isOpen.near hv
  have hlt := h.lt
  have hsize : e.lowerSize < wordSize := lowerSize_lt e
  refine ⟨sys', _, p + min (size * members) (e.lowerSize - p), hrun, ?_, ?_⟩
  · show _ = List.take _ (List.drop _ _)
    rw [h.isOpen.content_eq, h.index, List.length_take, ← List.take_take, List.take_length]
  · obtain ⟨hd', hdisk, hinbox, i', hcli', hp', hi', -, hring'⟩ := hs'
    refine ⟨hd', hinbox, hdisk ▸ h.isOpen, ?_, by omega, fsnode, i', hcli', hinode, hp', hi',
      hdisk ▸ hring'⟩
    rw [hidx, h.index]
    exact Nat.mod_eq_of_lt (by omega)

theorem AtPosition.write {c : WriteCall} (h : AtPosition sb inode e p sys) (hbs : sb.blockSize ≤ 1)
    (hv : c.Valid) (hfits : (FileOp.write c).Fits sb sys) :
    ∃ sys' bytes p', (FileOp.write c).run sb sys = some (sys', bytes) ∧
      (FileOp.write c).Right sb inode sys bytes ∧ AtPosition sb inode e p' sys' := by
  rcases Nat.eq_zero_or_pos c.len with hz | hpos
  · exact ⟨sys, [], p, run_bind (fwrite_zero hz) rfl, List.nil_sublist _, h⟩
  · obtain ⟨hidx, hempty, hle, hrequests⟩ := hfits.resolve_left (Nat.ne_of_gt hpos)
    obtain ⟨fsnode, i, hcli, hinode, hp, hi, hring⟩ := h.client
    obtain rfl : p = 0 := h.index.symm.trans hidx
    -- the ring is empty, so that nothing was sent ahead
    have hnil := of_decide_eq_true (hring.empty_eq.symm.trans hempty)
    have hlen := length_ring sb sys.dev.disk hp hi
    obtain rfl : i = 0 := by
      rw [hnil, List.length_nil] at hlen
      omega
    rw [hnil] at hring
    have hacc : Accepts (Storing sb inode e c.len) sys c := fun ring hring' =>
      ⟨h.working, h.isOpen, fsnode, 0, c.bytes, hcli, hinode, hring', by
        rw [c.length_bytes, Nat.zero_add], c.len, c.length_bytes.le, hrequests ring hring'⟩
    have hlt : c.len < ringSize := by
      have hle' : c.len ≤ 4083 := hle
      show c.len < 4084
      omega
    obtain ⟨sys', hrun, hs, hidx'⟩ := fwrite_eq h.inbox hring hacc (storing_drains hbs hlt) hv hidx
      (Nat.ne_of_gt hpos) hle
    obtain ⟨hd', hopen, fsnode', i', l, hcli', hinode', hring', hsum, -⟩ := hs.server
    obtain rfl : l = [] := hring'.2.symm.trans hs.ring.2
    rw [List.length_nil, Nat.add_zero] at hsum
    refine ⟨sys', c.bytes, c.len, run_bind hrun rfl, List.Sublist.refl _, hd', hs.inbox, hopen, hidx',
      ?_, fsnode', i', hcli', hinode', hsum.ge, fun hlt => absurd hlt (by omega), ?_⟩
    · have hlt' : c.len < 4084 := hlt
      show c.len < 2 ^ 32
      omega
    · rwa [hsum, Nat.sub_self, List.take_zero]

/-- A call that fits moves the right bytes. -/
theorem AtPosition.step {op : FileOp} (h : AtPosition sb inode e p sys) (hbs : sb.blockSize ≤ 1)
    (hv : op.Valid) (hfits : op.Fits sb sys) :
    ∃ sys' bytes p', op.run sb sys = some (sys', bytes) ∧ op.Right sb inode sys bytes ∧
      AtPosition sb inode e p' sys' := by
  cases op with
  | read size members => exact h.read hbs hv hfits
  | write c => exact h.write hbs hv hfits

theorem AtPosition.run {ops : List FileOp} (h : AtPosition sb inode e p sys) (hbs : sb.blockSize ≤ 1)
    (hv : ∀ op ∈ ops, op.Valid) (hfit : OpsFit sb sys ops) : OpsRight sb inode sys ops := by
  induction ops generalizing sys p with
  | nil => trivial
  | cons op ops ih =>
    obtain ⟨hop, hrest⟩ := hfit
    obtain ⟨sys', bytes, p', hrun, hright, h'⟩ := h.step hbs (hv op List.mem_cons_self) hop
    exact ⟨sys', bytes, hrun, hright,
      ih h' (fun op hop => hv op (List.mem_cons_of_mem _ hop)) (hrest _ _ hrun)⟩

/-! ## Opening a file -/

/-- A copy of the record of a file whose blocks are there. -/
theorem fileOpen_of_agrees (wf : WellFormed sb disk) (hi : IsInode sb inode)
    (hloc : Located sb disk inode) (hm : FileMapped sb disk (inodeRecord sb disk inode))
    (hn : FileNear sb disk (inodeRecord sb disk inode)) (he : e.Agrees (inodeRecord sb disk inode)) :
    FileOpen sb disk inode e where
  laidOut := wf.toLaidOut
  isInode := hi
  located := hloc
  size := he.lowerSize_eq.symm
  single := he.singleIndirectPtr_eq.symm
  direct _ hj _ := (he.directPtr_eq hj).symm
  apart := by
    rw [he.singleIndirectPtr_eq]
    exact wf.indirectApart inode hi
  mapped := he.fileMapped hm
  near := he.fileNear hn

/-- `fs_set_node` opens a file. -/
theorem fsSetNode_atPosition {sys' : System} {reply : Reply} (wf : WellFormed sb sys.dev.disk)
    (hd : sys.dev.Working) (hinbox : sys.inbox = []) (hring : Holds ringSize sys.conn.ring [])
    (hidx : sys.index = 0) (hi : IsInode sb inode) (hloc : Located sb sys.dev.disk inode)
    (hm : FileMapped sb sys.dev.disk (inodeRecord sb sys.dev.disk inode))
    (hn : FileNear sb sys.dev.disk (inodeRecord sb sys.dev.disk inode))
    (hset : fsSetNode sb sys inode = some (sys', reply)) :
    AtPosition sb inode (pageInode (fetchInode sb sys.dev inode) (inodeOffset sb inode)) 0 sys' := by
  cases hset.symm.trans (fsSetNode_eq wf.toLaidOut hd hi hloc hinbox)
  refine ⟨hd, rfl, fileOpen_of_agrees wf hi hloc hm hn (pageInode_agrees wf.toLaidOut), hidx,
    by decide, _, 0, rfl, rfl, Nat.le_refl 0, fun h => absurd h (Nat.lt_irrefl 0), ?_⟩
  rwa [Nat.sub_self, List.take_zero]

/-- **Reads and writes of one file do not mix**, when every call fits. -/
theorem ops_right_of_fit {sys' : System} {reply : Reply} (hbs : sb.blockSize ≤ 1)
    (wf : WellFormed sb sys.dev.disk) (hd : sys.dev.Working) (hinbox : sys.inbox = [])
    (hring : Holds ringSize sys.conn.ring []) (hidx : sys.index = 0) (hi : IsInode sb inode)
    (hloc : Located sb sys.dev.disk inode)
    (hm : FileMapped sb sys.dev.disk (inodeRecord sb sys.dev.disk inode))
    (hn : FileNear sb sys.dev.disk (inodeRecord sb sys.dev.disk inode))
    (hset : fsSetNode sb sys inode = some (sys', reply)) {ops : List FileOp}
    (hv : ∀ op ∈ ops, op.Valid) (hfit : OpsFit sb sys' ops) : OpsRight sb inode sys' ops :=
  (fsSetNode_atPosition wf hd hinbox hring hidx hi hloc hm hn hset).run hbs hv hfit

/-! ## A file of two bytes -/

/-- An image with a file, inode 1, of the bytes `ab`, in the block 6. -/
def twoBytesDisk : ℕ → UInt8 :=
  image smallSuperblock
    [(3, 8, 1016, 256 ^ 1016 - 1), (2, 0, 4, 3), (2, 4, 4, 4), (2, 8, 4, 5), (2, 12, 2, 57),
      (3, 0, 8, 0x800000000000003f), (5, 0, 2, 0x81a4), (5, 4, 4, 2), (5, 40, 4, 6),
      (6, 0, 2, 0x6261)]

theorem twoBytesDisk_blocks : [Meta.desc 0, .blockMap 0, .inodeMap 0, .inodeTable 0 0].map
    (Meta.block smallSuperblock twoBytesDisk) = [2, 3, 4, 5] := by
  decide +kernel

theorem twoBytesDisk_wellFormed : WellFormed smallSuperblock twoBytesDisk :=
  .of_small twoBytesDisk_blocks (by decide +kernel) (by decide +kernel)
    (fun i hi => by rw [twoBytesDisk, image_ones (by decide) hi]) (by decide +kernel)
    (by decide +kernel)

/-- The block of the file is mapped, and is no part of the file system. -/
theorem twoBytesDisk_mapped : (inodeRecord smallSuperblock twoBytesDisk 1).lowerSize = 2 ∧
    (inodeRecord smallSuperblock twoBytesDisk 1).directPtr 0 = 6 ∧
    (inodeRecord smallSuperblock twoBytesDisk 1).singleIndirectPtr = 0 := by
  decide +kernel

theorem twoBytesDisk_fileMapped :
    FileMapped smallSuperblock twoBytesDisk (inodeRecord smallSuperblock twoBytesDisk 1) ∧
      FileNear smallSuperblock twoBytesDisk (inodeRecord smallSuperblock twoBytesDisk 1) := by
  obtain ⟨hsize, hptr, -⟩ := twoBytesDisk_mapped
  have hle := hsize.trans_le (by decide : 2 ≤ ext2BlockSize smallSuperblock)
  refine ⟨fileMapped_of_single hle ?_ ?_, fileNear_of_single hle ?_⟩
  · rw [hptr]
    decide
  · rw [hptr]
    decide
  · rw [hptr]
    show 6 * ext2BlockSize smallSuperblock < wordSize
    decide

theorem twoBytesDisk_blockFits : BlockFits smallSuperblock twoBytesDisk
    (inodeRecord smallSuperblock twoBytesDisk 1) 6 := by
  refine ⟨by decide, ?_, fun m hm => ?_, fun hne => absurd twoBytesDisk_mapped.2.2 hne⟩
  · show 6 * ext2BlockSize smallSuperblock < wordSize
    decide
  · have hblocks := twoBytesDisk_blocks
    simp only [List.map_cons, List.map_nil, List.cons.injEq, and_true] at hblocks
    obtain ⟨h₁, h₂, h₃, h₄⟩ := hblocks
    rcases Meta.of_single (by decide) (by decide) (by decide) hm with rfl | rfl | rfl | rfl
    · rw [h₁]
      decide
    · rw [h₂]
      decide
    · rw [h₃]
      decide
    · rw [h₄]
      decide

/-- The file is opened, the byte `a` is written, and the rest is read. -/
theorem ops_right_of_fit_two : ∃ sys reply,
    fsSetNode smallSuperblock (.connect twoBytesDisk) 1 = some (sys, reply) ∧
      OpsRight smallSuperblock 1 sys [.write (oneByteCall 256), .read 1 2] := by
  have hopen : (fsSetNode smallSuperblock (.connect twoBytesDisk) 1).map
      (fun r => (r.1.index, r.1.conn.progData.map fun cli => (cli.fsnode.inode, cli.index))) =
      some (0, some (1, 0)) := by decide +kernel
  have hwrite : (fsSetNode smallSuperblock (.connect twoBytesDisk) 1).bind
      (fun r => ((FileOp.write (oneByteCall 256)).run smallSuperblock r.1).map
        fun r => r.1.conn.progData.map fun cli => (cli.index, cli.e2node.lowerSize)) =
      some (some (1, 2)) := by decide +kernel
  obtain ⟨⟨sys, reply⟩, hset, he⟩ := Option.map_eq_some_iff.1 hopen
  obtain ⟨hidx, hcli⟩ := Prod.mk.inj he
  obtain ⟨⟨fsnode, e, i⟩, hcli, hc⟩ := Option.map_eq_some_iff.1 hcli
  obtain ⟨hinode, hzero⟩ := Prod.mk.inj hc
  rw [hset, Option.bind_some] at hwrite
  obtain ⟨hsame, hsring⟩ := fsSetNode_same hset
  have hdisk : sys.dev.disk = twoBytesDisk := hsame.1.trans (System.connect_disk _)
  have hmapped := twoBytesDisk_fileMapped
  rw [← System.connect_disk twoBytesDisk] at hmapped
  refine ⟨sys, reply, hset, ops_right_of_fit (by decide)
    twoBytesDisk_wellFormed.connect (System.connect_working _) rfl (System.connect_holds _) rfl
    ⟨by decide, by decide⟩ ⟨by decide, ?_⟩ hmapped.1 hmapped.2 hset (fun op hop => ?_)
    ⟨.inr ⟨hidx, ?_, by decide, fun ring _ => ?_⟩,
      fun sys' bytes hrun => ⟨fun cli hcli' => ?_, fun _ _ _ => trivial⟩⟩⟩
  · unfold Near
    decide +kernel
  · simp only [List.mem_cons, List.not_mem_nil, or_false] at hop
    rcases hop with rfl | rfl
    · exact ⟨by decide, by decide⟩
    · show 1 * 2 < 2 ^ 31
      decide
  · rw [hsring, (System.connect_holds _).empty_eq]
    rfl
  · -- the only request is for the first block of the file
    intro cli hcli' _
    obtain rfl : cli = ⟨fsnode, e, i⟩ := Option.some.inj (hcli'.symm.trans hcli)
    refine ⟨?_, fun _ _ _ _ => trivial⟩
    obtain rfl : i = 0 := hzero
    have hj : 0 / ext2BlockSize smallSuperblock = 0 := Nat.zero_div _
    simp only at hinode
    simp only [hinode, hj]
    refine .mapped ?_ ?_
    · rw [hdisk, twoBytesDisk_mapped.2.1]
      decide
    · rw [hdisk, twoBytesDisk_mapped.2.1]
      exact twoBytesDisk_blockFits
  · rw [hrun, Option.map_some, Option.some.injEq, hcli', Option.map_some, Option.some.injEq] at hwrite
    obtain ⟨hi, hsize⟩ := Prod.mk.inj hwrite
    rw [Ext2.Fits, hi, hsize]
    exact .inr (by decide)

/-- After the byte `a` was read, a write stores the byte `b` that was sent ahead. -/
theorem write_stores_sent_bytes : ¬ ∀ (sb : Superblock) (sys sys' : System) (reply : Reply)
    (inode : ℕ) (ops : List FileOp), sb.blockSize ≤ 1 → WellFormed sb sys.dev.disk →
    sys.dev.Working → sys.inbox = [] → Holds ringSize sys.conn.ring [] → sys.index = 0 →
    IsInode sb inode → FileMapped sb sys.dev.disk (inodeRecord sb sys.dev.disk inode) →
    fsSetNode sb sys inode = some (sys', reply) → (∀ op ∈ ops, op.Valid) →
    OpsRight sb inode sys' ops := by
  intro h
  have hmoved : (fsSetNode smallSuperblock (.connect twoBytesDisk) 1).bind
      (fun r => (FileOp.run smallSuperblock r.1 (.read 1 1)).bind fun r =>
        (FileOp.run smallSuperblock r.1 (.write (oneByteCall 256))).map Prod.snd) =
      some [0x62, 0] := by decide +kernel
  obtain ⟨⟨sys, reply⟩, hset, hmoved⟩ := Option.bind_eq_some_iff.1 hmoved
  have hmapped := twoBytesDisk_fileMapped.1
  rw [← System.connect_disk twoBytesDisk] at hmapped
  obtain ⟨sys₁, bytes₁, hread, -, sys₂, bytes₂, hwrite, hright, -⟩ :=
    h smallSuperblock (.connect twoBytesDisk) sys reply 1 [.read 1 1, .write (oneByteCall 256)]
      (by decide)
      twoBytesDisk_wellFormed.connect (System.connect_working _) rfl (System.connect_holds _) rfl
      ⟨by decide, by decide⟩ hmapped hset (by
        intro op hop
        simp only [List.mem_cons, List.not_mem_nil, or_false] at hop
        rcases hop with rfl | rfl
        · show 1 * 1 < 2 ^ 31
          decide
        · exact ⟨by decide, by decide⟩)
  simp only at hmoved
  rw [hread, Option.bind_some, hwrite, Option.map_some, Option.some.injEq] at hmoved
  simp only at hmoved
  obtain rfl : bytes₂ = [0x62, 0] := hmoved
  exact absurd hright.length_le (by decide)

end C4OS.Ext2
