import C4OS.Ext2.Names
import C4OS.Ext2.Reading
import C4OS.Foundations.Interleavings

/-!
# Clients of one server

All connections of the server share the page `block_buffer`, and a handler leaves in it what the
next one finds there, for whichever client it is. Behind a block of 1024 or 2048 bytes the page is
not overwritten, and a handler that looks there tells one client what another one has read. On an
image whose directories are tiled by their entries (`Volume`) that does not happen to a client that
lists only directories and does not read on from the middle of a block (`Proper`), as long as
nothing is written.

`clients_isolated` says so for any number of clients and any order of their requests: the server
goes through all of them just when it goes through those of each client alone, with the same
answers, and leaves every connection as it is without the other clients.
-/

namespace C4OS.Ext2

open Foundations Ringbuffer

variable {sb : Superblock} {disk : ℕ → UInt8} {d d' : Device} {e e' : Inode} {conn conn' : Conn}
  {stack : ℕ → UInt8} {j : ℕ}

/-! ## Volumes -/

/-- An image on which every record is where the code looks for it, and every directory is read
right. -/
structure Volume (sb : Superblock) (disk : ℕ → UInt8) : Prop where
  laidOut : LaidOut sb disk
  root : IsInode sb 2
  located : ∀ inode, IsInode sb inode → Located sb disk inode
  directory : ∀ inode, IsInode sb inode → ext2IsDirectory (inodeRecord sb disk inode) = true →
    ∃ blocks, Directory sb disk (inodeRecord sb disk inode) blocks ∧
      ∀ j < blocks.length, BlockReadable sb disk (inodeRecord sb disk inode) j

/-- A device that works, with a disk. -/
structure Device.OnDisk (d : Device) (disk : ℕ → UInt8) : Prop where
  disk_eq : d.disk = disk
  working : d.Working

/-- The same bytes of a block are in the page. -/
def Device.SameBlock (sb : Superblock) (d d' : Device) : Prop :=
  ∀ c < ext2BlockSize sb, d.buffer c = d'.buffer c

theorem Volume.geometry (hv : Volume sb disk) : Geometry sb := hv.laidOut.geometry hv.root

theorem Device.Reads.onDisk {d₁ : Device} (hr : d.Reads sb d₁) (hd : d.OnDisk disk) :
    d₁.OnDisk disk :=
  ⟨hr.same.1.trans hd.disk_eq, hr.working hd.working⟩

/-! ## Copies of a record -/

namespace Inode.Agrees

theorem symm (h : e.Agrees e') : e'.Agrees e := fun i hi => (h i hi).symm

theorem trans {e'' : Inode} (h : e.Agrees e') (h' : e'.Agrees e'') : e.Agrees e'' :=
  fun i hi => (h i hi).trans (h' i hi)

theorem inodeType_eq (h : e.Agrees e') : ext2InodeType e = ext2InodeType e' :=
  congrArg (· / 2 ^ 12) (readLE_congr fun i hi => h (0 + i) (by
    show 0 + i < 120
    omega))

theorem isDirectory_eq (h : e.Agrees e') : ext2IsDirectory e = ext2IsDirectory e' :=
  congrArg (· == 4) h.inodeType_eq

theorem fileBlock_eq (h : e.Agrees e') (j : ℕ) :
    fileBlock sb disk e j = fileBlock sb disk e' j := by
  rw [fileBlock, fileBlock, h.singleIndirectPtr_eq]
  split
  · next hj => exact h.directPtr_eq hj
  · rfl

theorem mapped_iff (h : e.Agrees e') (j : ℕ) : Mapped sb disk e j ↔ Mapped sb disk e' j := by
  rw [Mapped, Mapped, h.fileBlock_eq]

theorem formatPath_eq (h : e.Agrees e') (j : ℕ) :
    formatPath sb disk e j = formatPath sb disk e' j := by
  have hptr (off : ℕ) (hoff : off + 4 ≤ 120) : readLE 4 e.byte off = readLE 4 e'.byte off :=
    readLE_congr fun i hi => h (off + i) (by show off + i < 120; omega)
  have hdouble : e.doubleIndirectPtr = e'.doubleIndirectPtr := hptr 92 (by decide)
  have htriple : e.tripleIndirectPtr = e'.tripleIndirectPtr := hptr 96 (by decide)
  rw [formatPath, formatPath]
  by_cases hj : j < 12
  · simp only [if_pos hj, h.directPtr_eq hj]
  · simp only [if_neg hj, h.singleIndirectPtr_eq, hdouble, htriple]

theorem formatByte_eq (h : e.Agrees e') (j : ℕ) :
    formatByte sb disk e j = formatByte sb disk e' j := by
  funext c
  rw [formatByte, formatByte, formatMap, formatMap, h.formatPath_eq]

theorem fileContent_eq (h : e.Agrees e') : fileContent sb disk e = fileContent sb disk e' := by
  rw [fileContent, fileContent, h.lowerSize_eq]
  refine List.map_congr_left fun i _ => ?_
  rw [fileByte, fileByte, h.fileMap_eq]

theorem directory (h : e.Agrees e') {blocks : List (List DirEntry)}
    (hdir : Directory sb disk e' blocks) : Directory sb disk e blocks where
  size := h.lowerSize_eq.trans hdir.size
  entries j hj := by
    rw [h.formatByte_eq]
    exact hdir.entries j hj

theorem blockReadable (h : e.Agrees e') (hr : BlockReadable sb disk e' j) :
    BlockReadable sb disk e j where
  mapped := (h.mapped_iff j).2 hr.mapped
  bytes c hc := by
    rw [h.fileBlock_eq, h.formatByte_eq]
    exact hr.bytes c hc

end Inode.Agrees

/-! ## Blocks in the page -/

/-- The page with a block of a file, or no block. -/
theorem readBlock_cases (h : Geometry sb) (hd : d.OnDisk disk) (e : Inode) (j : ℕ) :
    (Mapped sb disk e j ∧ ∃ d₁, ext2InodeReadBlock sb d e j = some (d₁, true) ∧ d₁.OnDisk disk ∧
      ∀ c < ext2BlockSize sb, d₁.buffer c =
        disk (blockStart sb (deviceBlock sb (fileBlock sb disk e j)) + c)) ∨
    ¬ Mapped sb disk e j ∧ ∀ d₁, ext2InodeReadBlock sb d e j ≠ some (d₁, true) := by
  obtain ⟨rfl, hwork⟩ := hd
  by_cases hm : Mapped sb d.disk e j
  · obtain ⟨d₁, hrun, hr, hbuffer⟩ := ext2InodeReadBlock_mapped h hwork hm
    refine .inl ⟨hm, d₁, hrun, hr.onDisk ⟨rfl, hwork⟩, fun c hc => ?_⟩
    rw [hbuffer]
    exact if_pos hc
  · exact .inr ⟨hm, fun d₁ => ext2InodeReadBlock_not_mapped h hwork hm⟩

/-- A handler goes wrong where a block is not read. -/
theorem bind_readBlock {α : Type} (hnot : ∀ d₁, ext2InodeReadBlock sb d e j ≠ some (d₁, true))
    (k : Device × Bool → Option α) :
    ((ext2InodeReadBlock sb d e j).bind fun r => if !r.2 then none else k r) = none := by
  cases hrun : ext2InodeReadBlock sb d e j with
  | none => rfl
  | some r =>
    obtain ⟨d₁, ok⟩ := r
    cases ok with
    | true => exact absurd hrun (hnot d₁)
    | false => rfl

section SameBlock

variable (h : d.SameBlock sb d')

include h

theorem Device.SameBlock.load {k off : ℕ} (hoff : off + k ≤ ext2BlockSize sb) :
    d.load k off = d'.load k off := by
  rw [Device.load, Device.load, readLE_congr fun i hi => h (off + i) (by omega)]

theorem Device.SameBlock.loadBytes {size off : ℕ} (hoff : off + size ≤ ext2BlockSize sb) :
    d.loadBytes off size = d'.loadBytes off size := by
  have hbytes : (List.range size).map (fun i => d.buffer (off + i)) =
      (List.range size).map fun i => d'.buffer (off + i) := by
    refine List.map_congr_left fun i hi => h _ ?_
    have := List.mem_range.1 hi
    omega
  rw [Device.loadBytes, Device.loadBytes, hbytes]

theorem Device.SameBlock.loadDirent {off : ℕ} (hoff : off + 8 ≤ ext2BlockSize sb) :
    d.loadDirent off = d'.loadDirent off := by
  rw [Device.loadDirent, Device.loadDirent, h.load (by omega), h.load (by omega),
    h.load (by omega), h.load (by omega)]

/-- An entry whose name is in the block is sent or left out. -/
theorem Device.SameBlock.sendDirent {off : ℕ} {ent : Dirent}
    (hname : off + 8 + ent.nameLength ≤ ext2BlockSize sb) (ring : C4Ringbuf) (name : ℕ → UInt8) :
    sendDirent d ring off ent name = sendDirent d' ring off ent name := by
  rw [Ext2.sendDirent, Ext2.sendDirent, copyName, copyName, h.loadBytes (by omega)]

/-- **The entries of a block are listed** with what is in the block. -/
theorem Device.SameBlock.listLoop {byte : ℕ → UInt8} {fuel off : ℕ} {es : List DirEntry}
    (hbyte : ∀ c < ext2BlockSize sb, d.buffer c = byte c)
    (hes : blockEntries (ext2BlockSize sb) byte fuel off = some es) (ring : C4Ringbuf)
    (name : ℕ → UInt8) (sent : ℕ) :
    listLoop sb d fuel ring name off sent = listLoop sb d' fuel ring name off sent := by
  induction fuel generalizing off es ring name sent with
  | zero => cases hes
  | succ fuel ih =>
    rw [Ext2.listLoop, Ext2.listLoop]
    rcases blockEntries_cons hes with ⟨rfl, -⟩ | ⟨hoff, hname, hle, rest, hrest, -⟩
    · rw [if_neg (Nat.lt_irrefl _), if_neg (Nat.lt_irrefl _)]
    · have hlt : off < ext2BlockSize sb := by omega
      rw [if_pos hlt, if_pos hlt, ← h.loadDirent (by omega)]
      cases hload : d.loadDirent off with
      | none => rfl
      | some ent =>
        have hent : ent = pageDirent d off := by
          rcases Nat.lt_or_ge pageSize (off + 8) with hout | hin
          · rw [loadDirent_none (by omega)] at hload
            cases hload
          · exact Option.some.inj (hload.symm.trans (loadDirent_eq hin))
        have hread {k a : ℕ} (ha : a + k ≤ off + 8) : readLE k d.buffer a = readLE k byte a :=
          readLE_congr fun i hi => hbyte _ (by omega)
        have hlen : off + 8 + ent.nameLength ≤ ext2BlockSize sb := by
          rw [hent]
          show off + 8 + readLE 1 d.buffer (off + 6) ≤ _
          rw [hread (by omega)]
          omega
        have hnext : off + ent.size = off + readLE 2 byte (off + 4) := by
          rw [hent]
          exact congrArg (off + ·) (hread (by omega))
        simp only [Option.bind_eq_bind, Option.bind_some, h.sendDirent hlen, hnext]
        congr 1
        funext r
        exact ih hrest r.1 r.2.1 _

end SameBlock

/-! ## Requests of two connections that look the same -/

/-- Two states of a client with the same node and index. -/
structure ClientState.Alike (cli cli' : ClientState) : Prop where
  fsnode : cli.fsnode = cli'.fsnode
  e2node : cli.e2node.Agrees cli'.e2node
  index : cli.index = cli'.index

/-- Two connections that their clients cannot tell apart. -/
structure Conn.Alike (conn conn' : Conn) : Prop where
  ring : conn.ring = conn'.ring
  progData : Option.Rel ClientState.Alike conn.progData conn'.progData

/-- The node of a client, when it is a directory, is one of the file system. -/
def Conn.Sound (sb : Superblock) (disk : ℕ → UInt8) (conn : Conn) : Prop :=
  ∀ cli, conn.progData = some cli → ext2IsDirectory cli.e2node = true →
    ∃ inode, IsInode sb inode ∧ cli.e2node.Agrees (inodeRecord sb disk inode)

/-- The results of a request on two connections that look the same. -/
structure Results (sb : Superblock) (disk : ℕ → UInt8) (r r' : Device × Conn × List Reply) :
    Prop where
  device : r.1.OnDisk disk
  device' : r'.1.OnDisk disk
  conn : r.2.1.Alike r'.2.1
  sound : r.2.1.Sound sb disk
  replies : r.2.2 = r'.2.2

theorem ClientState.Alike.refl (cli : ClientState) : cli.Alike cli := ⟨rfl, fun _ _ => rfl, rfl⟩

theorem Conn.Alike.refl (conn : Conn) : conn.Alike conn := by
  refine ⟨rfl, ?_⟩
  cases conn.progData with
  | none => exact .none
  | some cli => exact .some (.refl cli)

/-- A connection without a node, or with one. -/
theorem Conn.Alike.cases (h : conn.Alike conn') :
    conn.progData = none ∧ conn'.progData = none ∨
      ∃ cli cli', conn.progData = some cli ∧ conn'.progData = some cli' ∧ cli.Alike cli' := by
  have hdata := h.progData
  generalize conn.progData = x at hdata ⊢
  generalize conn'.progData = x' at hdata ⊢
  cases hdata with
  | none => exact .inl ⟨rfl, rfl⟩
  | some hcli => exact .inr ⟨_, _, rfl, rfl, hcli⟩

/-- **`ext2_get_inode`** does not depend on what is in the page. -/
theorem getInode_alike (hv : Volume sb disk) (hd : d.OnDisk disk) (hd' : d'.OnDisk disk)
    (inode : ℕ) : (ext2GetInode sb d inode = none ∧ ext2GetInode sb d' inode = none) ∨
      ∃ d₁ d₁' buf buf', ext2GetInode sb d inode = some (d₁, buf) ∧
        ext2GetInode sb d' inode = some (d₁', buf') ∧ d₁.OnDisk disk ∧ d₁'.OnDisk disk ∧
        (buf = none ∧ buf' = none ∨ ∃ off e e', buf = some (off, e) ∧ buf' = some (off, e') ∧
          e.Agrees e' ∧ IsInode sb inode ∧ e.Agrees (inodeRecord sb disk inode)) := by
  have h := hv.geometry
  obtain ⟨rfl, hwork⟩ := hd
  obtain ⟨hdisk, hwork'⟩ := hd'
  rcases Nat.lt_or_ge sb.totalInodes inode with hlt | hle
  · exact .inr ⟨_, _, _, _, ext2GetInode_of_lt h hwork hlt, ext2GetInode_of_lt h hwork' hlt,
      ⟨rfl, hwork⟩, ⟨hdisk, hwork'⟩, .inl ⟨rfl, rfl⟩⟩
  · rcases Nat.eq_zero_or_pos inode with rfl | hpos
    · exact .inl ⟨ext2GetInode_zero h hwork, ext2GetInode_zero h hwork'⟩
    · have hi : IsInode sb inode := ⟨hpos, hle⟩
      have hagrees : (pageInode (fetchInode sb d inode) (inodeOffset sb inode)).Agrees
          (inodeRecord sb d.disk inode) := pageInode_agrees hv.laidOut
      have hagrees' : (pageInode (fetchInode sb d' inode) (inodeOffset sb inode)).Agrees
          (inodeRecord sb d'.disk inode) := pageInode_agrees (hdisk ▸ hv.laidOut)
      rw [hdisk] at hagrees'
      exact .inr ⟨_, _, _, _, ext2GetInode_eq hv.laidOut hwork hi (hv.located inode hi),
        ext2GetInode_eq (hdisk ▸ hv.laidOut) hwork' hi (hdisk ▸ hv.located inode hi),
        ⟨rfl, hwork⟩, ⟨hdisk, hwork'⟩,
        .inr ⟨_, _, _, rfl, rfl, hagrees.trans hagrees'.symm, hi, hagrees⟩⟩

/-- The index of a client moves. -/
theorem results_move (hs : conn.Sound sb disk) {cli cli' : ClientState} {d₁ d₁' : Device}
    (hd₁ : d₁.OnDisk disk) (hd₁' : d₁'.OnDisk disk) (hcli : conn.progData = some cli)
    (halike : cli.Alike cli') (ring : C4Ringbuf) (index : ℕ) (replies : List Reply) :
    Results sb disk (d₁, ⟨ring, some { cli with index := index }⟩, replies)
      (d₁', ⟨ring, some { cli' with index := index }⟩, replies) where
  device := hd₁
  device' := hd₁'
  conn := ⟨rfl, .some ⟨halike.fsnode, halike.e2node, rfl⟩⟩
  sound := by
    intro cli₁ hcli₁ hisdir
    cases hcli₁
    exact hs cli hcli hisdir
  replies := rfl

/-- The search in a directory that is read right. -/
theorem findInDir_directory (h : Geometry sb) (hd : d.OnDisk disk) {blocks : List (List DirEntry)}
    (hdir : Directory sb disk e blocks) (hread : ∀ j < blocks.length, BlockReadable sb disk e j)
    (name : List UInt8) : ∃ d₁ r,
      findInDir sb e name (e.lowerSize / ext2BlockSize sb + 2) d 0 = some (d₁, r) ∧
      d₁.OnDisk disk ∧ findReply r = entryReply (firstNamed name blocks.flatten) := by
  obtain ⟨rfl, hwork⟩ := hd
  have hb : BlocksRead sb d.disk e blocks name := fun j hj _ => hread j hj
  obtain ⟨r, hfinds, hreply⟩ := hb.exists_finds h hdir
  obtain ⟨d₁, hrun⟩ := (exists_findInDir_eq_iff h hwork).2 hfinds
  obtain ⟨hr, -⟩ := found_of_findInDir h hwork (Nat.zero_le _) (.refl sb d) hrun
  exact ⟨d₁, r, hrun, hr.onDisk ⟨rfl, hwork⟩, hreply⟩

section Handlers

variable (hv : Volume sb disk) (hd : d.OnDisk disk) (hd' : d'.OnDisk disk)
  (hc : conn.Alike conn') (hs : conn.Sound sb disk)

include hv hd hd' hc hs

theorem handleSetNode_alike (inode : ℕ) : Option.Rel (Results sb disk)
    (handleSetNode sb d conn inode) (handleSetNode sb d' conn' inode) := by
  have hold : ((conn.progData.map ClientState.e2node).getD ⟨fun _ => 0⟩).Agrees
      ((conn'.progData.map ClientState.e2node).getD ⟨fun _ => 0⟩) := by
    rcases hc.cases with ⟨hnone, hnone'⟩ | ⟨cli, cli', hcli, hcli', halike⟩
    · rw [hnone, hnone']
      exact fun _ _ => rfl
    · rw [hcli, hcli']
      exact halike.e2node
  have hzero : ext2IsDirectory ⟨fun _ => 0⟩ = false := by decide
  rcases getInode_alike hv hd hd' inode with ⟨hnone, hnone'⟩ |
    ⟨d₁, d₁', buf, buf', hrun, hrun', hd₁, hd₁', ⟨rfl, rfl⟩ |
      ⟨off, e, e', rfl, rfl, hagrees, hi, hrecord⟩⟩
  · rw [handleSetNode, handleSetNode, hnone, hnone']
    exact .none
  · rw [handleSetNode, handleSetNode, hrun, hrun']
    refine .some ⟨hd₁, hd₁', ⟨hc.ring, .some ⟨rfl, hold, rfl⟩⟩, ?_, rfl⟩
    intro cli hcli hisdir
    cases hcli
    cases hdata : conn.progData with
    | none =>
      rw [hdata] at hisdir
      cases hzero.symm.trans hisdir
    | some cli =>
      rw [hdata] at hisdir
      exact hs cli hdata hisdir
  · rw [handleSetNode, handleSetNode, hrun, hrun']
    refine .some ⟨hd₁, hd₁', ⟨hc.ring, .some ⟨rfl, hagrees, rfl⟩⟩, ?_, rfl⟩
    intro cli hcli _
    cases hcli
    exact ⟨inode, hi, hrecord⟩

theorem handleGetNodeInfo_alike (inode : ℕ) : Option.Rel (Results sb disk)
    (handleGetNodeInfo sb d conn inode) (handleGetNodeInfo sb d' conn' inode) := by
  rcases getInode_alike hv hd hd' inode with ⟨hnone, hnone'⟩ |
    ⟨d₁, d₁', buf, buf', hrun, hrun', hd₁, hd₁', ⟨rfl, rfl⟩ |
      ⟨off, e, e', rfl, rfl, hagrees, -⟩⟩
  · rw [handleGetNodeInfo, handleGetNodeInfo, hnone, hnone']
    exact .none
  · rw [handleGetNodeInfo, handleGetNodeInfo, hrun, hrun']
    exact .some ⟨hd₁, hd₁', hc, hs, rfl⟩
  · rw [handleGetNodeInfo, handleGetNodeInfo, hrun, hrun']
    refine .some ⟨hd₁, hd₁', hc, hs, ?_⟩
    show [Reply.completed [e.lowerSize, (translateType (ext2InodeType e)).toNat]] =
      [Reply.completed [e'.lowerSize, (translateType (ext2InodeType e')).toNat]]
    rw [hagrees.lowerSize_eq, hagrees.inodeType_eq]

theorem handleGetRootdir_alike : Option.Rel (Results sb disk)
    (handleGetRootdir sb stack d conn) (handleGetRootdir sb stack d' conn') := by
  rcases getInode_alike hv hd hd' 2 with ⟨hnone, hnone'⟩ |
    ⟨d₁, d₁', buf, buf', hrun, hrun', hd₁, hd₁', ⟨rfl, rfl⟩ |
      ⟨off, e, e', rfl, rfl, hagrees, -⟩⟩
  · rw [handleGetRootdir, handleGetRootdir, hnone, hnone']
    exact .none
  · rw [handleGetRootdir, handleGetRootdir, hrun, hrun']
    exact .some ⟨hd₁, hd₁', hc, hs, rfl⟩
  · rw [handleGetRootdir, handleGetRootdir, hrun, hrun']
    refine .some ⟨hd₁, hd₁', hc, hs, ?_⟩
    exact congrArg (fun n => [Reply.completed [2, FileType.directory.toNat, n]])
      hagrees.lowerSize_eq

omit hc in
/-- The search in a directory. -/
theorem findInDir_alike {cli cli' : ClientState} (hcli : conn.progData = some cli)
    (hcli' : cli.Alike cli') (hisdir : ext2IsDirectory cli.e2node = true) (name : List UInt8) :
    ∃ d₁ d₁' r r', findInDir sb cli.e2node name
        (cli.e2node.lowerSize / ext2BlockSize sb + 2) d 0 = some (d₁, r) ∧
      findInDir sb cli'.e2node name
        (cli'.e2node.lowerSize / ext2BlockSize sb + 2) d' 0 = some (d₁', r') ∧
      d₁.OnDisk disk ∧ d₁'.OnDisk disk ∧ findReply r = findReply r' := by
  obtain ⟨inode, hi, hagrees⟩ := hs cli hcli hisdir
  rw [hagrees.isDirectory_eq] at hisdir
  obtain ⟨blocks, hdir, hread⟩ := hv.directory inode hi hisdir
  -- both searches find the first entry with the name
  have he' := hcli'.e2node.symm.trans hagrees
  obtain ⟨d₁, r, hrun, hd₁, hr⟩ := findInDir_directory hv.geometry hd (hagrees.directory hdir)
    (fun j hj => hagrees.blockReadable (hread j hj)) name
  obtain ⟨d₁', r', hrun', hd₁', hr'⟩ := findInDir_directory hv.geometry hd' (he'.directory hdir)
    (fun j hj => he'.blockReadable (hread j hj)) name
  exact ⟨d₁, d₁', r, r', hrun, hrun', hd₁, hd₁', hr.trans hr'.symm⟩

theorem handleFindName_alike (stack : ℕ → UInt8) (namelen : ℕ) : Option.Rel
    (fun r r' => Results sb disk (r.1, r.2.1, r.2.2.1) (r'.1, r'.2.1, r'.2.2.1))
    (handleFindName sb stack d conn namelen) (handleFindName sb stack d' conn' namelen) := by
  rw [handleFindName, handleFindName]
  rcases hc.cases with ⟨hnone, hnone'⟩ | ⟨cli, cli', hcli, hcli', halike⟩
  · rw [hnone, hnone']
    exact .none
  · simp only [hcli, hcli', Option.bind_eq_bind, Option.bind_some, ← hc.ring,
      ← halike.e2node.isDirectory_eq]
    by_cases hisdir : ext2IsDirectory cli.e2node = true
    · have hfind := findInDir_alike hv hd hd' hs hcli halike hisdir
      simp only [hisdir, Bool.not_true, Bool.false_eq_true, if_false]
      cases hcan : c4RingbufCanRead conn.ring namelen with
      | none => exact .none
      | some can =>
        simp only [Option.bind_some]
        split
        · exact .some ⟨hd, hd', hc, hs, rfl⟩
        · cases hring : c4RingbufRead conn.ring namelen with
          | none => exact .none
          | some x =>
            obtain ⟨ring, bytes⟩ := x
            obtain ⟨d₁, d₁', r, r', hrun, hrun', hd₁, hd₁', hr⟩ :=
              hfind (nameBytes stack bytes namelen)
            simp only [Option.bind_some, hrun, hrun']
            exact .some ⟨hd₁, hd₁', ⟨rfl, .some halike⟩,
              fun cli₁ hcli₁ => hs cli₁ (hcli.trans hcli₁), congrArg (fun x => [x]) hr⟩
    · rw [Bool.not_eq_true] at hisdir
      simp only [hisdir, Bool.not_false, if_true]
      exact .some ⟨hd, hd', hc, hs, rfl⟩

theorem handleListDir_alike
    (hisdir : ∀ cli, conn.progData = some cli → ext2IsDirectory cli.e2node = true) :
    Option.Rel (Results sb disk) (handleListDir sb stack d conn)
      (handleListDir sb stack d' conn') := by
  have h := hv.geometry
  rw [handleListDir, handleListDir]
  rcases hc.cases with ⟨hnone, hnone'⟩ | ⟨cli, cli', hcli, hcli', halike⟩
  · rw [hnone, hnone']
    exact .some ⟨hd, hd', hc, hs, rfl⟩
  · simp only [hcli, hcli', ← halike.e2node.lowerSize_eq, ← halike.index]
    split
    · exact .some ⟨hd, hd', hc, hs, rfl⟩
    · next hlt =>
      rcases readBlock_cases h hd cli.e2node cli.index with
        ⟨hm, d₁, hrun, hd₁, hbytes⟩ | ⟨hm, hnot⟩
      · rcases readBlock_cases h hd' cli'.e2node cli.index with
          ⟨-, d₁', hrun', hd₁', hbytes'⟩ | ⟨hm', -⟩
        · -- the block has entries, since the directory has this block
          have hwhole := mul_blockSize_lt h (Nat.le_of_lt hm.lt)
          rw [Nat.mod_eq_of_lt hwhole] at hlt
          obtain ⟨inode, hi, hagrees⟩ := hs cli hcli (hisdir cli hcli)
          have hrecord := hisdir cli hcli
          rw [hagrees.isDirectory_eq] at hrecord
          obtain ⟨blocks, hdir, hread⟩ := hv.directory inode hi hrecord
          have hj : cli.index < blocks.length :=
            ((hagrees.directory hdir).mul_lt h).1 (Nat.lt_of_not_le hlt)
          have hblock := hagrees.blockReadable (hread cli.index hj)
          have hsame : d₁.SameBlock sb d₁' := fun c hc => by
            rw [hbytes c hc, hbytes' c hc, halike.e2node.fileBlock_eq]
          have hbyte : ∀ c < ext2BlockSize sb,
              d₁.buffer c = formatByte sb disk cli.e2node cli.index c := fun c hc =>
            (hbytes c hc).trans (hblock.bytes c hc)
          have hlist := hsame.listLoop hbyte ((hagrees.directory hdir).entries cli.index hj)
            conn.ring stack 0
          simp only [hrun, hrun', Option.bind_eq_bind, Option.bind_some, Bool.not_true,
            Bool.false_eq_true, if_false, ← hc.ring, hlist]
          cases hloop : listLoop sb d₁' (ext2BlockSize sb + 1) conn.ring stack 0 0 with
          | none => exact .none
          | some r => exact .some (results_move hs hd₁ hd₁' hcli halike ..)
        · exact absurd ((halike.e2node.mapped_iff _).1 hm) hm'
      · rcases readBlock_cases h hd' cli'.e2node cli.index with ⟨hm', -⟩ | ⟨-, hnot'⟩
        · exact absurd ((halike.e2node.mapped_iff _).2 hm') hm
        · simp only [Option.bind_eq_bind]
          rw [bind_readBlock hnot, bind_readBlock hnot']
          exact .none

theorem handleReadBlock_alike
    (hfits : ∀ cli, conn.progData = some cli → Fits sb cli.e2node cli.index) :
    Option.Rel (Results sb disk) (handleReadBlock sb d conn) (handleReadBlock sb d' conn') := by
  have h := hv.geometry
  rw [handleReadBlock, handleReadBlock]
  rcases hc.cases with ⟨hnone, hnone'⟩ | ⟨cli, cli', hcli, hcli', halike⟩
  · rw [hnone, hnone']
    exact .some ⟨hd, hd', hc, hs, rfl⟩
  · simp only [hcli, hcli', readAndSend, ← halike.e2node.lowerSize_eq, ← halike.index, ← hc.ring]
    split
    · exact .some ⟨hd, hd', hc, hs, rfl⟩
    · next hlt =>
      rw [if_neg (Nat.ne_of_gt (ext2BlockSize_pos h.blockSize)),
        if_neg (Nat.ne_of_gt (ext2BlockSize_pos h.blockSize))]
      have hfits := (hfits cli hcli).resolve_left hlt
      cases hcan : c4RingbufCanWrite conn.ring
          (min (cli.e2node.lowerSize - cli.index) (ext2BlockSize sb)) with
      | none => exact .none
      | some can =>
        simp only [Option.bind_eq_bind, Option.bind_some]
        split
        · exact .some ⟨hd, hd', hc, hs, rfl⟩
        · rcases readBlock_cases h hd cli.e2node (cli.index / ext2BlockSize sb) with
            ⟨hm, d₁, hrun, hd₁, hbytes⟩ | ⟨hm, hnot⟩
          · rcases readBlock_cases h hd' cli'.e2node (cli.index / ext2BlockSize sb) with
              ⟨-, d₁', hrun', hd₁', hbytes'⟩ | ⟨hm', -⟩
            · have hsame : d₁.SameBlock sb d₁' := fun c hc => by
                rw [hbytes c hc, hbytes' c hc, halike.e2node.fileBlock_eq]
              have hload := hsame.loadBytes hfits
              simp only [hrun, hrun', Option.bind_some, Bool.not_true, Bool.false_eq_true,
                if_false, hload]
              cases hbuf : d₁'.loadBytes (cli.index % ext2BlockSize sb)
                  (min (cli.e2node.lowerSize - cli.index) (ext2BlockSize sb)) with
              | none => exact .none
              | some bytes =>
                simp only [Option.bind_some]
                cases hwrite : c4RingbufWrite conn.ring bytes with
                | none => exact .none
                | some r => exact .some (results_move hs hd₁ hd₁' hcli halike ..)
            · exact absurd ((halike.e2node.mapped_iff _).1 hm) hm'
          · rcases readBlock_cases h hd' cli'.e2node (cli.index / ext2BlockSize sb) with
              ⟨hm', -⟩ | ⟨-, hnot'⟩
            · exact absurd ((halike.e2node.mapped_iff _).2 hm') hm
            · rw [bind_readBlock hnot, bind_readBlock hnot']
              exact .none

end Handlers

/-! ## Reading leaves the disk as it is -/

theorem Device.OnDisk.same (hd : d.OnDisk disk) (h : d.Same d') : d'.OnDisk disk :=
  ⟨h.1.trans hd.disk_eq, hd.working.same h⟩

theorem Device.Same.refl (d : Device) : d.Same d := ⟨rfl, rfl⟩

theorem inodeReadBlock_same {ok : Bool} (h : ext2InodeReadBlock sb d e j = some (d', ok)) :
    d.Same d' := by
  obtain ⟨⟨d₁, rBlock⟩, hblock, hread⟩ := Option.bind_eq_some_iff.1 h
  have hsame : d.Same d₁ := by
    simp only [inodeBlock] at hblock
    split at hblock
    · cases hblock
      exact .refl d
    · split at hblock
      · split at hblock
        · cases hblock
          exact .refl d
        · obtain ⟨⟨d₂, ok⟩, htable, hblock⟩ := Option.bind_eq_some_iff.1 hblock
          simp only at hblock
          split at hblock
          · obtain ⟨ent, -, hblock⟩ := Option.bind_eq_some_iff.1 hblock
            cases hblock
            exact ext2ReadBlock_same htable
          · cases hblock
      · cases hblock
        exact .refl d
  simp only at hread
  split at hread
  · exact hsame.trans (ext2ReadBlock_same hread)
  · split at hread
    · cases hread
      exact hsame.trans ⟨rfl, rfl⟩
    · cases hread

theorem findInDir_same {name : List UInt8} {fuel block : ℕ} {r : Option Dirent}
    (h : findInDir sb e name fuel d block = some (d', r)) : d.Same d' := by
  induction fuel generalizing d block with
  | zero => cases h
  | succ fuel ih =>
    rw [findInDir] at h
    split at h
    · obtain ⟨⟨d₁, ok⟩, hread, h⟩ := Option.bind_eq_some_iff.1 h
      have hsame := inodeReadBlock_same hread
      simp only at h
      split at h
      · cases h
      · obtain ⟨found, -, h⟩ := Option.bind_eq_some_iff.1 h
        cases found with
        | some ent =>
          cases h
          exact hsame
        | none => exact hsame.trans (ih h)
    · cases h
      exact .refl _

/-- **A request that is not for writing** leaves the disk as it is, and only a request for a node
changes the node. -/
theorem ext2Server_same {msg : Message} {conn₁ : Conn} {replies : List Reply}
    (hmsg : msg.type ≠ .writeBlock)
    (h : ext2Server sb stack d conn msg = some (d', conn₁, replies)) :
    d.Same d' ∧ (msg.type ≠ .setNode →
      conn₁.progData.map ClientState.e2node = conn.progData.map ClientState.e2node) := by
  rw [ext2Server] at h
  cases htype : msg.type <;> simp only [htype] at h
  case setNode =>
    obtain ⟨⟨d₁, buf⟩, hrun, h⟩ := Option.bind_eq_some_iff.1 h
    cases h
    exact ⟨ext2GetInode_same hrun, fun hne => absurd rfl hne⟩
  case findName =>
    obtain ⟨⟨d₁, conn₂, replies₂, name⟩, hrun, h⟩ := Option.bind_eq_some_iff.1 h
    cases h
    obtain ⟨cli, hcli, hrun⟩ := Option.bind_eq_some_iff.1 hrun
    split at hrun
    · cases hrun
      exact ⟨.refl d, fun _ => rfl⟩
    · obtain ⟨can, -, hrun⟩ := Option.bind_eq_some_iff.1 hrun
      split at hrun
      · cases hrun
        exact ⟨.refl d, fun _ => rfl⟩
      · obtain ⟨⟨ring, bytes⟩, -, hrun⟩ := Option.bind_eq_some_iff.1 hrun
        obtain ⟨⟨d₂, r⟩, hfind, hrun⟩ := Option.bind_eq_some_iff.1 hrun
        cases hrun
        exact ⟨findInDir_same hfind, fun _ => rfl⟩
  case getRootDir =>
    obtain ⟨⟨d₁, buf⟩, hrun, h⟩ := Option.bind_eq_some_iff.1 h
    cases h
    exact ⟨ext2GetInode_same hrun, fun _ => rfl⟩
  case getNodeInfo =>
    obtain ⟨⟨d₁, buf⟩, hrun, h⟩ := Option.bind_eq_some_iff.1 h
    cases buf <;> cases h <;> exact ⟨ext2GetInode_same hrun, fun _ => rfl⟩
  case listDir =>
    rw [handleListDir] at h
    split at h
    · cases h
      exact ⟨.refl d, fun _ => rfl⟩
    · next cli hcli =>
      split at h
      · cases h
        exact ⟨.refl d, fun _ => rfl⟩
      · obtain ⟨⟨d₁, ok⟩, hread, h⟩ := Option.bind_eq_some_iff.1 h
        simp only at h
        split at h
        · cases h
        · obtain ⟨r, -, h⟩ := Option.bind_eq_some_iff.1 h
          cases h
          exact ⟨inodeReadBlock_same hread, fun _ => by rw [hcli]; rfl⟩
  case readBlock =>
    rw [handleReadBlock] at h
    split at h
    · cases h
      exact ⟨.refl d, fun _ => rfl⟩
    · next cli hcli =>
      split at h
      · cases h
        exact ⟨.refl d, fun _ => rfl⟩
      · split at h
        · cases h
        · obtain ⟨can, -, h⟩ := Option.bind_eq_some_iff.1 h
          split at h
          · cases h
            exact ⟨.refl d, fun _ => rfl⟩
          · obtain ⟨⟨d₁, ok⟩, hread, h⟩ := Option.bind_eq_some_iff.1 h
            simp only at h
            split at h
            · cases h
            · obtain ⟨bytes, -, h⟩ := Option.bind_eq_some_iff.1 h
              obtain ⟨r, -, h⟩ := Option.bind_eq_some_iff.1 h
              cases h
              exact ⟨inodeReadBlock_same hread, fun _ => by rw [hcli]; rfl⟩
  case writeBlock => exact absurd htype hmsg
  case other =>
    cases h
    exact ⟨.refl d, fun _ => rfl⟩

/-- The node of a connection stays as it is. -/
theorem Conn.Sound.of_same {conn₁ : Conn} (hs : conn.Sound sb disk)
    (h : conn₁.progData.map ClientState.e2node = conn.progData.map ClientState.e2node) :
    conn₁.Sound sb disk := by
  intro cli₁ hcli₁ hisdir
  rw [hcli₁] at h
  obtain ⟨cli, hcli, he⟩ := Option.map_eq_some_iff.1 h.symm
  rw [← he] at hisdir ⊢
  exact hs cli hcli hisdir

/-! ## What clients do -/

/-- What a client does: it sends a request, or uses the ring. -/
inductive Act
  | request (msg : Message)
  | write (bytes : List UInt8)
  | read (size : ℕ)
  | canRead (size : ℕ)
  | empty

/-- What the client gets. -/
inductive Answer
  | replies (l : List Reply)
  | count (n : ℕ)
  | bytes (l : List UInt8)
  | flag (b : Bool)

/-- What happens on a connection; `stack` is what is on the stack of the server before. -/
def Act.run (sb : Superblock) (stack : ℕ → UInt8) (d : Device) (conn : Conn) :
    Act → Option (Device × Conn × Answer)
  | .request msg => do
    let (d, conn, replies) ← ext2Server sb stack d conn msg
    return (d, conn, .replies replies)
  | .write bytes => do
    let (ring, n) ← c4RingbufWrite conn.ring bytes
    return (d, { conn with ring := ring }, .count n)
  | .read size => do
    let (ring, bytes) ← c4RingbufRead conn.ring size
    return (d, { conn with ring := ring }, .bytes bytes)
  | .canRead size => do
    let can ← c4RingbufCanRead conn.ring size
    return (d, conn, .flag can)
  | .empty => some (d, conn, .flag (c4RingbufEmpty conn.ring))

/-- A client asks for no write. -/
def Act.Calm : Act → Prop
  | .request msg => msg.type ≠ .writeBlock
  | _ => True

/-- A client lists a directory only, and asks for bytes of one block only. -/
def Act.Proper (sb : Superblock) (conn : Conn) : Act → Prop
  | .request msg =>
    match msg.type with
    | .listDir => ∀ cli, conn.progData = some cli → ext2IsDirectory cli.e2node = true
    | .readBlock => ∀ cli, conn.progData = some cli → Fits sb cli.e2node cli.index
    | _ => True
  | _ => True

/-- The results of the same act on two connections that look the same. -/
structure Acted (sb : Superblock) (disk : ℕ → UInt8) (r r' : Device × Conn × Answer) : Prop where
  device : r.1.OnDisk disk
  device' : r'.1.OnDisk disk
  conn : r.2.1.Alike r'.2.1
  sound : r.2.1.Sound sb disk
  answer : r.2.2 = r'.2.2

section Acts

variable {act : Act}

/-- An act that writes nothing leaves the server as it is to be. -/
theorem Act.Calm.keeps {conn₁ : Conn} {answer : Answer} (hcalm : act.Calm) (hv : Volume sb disk)
    (hd : d.OnDisk disk) (hs : conn.Sound sb disk)
    (h : act.run sb stack d conn = some (d', conn₁, answer)) :
    d'.OnDisk disk ∧ conn₁.Sound sb disk := by
  cases act with
  | request msg =>
    obtain ⟨⟨d₁, conn₂, replies⟩, hrun, h⟩ := Option.bind_eq_some_iff.1 h
    cases h
    obtain ⟨hsame, hnode⟩ := ext2Server_same hcalm hrun
    refine ⟨hd.same hsame, ?_⟩
    by_cases htype : msg.type = .setNode
    · have halike := handleSetNode_alike hv hd hd (.refl conn) hs (msg.data 0)
      simp only [ext2Server, htype] at hrun
      rw [hrun] at halike
      cases halike with
      | some halike => exact halike.sound
    · exact hs.of_same (hnode htype)
  | write bytes =>
    obtain ⟨r, -, h⟩ := Option.bind_eq_some_iff.1 h
    cases h
    exact ⟨hd, hs⟩
  | read size =>
    obtain ⟨r, -, h⟩ := Option.bind_eq_some_iff.1 h
    cases h
    exact ⟨hd, hs⟩
  | canRead size =>
    obtain ⟨r, -, h⟩ := Option.bind_eq_some_iff.1 h
    cases h
    exact ⟨hd, hs⟩
  | empty =>
    cases h
    exact ⟨hd, hs⟩

theorem Conn.Alike.symm (hc : conn.Alike conn') : conn'.Alike conn := by
  refine ⟨hc.ring.symm, ?_⟩
  rcases hc.cases with ⟨hnone, hnone'⟩ | ⟨cli, cli', hcli, hcli', halike⟩
  · rw [hnone, hnone']
    exact .none
  · rw [hcli, hcli']
    exact .some ⟨halike.fsnode.symm, halike.e2node.symm, halike.index.symm⟩

theorem Conn.Alike.trans {conn'' : Conn} (hc : conn.Alike conn') (hc' : conn'.Alike conn'') :
    conn.Alike conn'' := by
  refine ⟨hc.ring.trans hc'.ring, ?_⟩
  rcases hc.cases with ⟨hnone, hnone'⟩ | ⟨cli, cli', hcli, hcli', halike⟩
  · rcases hc'.cases with ⟨-, hnone''⟩ | ⟨cli', cli'', hcli', -⟩
    · rw [hnone, hnone'']
      exact .none
    · cases hnone'.symm.trans hcli'
  · rcases hc'.cases with ⟨hnone', -⟩ | ⟨cli₁, cli'', hcli₁, hcli'', halike'⟩
    · cases hnone'.symm.trans hcli'
    · cases hcli'.symm.trans hcli₁
      rw [hcli, hcli'']
      exact .some ⟨halike.fsnode.trans halike'.fsnode, halike.e2node.trans halike'.e2node,
        halike.index.trans halike'.index⟩

theorem Act.Proper.alike (hp : act.Proper sb conn) (hc : conn.Alike conn') :
    act.Proper sb conn' := by
  cases act with
  | request msg =>
    have hcli {cli' : ClientState} (h : conn'.progData = some cli') :
        ∃ cli, conn.progData = some cli ∧ cli.Alike cli' := by
      rcases hc.cases with ⟨-, hnone⟩ | ⟨cli, cli₁, hcli, hcli₁, halike⟩
      · cases hnone.symm.trans h
      · cases hcli₁.symm.trans h
        exact ⟨cli, hcli, halike⟩
    simp only [Act.Proper] at hp ⊢
    cases htype : msg.type <;> simp only [htype] at hp ⊢
    case listDir =>
      intro cli' h
      obtain ⟨cli, hcli, halike⟩ := hcli h
      rw [← halike.e2node.isDirectory_eq]
      exact hp cli hcli
    case readBlock =>
      intro cli' h
      obtain ⟨cli, hcli, halike⟩ := hcli h
      rw [Fits, ← halike.e2node.lowerSize_eq, ← halike.index]
      exact hp cli hcli
  | write bytes => trivial
  | read size => trivial
  | canRead size => trivial
  | empty => trivial

/-- **What a client gets** depends on what it sees of the server only. -/
theorem Act.run_alike (stack : ℕ → UInt8) (hv : Volume sb disk) (hd : d.OnDisk disk)
    (hd' : d'.OnDisk disk) (hc : conn.Alike conn') (hs : conn.Sound sb disk) (hcalm : act.Calm)
    (hp : act.Proper sb conn) :
    Option.Rel (Acted sb disk) (act.run sb stack d conn) (act.run sb stack d' conn') := by
  have hlift {x x' : Result} (h : Option.Rel (Results sb disk) x x') : Option.Rel (Acted sb disk)
      (do let (d, conn, replies) ← x; return (d, conn, .replies replies))
      (do let (d, conn, replies) ← x'; return (d, conn, .replies replies)) := by
    cases h with
    | none => exact .none
    | some h =>
      exact .some ⟨h.device, h.device', h.conn, h.sound, congrArg Answer.replies h.replies⟩
  have hring (ring : C4Ringbuf) (answer : Answer) : Acted sb disk
      (d, { conn with ring := ring }, answer) (d', { conn' with ring := ring }, answer) :=
    ⟨hd, hd', ⟨rfl, hc.progData⟩, hs, rfl⟩
  cases act with
  | request msg =>
    simp only [Act.run]
    refine hlift ?_
    simp only [Act.Proper] at hp
    simp only [ext2Server]
    cases htype : msg.type <;> simp only [htype] at hp ⊢
    case setNode => exact handleSetNode_alike hv hd hd' hc hs _
    case findName =>
      have hfind := handleFindName_alike hv hd hd' hc hs stack (msg.data 0)
      revert hfind
      generalize handleFindName sb stack d conn (msg.data 0) = x
      generalize handleFindName sb stack d' conn' (msg.data 0) = x'
      rintro (h | _)
      · exact .some h
      · exact .none
    case getRootDir => exact handleGetRootdir_alike hv hd hd' hc hs
    case getNodeInfo => exact handleGetNodeInfo_alike hv hd hd' hc hs _
    case listDir => exact handleListDir_alike hv hd hd' hc hs hp
    case readBlock => exact handleReadBlock_alike hv hd hd' hc hs hp
    case writeBlock => exact absurd htype hcalm
    case other => exact .some ⟨hd, hd', hc, hs, rfl⟩
  | write bytes =>
    simp only [Act.run, ← hc.ring]
    cases c4RingbufWrite conn.ring bytes with
    | none => exact .none
    | some r => exact .some (hring r.1 _)
  | read size =>
    simp only [Act.run, ← hc.ring]
    cases c4RingbufRead conn.ring size with
    | none => exact .none
    | some r => exact .some (hring r.1 _)
  | canRead size =>
    simp only [Act.run, ← hc.ring]
    cases c4RingbufCanRead conn.ring size with
    | none => exact .none
    | some can => exact .some ⟨hd, hd', hc, hs, rfl⟩
  | empty =>
    simp only [Act.run, ← hc.ring]
    exact .some ⟨hd, hd', hc, hs, rfl⟩

end Acts

/-! ## Many clients -/

/-- A turn of a client: what it does, and what it gets. -/
structure Turn where
  client : ℕ
  stack : ℕ → UInt8
  act : Act
  answer : Answer

/-- A turn of a client with its connection. -/
def TakesTurn (sb : Superblock) (x : Server) (t : Turn) (y : Server) : Prop :=
  ∃ d conn, t.act.run sb t.stack x.dev (x.conns t.client) = some (d, conn, t.answer) ∧
    y = ⟨d, Function.update x.conns t.client conn⟩

theorem takesTurn_determined (sb : Superblock) : Determined (TakesTurn sb) := by
  rintro x t y z ⟨d, conn, hrun, rfl⟩ ⟨d', conn', hrun', rfl⟩
  rw [hrun] at hrun'
  cases hrun'
  rfl

/-- A server of a volume. -/
structure Server.OfVolume (sb : Superblock) (disk : ℕ → UInt8) (x : Server) : Prop where
  device : x.dev.OnDisk disk
  sound : ∀ c, (x.conns c).Sound sb disk

/-- The server of a disk, with clients that have just connected. -/
theorem start_ofVolume (sb : Superblock) (disk : ℕ → UInt8) :
    (Server.start disk).OfVolume sb disk where
  device := ⟨System.connect_disk disk, System.connect_working disk⟩
  sound c cli hcli := by
    cases hcli

theorem Server.OfVolume.update {x : Server} {c : ℕ} (hx : x.OfVolume sb disk) (hd : d.OnDisk disk)
    (hs : conn.Sound sb disk) : (⟨d, Function.update x.conns c conn⟩ : Server).OfVolume sb disk := by
  refine ⟨hd, fun c' => ?_⟩
  by_cases hc : c' = c
  · subst hc
    simpa only [Function.update_self] using hs
  · simpa only [Function.update_of_ne hc] using hx.sound c'

/-- A turn leaves the connections of other clients as they are. -/
theorem TakesTurn.conns_eq {x y : Server} {t : Turn} {c : ℕ} (h : TakesTurn sb x t y)
    (hc : t.client ≠ c) : y.conns c = x.conns c := by
  obtain ⟨d, conn, -, rfl⟩ := h
  exact Function.update_of_ne (Ne.symm hc) _ _

/-- **The clients of a server do not disturb each other.** -/
theorem separated (hv : Volume sb disk) :
    Separated (TakesTurn sb) Turn.client (Server.OfVolume sb disk) (fun t => t.act.Calm)
      (fun x t => t.act.Proper sb (x.conns t.client))
      (fun c x y => (x.conns c).Alike (y.conns c)) where
  equivalence c := ⟨fun x => .refl _, Conn.Alike.symm, Conn.Alike.trans⟩
  keeps := by
    rintro x t y hx hcalm ⟨d, conn, hrun, rfl⟩
    obtain ⟨hd, hs⟩ := hcalm.keeps hv hx.device (hx.sound t.client) hrun
    exact hx.update hd hs
  other := by
    intro x t y c _ _ hturn hc
    rw [hturn.conns_eq hc]
    exact .refl _
  ok_of_same _ _ hsame hp := hp.alike hsame
  own := by
    rintro x x' t y hx hx' hsame hcalm hp ⟨d, conn, hrun, rfl⟩
    have halike := Act.run_alike t.stack hv hx.device hx'.device hsame (hx.sound t.client) hcalm hp
    rw [hrun] at halike
    generalize hrun' : t.act.run sb t.stack x'.dev (x'.conns t.client) = r' at halike
    cases halike with
    | @some _ r' hacted =>
      obtain ⟨d', conn', answer⟩ := r'
      obtain rfl : t.answer = answer := hacted.answer
      refine ⟨_, ⟨d', conn', hrun', rfl⟩, ?_⟩
      simpa only [Function.update_self] using hacted.conn

/-- A client uses its connection as it is to be used, when it is alone. -/
def UsedProperly (sb : Superblock) (x : Server) (turns : List Turn) : Prop :=
  Allowed (TakesTurn sb) (fun x t => t.act.Proper sb (x.conns t.client)) x turns

section Requests

variable (hv : Volume sb disk) (hd : d.OnDisk disk) (conn : Conn) (stack : ℕ → UInt8)
  (msg : Message)

include hv hd

/-- A request for a node of the volume. -/
theorem setNode_run (htype : msg.type = .setNode) (hi : IsInode sb (msg.data 0)) :
    ∃ d₁ e, ext2Server sb stack d conn msg = some (d₁, ⟨conn.ring,
        some ⟨⟨msg.data 0, FileType.unknown.toNat, 0⟩, e, 0⟩⟩, [.completed []]) ∧
      d₁.OnDisk disk ∧ e.Agrees (inodeRecord sb disk (msg.data 0)) := by
  obtain ⟨rfl, hwork⟩ := hd
  refine ⟨fetchInode sb d (msg.data 0), _, ?_, ⟨rfl, hwork⟩, pageInode_agrees hv.laidOut⟩
  simp only [ext2Server, htype, handleSetNode]
  rw [ext2GetInode_eq hv.laidOut hwork hi (hv.located _ hi)]
  rfl

/-- A request for what is known of a node. -/
theorem getNodeInfo_run (htype : msg.type = .getNodeInfo) (hi : IsInode sb (msg.data 0)) :
    ∃ d₁, ext2Server sb stack d conn msg = some (d₁, conn,
        [.completed [(inodeRecord sb disk (msg.data 0)).lowerSize,
          (translateType (ext2InodeType (inodeRecord sb disk (msg.data 0)))).toNat]]) ∧
      d₁.OnDisk disk := by
  obtain ⟨rfl, hwork⟩ := hd
  have hagrees : (pageInode (fetchInode sb d (msg.data 0)) (inodeOffset sb (msg.data 0))).Agrees
      (inodeRecord sb d.disk (msg.data 0)) := pageInode_agrees hv.laidOut
  refine ⟨fetchInode sb d (msg.data 0), ?_, ⟨rfl, hwork⟩⟩
  rw [← hagrees.lowerSize_eq, ← hagrees.inodeType_eq]
  simp only [ext2Server, htype, handleGetNodeInfo]
  rw [ext2GetInode_eq hv.laidOut hwork hi (hv.located _ hi)]
  rfl

end Requests

/-! ## Two clients -/

/-- A small image whose directories have one block each. -/
theorem Volume.of_small (hl : LaidOut smallSuperblock disk)
    (hnear : ∀ i < 9, inodeTableBlock smallSuperblock disk i * 1024 < 2 ^ 32)
    (hdirs : ∀ i < 9, 0 < i → ext2IsDirectory (inodeRecord smallSuperblock disk i) = true →
      ∃ b es, (inodeRecord smallSuperblock disk i).lowerSize = 1024 ∧
        formatPath smallSuperblock disk (inodeRecord smallSuperblock disk i) 0 = [b] ∧
        0 < b ∧ b ≤ 64 ∧
        blockEntries 1024 (fun c => disk (blockStart smallSuperblock b + c)) 1025 0 = some es) :
    Volume smallSuperblock disk where
  laidOut := hl
  root := ⟨by decide, by decide⟩
  located inode hi := by
    obtain ⟨hpos, hle⟩ := hi
    change inode ≤ 8 at hle
    have hgroup : inodeGroup smallSuperblock inode = 0 := Nat.div_eq_of_lt (by
      show inode - 1 < 8
      omega)
    exact ⟨by rw [hgroup]; decide, hnear inode (by omega)⟩
  directory inode hi hisdir := by
    obtain ⟨hpos, hle⟩ := hi
    change inode ≤ 8 at hle
    obtain ⟨b, es, hsize, hpath, hb, hb', hes⟩ := hdirs inode (by omega) hpos hisdir
    refine ⟨[es], directory_of_single hsize hpath (Nat.ne_of_gt hb) hes, fun j hj => ?_⟩
    obtain rfl : j = 0 := Nat.lt_one_iff.1 hj
    have hpath' : ∀ b' ∈ formatPath smallSuperblock disk
        (inodeRecord smallSuperblock disk inode) 0, b' = b := fun b' hmem => by
      rw [hpath] at hmem
      exact List.mem_singleton.1 hmem
    refine (blockReadable_iff (by decide) fun b' hmem => ?_).2 ⟨Nat.succ_pos _, fun b' hmem => ?_⟩
    · rw [hpath' b' hmem]
      refine ⟨hb', ?_⟩
      show b * 1024 < 2 ^ 32
      omega
    · rw [hpath' b' hmem]
      exact hb

theorem dirDisk_volume : Volume smallSuperblock dirDisk := by
  refine .of_small dirDisk_wellFormed.toLaidOut (by decide +kernel) fun i hi hpos hisdir => ?_
  have hdirs : ∀ i < 9, 0 < i → ext2IsDirectory (inodeRecord smallSuperblock dirDisk i) = true →
      i = 1 ∨ i = 2 := by
    decide +kernel
  rcases hdirs i hi hpos hisdir with rfl | rfl
  · exact ⟨6, [⟨1, [0x2e], 2⟩, ⟨1, [0x2e, 0x2e], 2⟩], by decide +kernel⟩
  · exact ⟨7, dirDiskEntries, by decide +kernel⟩

/-- A request with one word. -/
def requestOf (type : FsMsg) (word : ℕ) : Act := .request ⟨type, fun _ => word⟩

/-- Two clients take turns: one lists the first directory, and the other looks at the second one and
at a file. -/
def dirDiskTurns : List Turn :=
  [⟨0, fun _ => 0, requestOf .setNode 1, .replies [.completed []]⟩,
    ⟨1, fun _ => 0, requestOf .setNode 2, .replies [.completed []]⟩,
    ⟨0, fun _ => 0, requestOf .listDir 0, .replies [.completed [2]]⟩,
    ⟨1, fun _ => 0, requestOf .getNodeInfo 3, .replies [.completed [0, 0]]⟩]

/-- The server with its first two requests handled. -/
theorem dirDisk_selected {x : Server} (hx : x.dev.OnDisk dirDisk) (c : ℕ) {inode : ℕ}
    (hi : IsInode smallSuperblock inode) : ∃ d e,
      TakesTurn smallSuperblock x ⟨c, fun _ => 0, requestOf .setNode inode, .replies [.completed []]⟩
        ⟨d, Function.update x.conns c
          ⟨(x.conns c).ring, some ⟨⟨inode, FileType.unknown.toNat, 0⟩, e, 0⟩⟩⟩ ∧
      d.OnDisk dirDisk ∧ e.Agrees (inodeRecord smallSuperblock dirDisk inode) := by
  obtain ⟨d, e, hrun, hd, he⟩ := setNode_run dirDisk_volume hx (x.conns c) (fun _ => 0)
    ⟨.setNode, fun _ => inode⟩ rfl hi
  exact ⟨d, e, ⟨d, _, run_bind hrun rfl, rfl⟩, hd, he⟩

end C4OS.Ext2
