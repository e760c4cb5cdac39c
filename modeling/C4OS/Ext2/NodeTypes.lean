import C4OS.Ext2.Names
import C4OS.Ext2.Records
import C4OS.Ext2.Requests

/-!
# The types of nodes

A node has its type twice on the disk: as a code in its directory entries, and in the upper bits of
the mode in its inode, with other numbers. `translate_type` knows the first ones. `handle_find_name`
and `handle_list_dir` call it with the code of an entry, but `handle_get_node_info` calls it with
the number from the mode. `types_agree_iff` says for which nodes the requests report the same type
all the same: for block devices and sockets, whose type has no number in the interface.
-/

namespace C4OS.Ext2

open Foundations Ringbuffer

variable {sb : Superblock} {byte : ℕ → UInt8} {d d' : Device} {conn : Conn} {e : Inode}
  {stack : ℕ → UInt8} {name : List UInt8} {blocks : List (List DirEntry)} {es : List DirEntry} {x : DirEntry}
  {ring : C4Ringbuf} {inode fuel i t : ℕ}

/-! ## The kinds of nodes -/

/-- The kinds of nodes of the format. -/
inductive NodeKind
  | fifo
  | charDevice
  | directory
  | blockDevice
  | regularFile
  | symlink
  | unixSocket

namespace NodeKind

/-- `EXT2_INODE_TYPE_…`. -/
def inodeType : NodeKind → ℕ
  | fifo => 0x1
  | charDevice => 0x2
  | directory => 0x4
  | blockDevice => 0x6
  | regularFile => 0x8
  | symlink => 0xa
  | unixSocket => 0xc

/-- `EXT2_DIRENT_TYPE_…`. -/
def direntType : NodeKind → ℕ
  | regularFile => 1
  | directory => 2
  | charDevice => 3
  | blockDevice => 4
  | fifo => 5
  | unixSocket => 6
  | symlink => 7

/-- The kinds whose two numbers are both unknown to `translate_type`. -/
def Unnamed (k : NodeKind) : Prop := k = .blockDevice ∨ k = .unixSocket

/-- **The two numbers of a kind are translated to the same type** for two kinds only. -/
theorem translateType_iff (k : NodeKind) :
    translateType k.direntType = translateType k.inodeType ↔ k.Unnamed := by
  rw [Unnamed]
  cases k <;> simp [translateType, direntType, inodeType]

theorem inodeType_inj {k k' : NodeKind} (h : k.inodeType = k'.inodeType) : k = k' := by
  cases k <;> cases k' <;> first | rfl | cases h

end NodeKind

/-- The type of an entry is that of its inode. -/
def TypeConsistent (sb : Superblock) (disk : ℕ → UInt8) (x : DirEntry) (k : NodeKind) : Prop :=
  x.type = k.direntType ∧ ext2InodeType (inodeRecord sb disk x.inode) = k.inodeType

theorem FileType.toNat_inj {a b : FileType} (h : a.toNat = b.toNat) : a = b := by
  cases a <;> cases b <;> first | rfl | cases h

theorem FileType.toNat_lt (a : FileType) : a.toNat < 2 ^ 32 := by
  cases a <;> decide

/-! ## A listing with what it sends -/

/-- An entry that is sent, with the bytes that are written into the ring. -/
structure Sent where
  ent : Dirent
  bytes : List UInt8

/-- The loop of `handle_list_dir`, with the entries that it sends. -/
def listLoopSent (sb : Superblock) (d : Device) :
    ℕ → C4Ringbuf → (ℕ → UInt8) → ℕ → ℕ → Option (C4Ringbuf × ℕ × List Sent)
  | 0, _, _, _, _ => none
  | fuel + 1, ring, name, i, sent =>
    if i < ext2BlockSize sb then do
      let ent ← d.loadDirent i
      let (ring, name, fits) ← sendDirent d ring i ent name
      let (ring, sent, list) ←
        listLoopSent sb d fuel ring name (i + ent.size) (if fits then sent + 1 else sent)
      let bytes :=
        fsDirentBytes name ent.nameLength ent.inode (translateType ent.type).toNat
      return (ring, sent, if fits then ⟨ent, bytes⟩ :: list else list)
    else
      return (ring, sent, [])

/-- `handle_list_dir`, with the entries that it sends. -/
def handleListDirSent (sb : Superblock) (stack : ℕ → UInt8) (d : Device) (conn : Conn) :
    Option (Device × Conn × List Reply × List Sent) :=
  match conn.progData with
  | none => some (d, conn, [.error .badRequest], [])
  | some cli =>
    if cli.index * ext2BlockSize sb % wordSize ≥ cli.e2node.lowerSize then
      some (d, conn, [.completed [0]], [])
    else do
      let (d, ok) ← ext2InodeReadBlock sb d cli.e2node cli.index
      if !ok then none
      else
        let (ring, sent, list) ←
          listLoopSent sb d (ext2BlockSize sb + 1) conn.ring stack 0 0
        let cli := { cli with index := (cli.index + 1) % wordSize }
        return (d, ⟨ring, some cli⟩, [.completed [sent]], list)

theorem map_listLoopSent (sb : Superblock) (d : Device) (fuel : ℕ) (ring : C4Ringbuf)
    (name : ℕ → UInt8) (i sent : ℕ) :
    (listLoopSent sb d fuel ring name i sent).map (fun r => (r.1, r.2.1)) =
      listLoop sb d fuel ring name i sent := by
  induction fuel generalizing ring name i sent with
  | zero => rfl
  | succ fuel ih =>
    rw [listLoopSent, listLoop]
    split
    · cases d.loadDirent i with
      | none => rfl
      | some ent =>
        simp only [Option.bind_eq_bind, Option.bind_some]
        cases sendDirent d ring i ent name with
        | none => rfl
        | some r =>
          obtain ⟨ring, name, fits⟩ := r
          simp only [Option.bind_some, ← ih]
          cases listLoopSent sb d fuel ring name (i + ent.size) _ <;> rfl
    · rfl

/-- What is sent is what the handler of the server sends. -/
theorem map_handleListDirSent (sb : Superblock) (stack : ℕ → UInt8) (d : Device) (conn : Conn) :
    (handleListDirSent sb stack d conn).map (fun r => (r.1, r.2.1, r.2.2.1)) =
      handleListDir sb stack d conn := by
  rw [handleListDirSent, handleListDir]
  cases conn.progData with
  | none => rfl
  | some cli =>
    dsimp only
    split
    · rfl
    · cases ext2InodeReadBlock sb d cli.e2node cli.index with
      | none => rfl
      | some r =>
        obtain ⟨d, ok⟩ := r
        cases ok with
        | false => rfl
        | true =>
          simp only [Option.bind_eq_bind, Option.bind_some, Bool.not_true, Bool.false_eq_true,
            if_false, ← map_listLoopSent]
          cases listLoopSent sb d (ext2BlockSize sb + 1) conn.ring stack 0 0 <;> rfl

/-- A turn of the loop. -/
theorem listLoopSent_cases {name : ℕ → UInt8} {sent : ℕ} {r : C4Ringbuf × ℕ × List Sent}
    (h : listLoopSent sb d (fuel + 1) ring name i sent = some r) :
    ext2BlockSize sb ≤ i ∧ r.2.2 = [] ∨ ∃ ent ring₁ name₁ sent₁ r₁, i < ext2BlockSize sb ∧
      d.loadDirent i = some ent ∧
      listLoopSent sb d fuel ring₁ name₁ (i + ent.size) sent₁ = some r₁ ∧ ∀ s ∈ r.2.2, s ∈ r₁.2.2 ∨
        s = ⟨ent, fsDirentBytes name₁ ent.nameLength ent.inode (translateType ent.type).toNat⟩ := by
  rw [listLoopSent] at h
  split at h
  · next hlt =>
    obtain ⟨ent, hload, h⟩ := Option.bind_eq_some_iff.1 h
    obtain ⟨⟨ring₁, name₁, fits⟩, -, h⟩ := Option.bind_eq_some_iff.1 h
    obtain ⟨r₁, hrest, h⟩ := Option.bind_eq_some_iff.1 h
    obtain rfl := Option.some.inj h
    refine .inr ⟨ent, ring₁, name₁, _, r₁, hlt, hload, hrest, fun s hs => ?_⟩
    cases fits with
    | false => exact .inl hs
    | true => exact (List.mem_cons.1 hs).symm
  · next hge =>
    obtain rfl := Option.some.inj h
    exact .inl ⟨Nat.le_of_not_lt hge, rfl⟩

/-- The fields of an entry in the page are no larger than their widths. -/
theorem loadDirent_lt {ent : Dirent} (h : d.loadDirent i = some ent) :
    ent.inode < 2 ^ 32 ∧ ent.nameLength < 256 := by
  by_cases hpage : i + 8 ≤ pageSize
  · obtain rfl := Option.some.inj ((loadDirent_eq hpage).symm.trans h)
    exact ⟨readLE_lt 4 _ _, readLE_lt 1 _ _⟩
  · cases (loadDirent_none hpage).symm.trans h

/-- What is sent of an entry is its inode and its type, translated. -/
theorem sent_bytes {name : ℕ → UInt8} {sent : ℕ} {r : C4Ringbuf × ℕ × List Sent}
    (h : listLoopSent sb d fuel ring name i sent = some r) : ∀ s ∈ r.2.2,
      (direntEntry s.bytes).inode = s.ent.inode ∧
        (direntEntry s.bytes).type = (translateType s.ent.type).toNat := by
  induction fuel generalizing ring name i sent r with
  | zero => cases h
  | succ fuel ih =>
    intro s hs
    rcases listLoopSent_cases h with ⟨-, hnil⟩ |
      ⟨ent, ring₁, name₁, sent₁, r₁, -, hload, hrest, hall⟩
    · rw [hnil] at hs
      cases hs
    · rcases hall s hs with hs | rfl
      · exact ih hrest s hs
      · obtain ⟨hinode, hname⟩ := loadDirent_lt hload
        rw [direntEntry_fsDirentBytes (Nat.le_of_lt hname) hinode (FileType.toNat_lt _)]
        exact ⟨rfl, rfl⟩

/-- What is sent of a block of a directory are its entries. -/
theorem sent_entries {name : ℕ → UInt8} {sent : ℕ} {r : C4Ringbuf × ℕ × List Sent}
    (hbs : ext2BlockSize sb ≤ pageSize) (hbuf : ∀ c < ext2BlockSize sb, d.buffer c = byte c)
    (hes : blockEntries (ext2BlockSize sb) byte fuel i = some es)
    (h : listLoopSent sb d fuel ring name i sent = some r) :
    ∀ s ∈ r.2.2, ∃ y ∈ es, y.inode = s.ent.inode ∧ y.type = s.ent.type := by
  induction fuel generalizing ring name i sent r es with
  | zero => cases h
  | succ fuel ih =>
    intro s hs
    rcases listLoopSent_cases h with ⟨-, hnil⟩ |
      ⟨ent, ring₁, name₁, sent₁, r₁, hlt, hload, hrest, hall⟩
    · rw [hnil] at hs
      cases hs
    · rcases blockEntries_cons hes with ⟨rfl, -⟩ | ⟨hoff, hname, hle, rest, hrest', rfl⟩
      · exact absurd hlt (Nat.lt_irrefl _)
      · obtain rfl := Option.some.inj ((loadDirent_eq (by omega)).symm.trans hload)
        have hread : ∀ {k a}, a + k ≤ i + 8 → readLE k d.buffer a = readLE k byte a :=
          fun ha => readLE_congr fun t ht => hbuf _ (by omega)
        rcases hall s hs with hs | rfl
        · have hsize : (pageDirent d i).size = readLE 2 byte (i + 4) := hread (by omega)
          rw [hsize] at hrest
          obtain ⟨y, hy, hfields⟩ := ih hrest' hrest s hs
          exact ⟨y, List.mem_cons_of_mem _ hy, hfields⟩
        · exact ⟨_, List.mem_cons_self, (hread (by omega)).symm, (hread (by omega)).symm⟩

/-! ## Reports -/

/-- A lookup of the name of an entry in its directory reports a type for the inode. -/
def FindReports (sb : Superblock) (d : Device) (e : Inode) (x : DirEntry) (t : ℕ) : Prop :=
  ∃ stack conn cli d' conn' compared, conn.progData = some cli ∧ cli.e2node = e ∧
    Holds ringSize conn.ring x.name ∧ handleFindName sb stack d conn x.name.length =
      some (d', conn', [.completed [x.inode, t, 0]], compared)

/-- A listing of the directory reports a type for the inode of an entry. -/
def ListReports (sb : Superblock) (d : Device) (e : Inode) (x : DirEntry) (t : ℕ) : Prop :=
  ∃ stack conn cli r, conn.progData = some cli ∧ cli.e2node = e ∧
    handleListDirSent sb stack d conn = some r ∧ ∃ s ∈ r.2.2.2,
      (direntEntry s.bytes).inode = x.inode ∧ (direntEntry s.bytes).type = t

/-- The information about a node reports a type. -/
def InfoReports (sb : Superblock) (d : Device) (inode t : ℕ) : Prop :=
  ∃ conn d' conn' size,
    handleGetNodeInfo sb d conn inode = some (d', conn', [.completed [size, t]])

/-- The requests report one type for an entry and its inode. -/
def TypesAgree (sb : Superblock) (d d' : Device) (e : Inode) (x : DirEntry) : Prop :=
  ∀ t t', FindReports sb d e x t ∨ ListReports sb d e x t → InfoReports sb d' x.inode t' → t = t'

/-- The code in the entry that a lookup or a listing takes for the one of the inode. -/
def EntryCode (sb : Superblock) (d : Device) (e : Inode) (x : DirEntry) (c : ℕ) : Prop :=
  (∃ r, LookupFinds sb d e x.name (some r) ∧ r.inode = x.inode ∧ r.type = c) ∨
    ∃ stack conn cli r, conn.progData = some cli ∧ cli.e2node = e ∧
      handleListDirSent sb stack d conn = some r ∧ ∃ s ∈ r.2.2.2,
        s.ent.inode = x.inode ∧ s.ent.type = c

/-- The number in the mode of the record that is taken for the one of an inode. -/
def NodeCode (sb : Superblock) (d : Device) (inode n : ℕ) : Prop :=
  ∃ d' off e, ext2GetInode sb d inode = some (d', some (off, e)) ∧ ext2InodeType e = n

theorem infoReports_iff :
    InfoReports sb d inode t ↔ ∃ n, NodeCode sb d inode n ∧ (translateType n).toNat = t := by
  constructor
  · rintro ⟨conn, d', conn', size, hrun⟩
    obtain ⟨⟨d₁, buf⟩, hget, hrun⟩ := Option.bind_eq_some_iff.1 hrun
    cases buf with
    | none => cases hrun
    | some buf =>
      obtain ⟨off, e⟩ := buf
      cases hrun
      exact ⟨_, ⟨_, off, e, hget, rfl⟩, rfl⟩
  · rintro ⟨n, ⟨d', off, e, hget, rfl⟩, rfl⟩
    exact ⟨⟨⟨0, 0, 0, 0, fun _ => 0⟩, none⟩, d', _, e.lowerSize, run_bind hget rfl⟩

/-- A list that is sent comes from the loop. -/
theorem handleListDirSent_loop {r : Device × Conn × List Reply × List Sent} {cli : ClientState}
    (hcli : conn.progData = some cli) (hrun : handleListDirSent sb stack d conn = some r) :
    r.2.2.2 = [] ∨ cli.index * ext2BlockSize sb % wordSize < cli.e2node.lowerSize ∧
      ∃ d' q, ext2InodeReadBlock sb d cli.e2node cli.index = some (d', true) ∧
        listLoopSent sb d' (ext2BlockSize sb + 1) conn.ring stack 0 0 = some q ∧
          q.2.2 = r.2.2.2 := by
  simp only [handleListDirSent, hcli] at hrun
  split at hrun
  · obtain rfl := Option.some.inj hrun
    exact .inl rfl
  · next hlt =>
    obtain ⟨⟨d', ok⟩, hread, hrun⟩ := Option.bind_eq_some_iff.1 hrun
    cases ok with
    | false => cases hrun
    | true =>
      obtain ⟨q, hloop, hrun⟩ := Option.bind_eq_some_iff.1 hrun
      obtain rfl := Option.some.inj hrun
      exact .inr ⟨Nat.lt_of_not_le hlt, d', q, hread, hloop, rfl⟩

/-- A name that is looked up. -/
theorem exists_holds {name : List UInt8} (hlen : name.length < fsMaxNameLen) :
    ∃ ring, Holds ringSize ring name := by
  have hroom : ([] : List UInt8).length + name.length < ringSize := by
    have hlen' : name.length < 256 := hlen
    show 0 + name.length < 4084
    omega
  obtain ⟨ring, -, hring, -⟩ := (System.connect_holds fun _ => 0).write hroom
  exact ⟨ring, hring⟩

/-- What a lookup reports is the translated code of the entry that it finds. -/
theorem findReports_iff (h : Geometry sb) (hd : d.Working) (hisdir : ext2IsDirectory e = true)
    (hlen : x.name.length < fsMaxNameLen) : FindReports sb d e x t ↔
      ∃ r, LookupFinds sb d e x.name (some r) ∧ r.inode = x.inode ∧
        (translateType r.type).toNat = t := by
  constructor
  · rintro ⟨stack, conn, cli, d', conn', compared, hcli, rfl, hring, hrun⟩
    obtain ⟨ring, heq⟩ := handleFindName_eq sb stack d hring hcli hisdir hlen
    obtain ⟨⟨d₁, r⟩, hfind, hret⟩ := Option.map_eq_some_iff.1 (heq.symm.trans hrun)
    have hreply := (List.cons.inj (Prod.mk.inj (Prod.mk.inj (Prod.mk.inj hret).2).2).1).1
    cases r with
    | none => cases hreply
    | some r =>
      obtain ⟨hinode, htype⟩ := List.cons.inj (Reply.completed.inj hreply)
      exact ⟨r, (exists_findInDir_eq_iff h hd).1 ⟨d₁, hfind⟩, hinode, (List.cons.inj htype).1⟩
  · rintro ⟨r, hfinds, hinode, rfl⟩
    obtain ⟨ring, hring⟩ := exists_holds hlen
    obtain ⟨d', hfind⟩ := (exists_findInDir_eq_iff h hd).2 hfinds
    have hcli : (⟨ring, some ⟨⟨0, 0, 0⟩, e, 0⟩⟩ : Conn).progData = some ⟨⟨0, 0, 0⟩, e, 0⟩ := rfl
    obtain ⟨ring', heq⟩ := handleFindName_eq sb (fun _ => 0) d hring hcli hisdir hlen
    refine ⟨fun _ => 0, ⟨ring, some ⟨⟨0, 0, 0⟩, e, 0⟩⟩, _, d', ⟨ring', some ⟨⟨0, 0, 0⟩, e, 0⟩⟩,
      some x.name, rfl, rfl, hring, ?_⟩
    rw [heq, hfind, ← hinode]
    rfl

/-- What a listing reports is the translated code of an entry that is sent. -/
theorem listReports_iff : ListReports sb d e x t ↔ ∃ stack conn cli r, conn.progData = some cli ∧
    cli.e2node = e ∧ handleListDirSent sb stack d conn = some r ∧ ∃ s ∈ r.2.2.2,
      s.ent.inode = x.inode ∧ (translateType s.ent.type).toNat = t := by
  have hsent : ∀ {stack conn cli r}, conn.progData = some cli →
      handleListDirSent sb stack d conn = some r → ∀ s ∈ r.2.2.2,
        (direntEntry s.bytes).inode = s.ent.inode ∧
          (direntEntry s.bytes).type = (translateType s.ent.type).toNat := by
    intro stack conn cli r hcli hrun s hs
    rcases handleListDirSent_loop hcli hrun with hnil | ⟨-, d', q, -, hloop, hq⟩
    · rw [hnil] at hs
      cases hs
    · exact sent_bytes hloop s (hq ▸ hs)
  constructor
  · rintro ⟨stack, conn, cli, r, hcli, he, hrun, s, hs, hinode, htype⟩
    obtain ⟨h₁, h₂⟩ := hsent hcli hrun s hs
    exact ⟨stack, conn, cli, r, hcli, he, hrun, s, hs, h₁ ▸ hinode, h₂ ▸ htype⟩
  · rintro ⟨stack, conn, cli, r, hcli, he, hrun, s, hs, hinode, htype⟩
    obtain ⟨h₁, h₂⟩ := hsent hcli hrun s hs
    exact ⟨stack, conn, cli, r, hcli, he, hrun, s, hs, h₁.trans hinode, h₂.trans htype⟩

/-- **The types agree just when the codes are translated to one.** -/
theorem typesAgree_iff_codes (h : Geometry sb) (hd : d.Working) (hisdir : ext2IsDirectory e = true)
    (hlen : x.name.length < fsMaxNameLen) : TypesAgree sb d d' e x ↔
      ∀ c n, EntryCode sb d e x c → NodeCode sb d' x.inode n →
        translateType c = translateType n := by
  constructor
  · intro hagree c n hc hn
    apply FileType.toNat_inj
    refine hagree _ _ ?_ (infoReports_iff.2 ⟨n, hn, rfl⟩)
    rcases hc with ⟨r, hfinds, hinode, rfl⟩ |
      ⟨stack, conn, cli, r, hcli, he, hrun, s, hs, hinode, rfl⟩
    · exact .inl ((findReports_iff h hd hisdir hlen).2 ⟨r, hfinds, hinode, rfl⟩)
    · exact .inr (listReports_iff.2 ⟨stack, conn, cli, r, hcli, he, hrun, s, hs, hinode, rfl⟩)
  · intro hcodes t t' ht ht'
    obtain ⟨n, hn, rfl⟩ := infoReports_iff.1 ht'
    rcases ht with ht | ht
    · obtain ⟨r, hfinds, hinode, rfl⟩ := (findReports_iff h hd hisdir hlen).1 ht
      rw [hcodes _ n (.inl ⟨r, hfinds, hinode, rfl⟩) hn]
    · obtain ⟨stack, conn, cli, r, hcli, he, hrun, s, hs, hinode, rfl⟩ := listReports_iff.1 ht
      rw [hcodes _ n (.inr ⟨stack, conn, cli, r, hcli, he, hrun, s, hs, hinode, rfl⟩) hn]

/-! ## Nodes that are read right -/

/-- The blocks of a directory that are there for the code are read right. The others, for example
those behind the first table of pointers, are never read. -/
def EntriesRead (sb : Superblock) (disk : ℕ → UInt8) (e : Inode) (blocks : List (List DirEntry)) :
    Prop :=
  ∀ j < blocks.length, Mapped sb disk e j → BlockReadable sb disk e j

/-- The blocks of a directory in the first 4 GiB that are there are read right. -/
theorem entriesRead_of_near {disk : ℕ → UInt8} (h : Geometry sb)
    (hdir : Directory sb disk e blocks)
    (hin : ∀ j < blocks.length, ∀ b ∈ formatPath sb disk e j, b ≤ sb.totalBlocks ∧ Near sb b) :
    EntriesRead sb disk e blocks := fun j hj hm =>
  (blockReadable_iff h.blockSize (hin j hj)).2
    ⟨hm.lt, fun _ => pos_of_formatMap hm.lt (hdir.formatMap_pos h hj)⟩

/-- A listing is that of a block of the directory. -/
theorem EntriesRead.listed {r : Device × Conn × List Reply × List Sent} {cli : ClientState}
    (hr : EntriesRead sb d.disk cli.e2node blocks) (h : Geometry sb) (hd : d.Working)
    (hdir : Directory sb d.disk cli.e2node blocks) (hcli : conn.progData = some cli)
    (hrun : handleListDirSent sb stack d conn = some r) :
    ∀ s ∈ r.2.2.2, ∃ y ∈ blocks.flatten, y.inode = s.ent.inode ∧ y.type = s.ent.type := by
  intro s hs
  rcases handleListDirSent_loop hcli hrun with hnil | ⟨hlt, d', q, hread, hloop, hq⟩
  · rw [hnil] at hs
    cases hs
  · have hm : Mapped sb d.disk cli.e2node cli.index := by
      by_contra hm
      exact ext2InodeReadBlock_not_mapped h hd hm hread
    rw [Nat.mod_eq_of_lt (mul_blockSize_lt h (Nat.le_of_lt hm.lt))] at hlt
    have hj := (hdir.mul_lt h).1 hlt
    obtain ⟨d₁, hread', -, hbuffer⟩ := ext2InodeReadBlock_mapped h hd hm
    obtain rfl := congrArg Prod.fst (Option.some.inj (hread.symm.trans hread'))
    have hbuf : ∀ c < ext2BlockSize sb,
        d'.buffer c = formatByte sb d.disk cli.e2node cli.index c := by
      intro c hc
      rw [hbuffer]
      exact (if_pos hc).trans ((hr _ hj hm).bytes c hc)
    obtain ⟨y, hy, hfields⟩ :=
      sent_entries (ext2BlockSize_le h.blockSize) hbuf (hdir.entries _ hj) hloop s (hq ▸ hs)
    exact ⟨y, List.mem_flatten.2 ⟨_, List.getElem_mem hj, hy⟩, hfields⟩

/-- What a search finds is an entry of a block of the directory. -/
theorem EntriesRead.found {ent : Dirent} (hr : EntriesRead sb d.disk e blocks) (h : Geometry sb)
    (hdir : Directory sb d.disk e blocks) (hfinds : LookupFinds sb d e name (some ent)) :
    ∃ y ∈ blocks.flatten, y.inode = ent.inode ∧ translateType y.type = translateType ent.type := by
  obtain ⟨j, -, hlt, hm, hin⟩ := hfinds
  have hj := (hdir.mul_lt h).1 hlt
  obtain ⟨r, hin', hreply⟩ := (hr j hj hm).exists_inBlock h.blockSize hdir hj name
  obtain rfl := hin'.unique hin
  cases hfirst : firstNamed name blocks[j] with
  | none =>
    rw [hfirst] at hreply
    cases hreply
  | some y =>
    rw [hfirst] at hreply
    obtain ⟨hsame, htype⟩ := List.cons.inj (Reply.completed.inj hreply)
    have hy := List.mem_of_find?_eq_some hfirst
    exact ⟨y, List.mem_flatten.2 ⟨_, List.getElem_mem hj, hy⟩, hsame.symm,
      (FileType.toNat_inj (List.cons.inj htype).1).symm⟩

/-- The type that is taken for the one of an inode is that of an entry for it. -/
theorem EntriesRead.entryCode {c : ℕ} (hr : EntriesRead sb d.disk e blocks) (h : Geometry sb)
    (hd : d.Working) (hdir : Directory sb d.disk e blocks) (hc : EntryCode sb d e x c) :
    ∃ y ∈ blocks.flatten, y.inode = x.inode ∧ translateType y.type = translateType c := by
  rcases hc with ⟨r, hfinds, hinode, rfl⟩ |
    ⟨stack, conn, cli, r, hcli, rfl, hrun, s, hs, hinode, rfl⟩
  · obtain ⟨y, hy, hsame, htype⟩ := hr.found h hdir hfinds
    exact ⟨y, hy, hsame.trans hinode, htype⟩
  · obtain ⟨y, hy, hsame, htype⟩ := hr.listed h hd hdir hcli hrun s hs
    exact ⟨y, hy, hsame.trans hinode, congrArg translateType htype⟩

/-- The record that is found has the number of the inode. -/
theorem RecordFound.nodeCode_iff {n : ℕ} (hf : RecordFound sb d inode) (h : Geometry sb)
    (hi : IsInode sb inode) :
    NodeCode sb d inode n ↔ ext2InodeType (inodeRecord sb d.disk inode) = n := by
  have hmodes : ext2InodeType (pageInode (fetchRecord sb d inode) (inodeOffset sb inode)) =
      ext2InodeType (inodeRecord sb d.disk inode) :=
    congrArg (· / 2 ^ 12) (readLE_congr fun i hi => hf.agrees h (0 + i) (by
      show 0 + i < 120
      omega))
  have hrun := hf.ext2GetInode h hi
  constructor
  · rintro ⟨d', off, e, hget, rfl⟩
    cases hrun.symm.trans hget
    exact hmodes.symm
  · rintro rfl
    exact ⟨_, _, _, hrun, hmodes⟩

/-- The entries of a block are records in it. -/
theorem exists_entryAt (hes : blockEntries (ext2BlockSize sb) byte fuel i = some es)
    (hx : x ∈ es) : ∃ off, x = entryAt byte off := by
  induction fuel generalizing i es with
  | zero => cases hes
  | succ fuel ih =>
    rcases blockEntries_cons hes with ⟨-, rfl⟩ | ⟨-, -, -, rest, hrest, rfl⟩
    · cases hx
    · rcases List.mem_cons.1 hx with rfl | hx
      · exact ⟨i, rfl⟩
      · exact ih hrest hx

/-- The names in a directory are short. -/
theorem Directory.length_lt {disk : ℕ → UInt8} (hdir : Directory sb disk e blocks)
    (hx : x ∈ blocks.flatten) : x.name.length < fsMaxNameLen := by
  obtain ⟨es, hmem, hx⟩ := List.mem_flatten.1 hx
  obtain ⟨j, hj, rfl⟩ := List.mem_iff_getElem.1 hmem
  obtain ⟨off, rfl⟩ := exists_entryAt (hdir.entries j hj) hx
  rw [entryAt, List.length_map, List.length_range]
  exact readLE_lt 1 _ _

/-- When the requests report one type: where the blocks of the directory that are there and the
record of the inode are read right, the kind of the node is unnamed, unless nothing is reported;
elsewhere the bytes that are read in their place have the same type. -/
def TypesFit (sb : Superblock) (d d' : Device) (e : Inode) (blocks : List (List DirEntry))
    (x : DirEntry) (k : NodeKind) : Prop :=
  (EntriesRead sb d.disk e blocks ∧ RecordFound sb d' x.inode →
    (∃ c, EntryCode sb d e x c) → k.Unnamed) ∧
  (¬ (EntriesRead sb d.disk e blocks ∧ RecordFound sb d' x.inode) →
    ∀ c n, EntryCode sb d e x c → NodeCode sb d' x.inode n → translateType c = translateType n)

/-! ## A directory -/

/-- The entries of the first directory of `dirDisk`. -/
def dotEntries : List (List DirEntry) := [[⟨1, [0x2e], 2⟩, ⟨1, [0x2e, 0x2e], 2⟩]]

theorem dirDisk_directory : Directory smallSuperblock (System.connect dirDisk).dev.disk
    (inodeRecord smallSuperblock dirDisk 1) dotEntries := by
  obtain ⟨hsize, -, hpath⟩ := dirDisk_first
  rw [System.connect_disk]
  exact directory_of_single hsize hpath (by decide) (by decide +kernel)

theorem dirDisk_consistent : ∀ y ∈ dotEntries.flatten, TypeConsistent smallSuperblock
    (System.connect dirDisk).dev.disk y .directory := by
  have hmode : ext2InodeType (inodeRecord smallSuperblock dirDisk 1) = 4 := by decide +kernel
  intro y hy
  rw [System.connect_disk]
  have hmem : y = ⟨1, [0x2e], 2⟩ ∨ y = ⟨1, [0x2e, 0x2e], 2⟩ := by simpa [dotEntries] using hy
  rcases hmem with rfl | rfl <;> exact ⟨rfl, hmode⟩

theorem dirDisk_recordFound : RecordFound smallSuperblock (System.connect dirDisk).dev 1 := by
  have hloc : Located smallSuperblock dirDisk 1 := by
    refine ⟨by decide, ?_⟩
    unfold Near
    decide +kernel
  rw [← System.connect_disk dirDisk] at hloc
  exact hloc.recordFound dirDisk_wellFormed.connect.toLaidOut (System.connect_working _)
    smallSuperblock_inode

theorem dirDisk_near : ∀ j < dotEntries.length, ∀ b ∈ formatPath smallSuperblock
    (System.connect dirDisk).dev.disk (inodeRecord smallSuperblock dirDisk 1) j,
      b ≤ smallSuperblock.totalBlocks ∧ Near smallSuperblock b := by
  intro j hj b hb
  obtain rfl : j = 0 := Nat.lt_one_iff.1 hj
  rw [System.connect_disk, dirDisk_first.2.2] at hb
  rw [List.mem_singleton.1 hb]
  exact ⟨by decide, by unfold Near; decide⟩

/-- The name `.` is found in the directory. -/
theorem dirDisk_entryCode : ∃ c, EntryCode smallSuperblock (System.connect dirDisk).dev
    (inodeRecord smallSuperblock dirDisk 1) ⟨1, [0x2e], 2⟩ c ∧ translateType c = .directory := by
  have h := dirDisk_wellFormed.connect.toLaidOut.geometry smallSuperblock_inode
  have hb := (blocksRead_iff h dirDisk_directory dirDisk_near [0x2e]).2 fun j hj _ =>
    Nat.lt_of_lt_of_le hj (Nat.le_add_left _ _)
  obtain ⟨r, hfinds, hreply⟩ := hb.exists_finds h dirDisk_directory
  have hfirst : firstNamed [0x2e] dotEntries.flatten = some ⟨1, [0x2e], 2⟩ := by decide
  rw [hfirst] at hreply
  cases r with
  | none => cases hreply
  | some r =>
    obtain ⟨hinode, htype⟩ := List.cons.inj (Reply.completed.inj hreply)
    exact ⟨r.type, .inl ⟨r, hfinds, hinode, rfl⟩, FileType.toNat_inj (List.cons.inj htype).1⟩

end C4OS.Ext2
