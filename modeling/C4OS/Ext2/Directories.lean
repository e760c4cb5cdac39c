import C4OS.Ext2.NodeTypes
import C4OS.Ext2.Scripts

/-!
# Listing a directory among other clients

The functions of `filesystem.h` with which a client goes over a directory, as programs. A record
that comes through the ring is that of an entry, and its name ends with a terminator
(`listDir_run`), so that a client can take it for a string. A client that goes over a directory of a
volume gets the entries one by one, and then nothing (`does_nextDirent`).
-/

namespace C4OS.Ext2

open Foundations Ringbuffer

variable {sb : Superblock} {disk byte : ℕ → UInt8} {d d' : Device} {e : Inode} {conn : Conn}
  {ring ring' : C4Ringbuf} {l r : List UInt8} {rs : List (List UInt8)} {es : List DirEntry}
  {blocks : List (List DirEntry)} {x : Server} {c fuel off i inode : ℕ}

/-! ## Terminators -/

/-- The name in a record ends with a terminator. -/
def Terminated (r : List UInt8) : Prop :=
  ∃ rest, r.take fsMaxNameLen = (direntEntry r).name ++ 0 :: rest

theorem fsDirentBytes_terminated {name : ℕ → UInt8} {nameLen inode type : ℕ} (hlen : nameLen < 256)
    (hinode : inode < 2 ^ 32) (htype : type < 2 ^ 32) (hname : name nameLen = 0) :
    Terminated (fsDirentBytes name nameLen inode type) := by
  rw [Terminated, direntEntry_fsDirentBytes (Nat.le_of_lt hlen) hinode htype]
  have hrange : List.range fsMaxNameLen =
      List.range nameLen ++ nameLen :: (List.range (255 - nameLen)).map (nameLen + 1 + ·) := by
    have hsplit : fsMaxNameLen = nameLen + (1 + (255 - nameLen)) := by
      show 256 = _
      omega
    rw [hsplit, List.range_add, List.range_add]
    simp [Nat.add_assoc]
  have htake : (fsDirentBytes name nameLen inode type).take fsMaxNameLen =
      (List.range fsMaxNameLen).map name := by
    rw [fsDirentBytes, List.take_left' (by rw [List.length_map, List.length_range])]
  rw [htake, hrange, List.map_append, List.map_cons, hname]
  exact ⟨_, rfl⟩

/-- What is sent of an entry, all of it unless the ring is full. -/
theorem sendDirent_piece {ent : Dirent} {name name' : ℕ → UInt8} {fits : Bool}
    (hent : d.loadDirent off = some ent) (hring : Holds ringSize ring l)
    (h : sendDirent d ring off ent name = some (ring', name', fits)) :
    fits = false ∧ Holds ringSize ring' l ∨
      fits = true ∧ ∃ p, Holds ringSize ring' (l ++ p) ∧ p.length ≤ fsDirentSize ∧
        (p.length = fsDirentSize → Terminated p) := by
  obtain ⟨hinode, hlen⟩ := loadDirent_lt hent
  obtain ⟨copied, hcopy, h⟩ := Option.bind_eq_some_iff.1 h
  obtain ⟨can, -, h⟩ := Option.bind_eq_some_iff.1 h
  cases can with
  | false =>
    cases h
    exact .inl ⟨rfl, hring⟩
  | true =>
    obtain ⟨⟨ring₁, n⟩, hwrite, h⟩ := Option.bind_eq_some_iff.1 h
    cases h
    obtain ⟨ring₂, hwrite', hring'⟩ := hring.write_take
      (fsDirentBytes name' ent.nameLength ent.inode (translateType ent.type).toNat)
    cases hwrite.symm.trans hwrite'
    refine .inr ⟨rfl, _, hring', ?_, fun hfull => ?_⟩
    · rw [List.length_take, length_fsDirentBytes]
      exact Nat.min_le_right ..
    · rw [List.length_take, length_fsDirentBytes] at hfull
      rw [List.take_of_length_le (by rw [length_fsDirentBytes]; omega)]
      refine fsDirentBytes_terminated hlen hinode (FileType.toNat_lt _) ?_
      obtain ⟨bytes, -, hcopy⟩ := Option.bind_eq_some_iff.1 hcopy
      cases hcopy
      have hmin : min ent.nameLength (fsMaxNameLen - 1) = ent.nameLength := Nat.min_eq_left (by
        show _ ≤ 255
        omega)
      simp only [hmin, Nat.lt_irrefl, if_false, if_true]

/-- What the loop over the entries of a block puts into the ring. -/
theorem listLoop_pieces {name : ℕ → UInt8} {sent n : ℕ} (hring : Holds ringSize ring l)
    (h : listLoop sb d fuel ring name off sent = some (ring', n)) : ∃ ps : List (List UInt8),
      Holds ringSize ring' (l ++ ps.flatten) ∧ n = sent + ps.length ∧
      ∀ p ∈ ps, p.length ≤ fsDirentSize ∧ (p.length = fsDirentSize → Terminated p) := by
  induction fuel generalizing ring l name off sent with
  | zero => cases h
  | succ fuel ih =>
    rw [listLoop] at h
    split at h
    · obtain ⟨ent, hent, h⟩ := Option.bind_eq_some_iff.1 h
      obtain ⟨⟨ring₁, name₁, fits⟩, hsend, h⟩ := Option.bind_eq_some_iff.1 h
      rcases sendDirent_piece hent hring hsend with ⟨rfl, hring₁⟩ | ⟨rfl, p, hring₁, hp⟩
      · exact ih hring₁ h
      · obtain ⟨ps, hring', hn, hps⟩ := ih hring₁ h
        refine ⟨p :: ps, ?_, ?_, List.forall_mem_cons.2 ⟨hp, hps⟩⟩
        · rwa [List.flatten_cons, ← List.append_assoc]
        · simp only [if_true] at hn
          rw [hn, List.length_cons]
          omega
    · cases h
      refine ⟨[], ?_, rfl, fun p hp => absurd hp List.not_mem_nil⟩
      rwa [List.flatten_nil, List.append_nil]

/-- Lists of at most `m` items each, with as many items as they can have. -/
theorem forall_length_eq {m : ℕ} {ps : List (List UInt8)} (h : ∀ p ∈ ps, p.length ≤ m)
    (hall : ps.flatten.length = m * ps.length) : ∀ p ∈ ps, p.length = m := by
  have hle : ∀ ps : List (List UInt8), (∀ p ∈ ps, p.length ≤ m) →
      ps.flatten.length ≤ m * ps.length := by
    intro ps
    induction ps with
    | nil => exact fun _ => Nat.le_refl 0
    | cons p ps ih =>
      intro h
      obtain ⟨hp, hps⟩ := List.forall_mem_cons.1 h
      have := ih hps
      rw [List.flatten_cons, List.length_append, List.length_cons, Nat.mul_succ]
      omega
  induction ps with
  | nil => exact fun p hp => absurd hp List.not_mem_nil
  | cons p ps ih =>
    obtain ⟨hp, hps⟩ := List.forall_mem_cons.1 h
    have hrest := hle ps hps
    rw [List.flatten_cons, List.length_append, List.length_cons, Nat.mul_succ] at hall
    exact List.forall_mem_cons.2 ⟨by omega, ih hps (by omega)⟩

/-- Whole records in the ring have terminators. -/
theorem listLoop_terminated {name : ℕ → UInt8} {sent : ℕ} (hring : Holds ringSize ring l)
    (h : listLoop sb d fuel ring name off sent = some (ring', sent + rs.length))
    (hring' : Holds ringSize ring' (l ++ rs.flatten)) (hrs : ∀ r ∈ rs, r.length = fsDirentSize) :
    ∀ r ∈ rs, Terminated r := by
  obtain ⟨ps, hps', hn, hps⟩ := listLoop_pieces hring h
  have hflat : ps.flatten = rs.flatten := List.append_cancel_left (hps'.2.symm.trans hring'.2)
  have hlen : ps.length = rs.length := by omega
  have hsum (rs : List (List UInt8)) (h : ∀ r ∈ rs, r.length = fsDirentSize) :
      rs.map List.length = List.replicate rs.length fsDirentSize := by
    rw [List.map_congr_left h, List.map_const']
  have hfull := forall_length_eq (fun p hp => (hps p hp).1) (by
    rw [hflat, hlen, List.length_flatten, hsum rs hrs, List.sum_replicate_nat, Nat.mul_comm])
  have heq : ps = rs := List.eq_iff_flatten_eq.2 ⟨hflat, by
    rw [hsum ps hfull, hsum rs hrs, hlen]⟩
  subst heq
  exact fun p hp => (hps p hp).2 (hfull p hp)

/-! ## The requests -/

section Requests

variable (hdir : Directory sb disk (inodeRecord sb disk inode) blocks) {fsnode : FsNode}
  (hcli : conn.progData = some ⟨fsnode, e, i⟩)
  (he : e.Agrees (inodeRecord sb disk inode)) (stack : ℕ → UInt8)

include hdir hcli he

/-- A request sends the entries of the next block. -/
theorem listDir_run (hv : Volume sb disk) (hd : d.OnDisk disk)
    (hread : ∀ j < blocks.length, BlockReadable sb disk (inodeRecord sb disk inode) j)
    (hring : Holds ringSize conn.ring []) (hi : i < blocks.length)
    (hroom : blocks[i].length ≤ recordRoom conn.ring.readIndex) :
    ∃ d₁ ring' rs, handleListDir sb stack d conn = some (d₁, ⟨ring', some ⟨fsnode, e, i + 1⟩⟩,
        [.completed [blocks[i].length]]) ∧ d₁.OnDisk disk ∧ Holds ringSize ring' rs.flatten ∧
      Records rs blocks[i] ∧ (∀ r ∈ rs, Terminated r) ∧ ring'.readIndex = conn.ring.readIndex := by
  have h := hv.geometry
  have hbs := ext2BlockSize_pos h.blockSize
  have hsize := lowerSize_lt e
  have hlt : i * ext2BlockSize sb < e.lowerSize := ((he.directory hdir).mul_lt h).2 hi
  have hmod : i * ext2BlockSize sb % wordSize = i * ext2BlockSize sb := Nat.mod_eq_of_lt (by
    show _ < 2 ^ 32
    omega)
  have hle := Nat.le_mul_of_pos_right i hbs
  have hindex : (i + 1) % wordSize = i + 1 := Nat.mod_eq_of_lt (by
    show _ < 2 ^ 32
    omega)
  have hblock := he.blockReadable (hread i hi)
  obtain ⟨-, d₁, hrun, hd₁, hbytes⟩ := (readBlock_cases h hd e i).resolve_right
    fun hnot => hnot.1 hblock.mapped
  have hbyte : ∀ c < ext2BlockSize sb, d₁.buffer c = formatByte sb disk e i c := fun c hc =>
    (hbytes c hc).trans (hblock.bytes c hc)
  obtain ⟨ring', rs, hloop, hring', hrs, hidx⟩ := listLoop_eq (d := d₁) (k := 0)
    (ext2BlockSize_le h.blockSize) hbyte 0 stack ((he.directory hdir).entries i hi) hring rfl
    (Nat.zero_le _) (.inl (by
      have := recordRoom_le conn.ring.readIndex
      omega))
  rw [Nat.sub_zero, List.take_of_length_le hroom] at hloop hrs
  have hlen : rs.length = blocks[i].length := by
    have := congrArg List.length hrs.entries
    rwa [List.length_map, List.length_map] at this
  refine ⟨d₁, ring', rs, ?_, hd₁, hring', hrs,
    listLoop_terminated hring (by rw [hlen]; exact hloop) hring' hrs.length, hidx⟩
  rw [handleListDir, hcli]
  simp only [hmod]
  rw [if_neg (Nat.not_le_of_lt hlt)]
  refine run_bind hrun ((if_neg (by simp)).trans (run_bind hloop ?_))
  simp only [hindex, Nat.zero_add]
  rfl

/-- At the end of the directory nothing is sent. -/
theorem listDir_end (hi : i = blocks.length) :
    handleListDir sb stack d conn = some (d, conn, [.completed [0]]) := by
  have hsize := lowerSize_lt e
  have hend : e.lowerSize = i * ext2BlockSize sb := hi ▸ (he.directory hdir).size
  have hmod : i * ext2BlockSize sb % wordSize = i * ext2BlockSize sb := Nat.mod_eq_of_lt (by
    show _ < 2 ^ 32
    omega)
  rw [handleListDir, hcli]
  simp only [hmod]
  exact if_pos hend.le

end Requests

/-! ## Acts of a client -/

/-- A word of a reply; the number of an error is the first one. -/
def Reply.word : Reply → ℕ → ℕ
  | .completed data, i => data.getD i 0
  | .error err, i => [err.toNat].getD i 0

namespace Scripts

/-- `c4_ringbuf_can_read`. -/
def ringbufCanRead (size : ℕ) : Prog Bool := do
  return (← Script.perform (.canRead size)).shown

/-- `c4_ringbuf_write`, of which no caller looks at the number of bytes. -/
def ringbufWrite (bytes : List UInt8) : Prog Unit := do
  let _ ← Script.perform (.write bytes)
  return ()

/-- `fs_list_dir`. -/
def fsListDir : Prog ℕ := do return (← call ⟨.listDir, fun _ => 0⟩).word 0

/-- `fs_next_dirent`: the bytes of the entry, or nothing when it returns `0`. -/
def fsNextDirent : Prog (Option (List UInt8)) := do
  if ← ringbufCanRead fsDirentSize then
    return some (← ringbufRead fsDirentSize)
  else
    let n ← fsListDir
    if n = 0 then return none
    else return some (← ringbufRead fsDirentSize)

/-- `fs_get_root_dir`. The assertions only print. -/
def fsGetRootDir : Prog FsNode := do
  let msg ← call ⟨.getRootDir, fun _ => 0⟩
  return ⟨msg.word 0, msg.word 1, msg.word 2⟩

/-- `fs_set_node`, of which no caller here looks at the result. -/
def fsSetNode (node : FsNode) : Prog Unit := do
  let _ ← call ⟨.setNode, fun i => [node.inode].getD i 0⟩
  return ()

/-- `fs_find_name`, with nothing for an error. -/
def fsFindName (name : List UInt8) : Prog (Option FsNode) := do
  ringbufWrite name
  let msg ← call ⟨.findName, fun i => [name.length].getD i 0⟩
  match msg with
  | .error _ => return none
  | .completed _ => return some ⟨msg.word 0, msg.word 1, msg.word 2⟩

/-- `fs_get_node_info`, with what is in `node` before and afterwards. -/
def fsGetNodeInfo (inode : ℕ) (node : FsNode) : Prog FsNode := do
  let msg ← call ⟨.getNodeInfo, fun i => [inode].getD i 0⟩
  match msg with
  | .error _ => return node
  | .completed _ => return ⟨inode, msg.word 1, msg.word 0⟩

end Scripts

/-- A look at the ring. -/
theorem does_canRead {size : ℕ} {can : Bool} {Q : Bool → Server → Prop}
    (hcan : c4RingbufCanRead (x.conns c).ring size = some can) (hQ : Q can x) :
    Does sb x c (Scripts.ringbufCanRead size) Q := by
  refine does_act (show (Act.canRead size).Proper sb (x.conns c) from trivial) fun stack =>
    ⟨x.dev, x.conns c, .flag can, run_bind hcan rfl, ?_⟩
  rw [Function.update_eq_self]
  exact hQ

/-- Bytes are taken out of the ring. -/
theorem does_read {size : ℕ} {bytes : List UInt8} {Q : List UInt8 → Server → Prop}
    (hread : c4RingbufRead (x.conns c).ring size = some (ring, bytes))
    (hQ : Q bytes (x.setRing c ring)) : Does sb x c (Scripts.ringbufRead size) Q :=
  does_act (show (Act.read size).Proper sb (x.conns c) from trivial) fun _ =>
    ⟨x.dev, _, .bytes bytes, run_bind hread rfl, hQ⟩

/-- Bytes are put into the ring. -/
theorem does_write {bytes : List UInt8} {n : ℕ} {Q : Unit → Server → Prop}
    (hwrite : c4RingbufWrite (x.conns c).ring bytes = some (ring, n))
    (hQ : Q () (x.setRing c ring)) : Does sb x c (Scripts.ringbufWrite bytes) Q :=
  does_act (show (Act.write bytes).Proper sb (x.conns c) from trivial) fun _ =>
    ⟨x.dev, _, .count n, run_bind hwrite rfl, hQ⟩

/-- A request with one reply, whatever is on the stack of the server. -/
theorem does_call {msg : Message} {Q : Reply → Server → Prop}
    (hproper : (Act.request msg).Proper sb (x.conns c)) (h : ∀ stack, ∃ d conn reply,
      ext2Server sb stack x.dev (x.conns c) msg = some (d, conn, [reply]) ∧
        Q reply ⟨d, Function.update x.conns c conn⟩) : Does sb x c (Scripts.call msg) Q := by
  refine does_act hproper fun stack => ?_
  obtain ⟨d, conn, reply, hrun, hQ⟩ := h stack
  exact ⟨d, conn, .replies [reply], run_bind hrun rfl, hQ⟩

section Nodes

variable (hv : Volume sb disk) (hx : x.OfVolume sb disk)

include hv hx

/-- A request that leaves the connections as they are. -/
theorem does_getRootDir : Does sb x c Scripts.fsGetRootDir fun node y =>
    node = ⟨2, FileType.directory.toNat, (inodeRecord sb disk 2).lowerSize⟩ ∧
      y.OfVolume sb disk ∧ y.conns = x.conns := by
  refine Achieves.bind (does_call (show (Act.request ⟨.getRootDir, fun _ => 0⟩).Proper sb
    (x.conns c) from trivial) fun stack => ?_)
  obtain ⟨hdisk, hwork⟩ := hx.device
  have hrecord : (pageInode (fetchInode sb x.dev 2) (inodeOffset sb 2)).Agrees
      (inodeRecord sb x.dev.disk 2) := pageInode_agrees (hdisk ▸ hv.laidOut)
  have hrun := ext2GetInode_eq (hdisk ▸ hv.laidOut) hwork hv.root (hdisk ▸ hv.located 2 hv.root)
  refine ⟨_, _, _, run_bind hrun rfl, Achieves.pure ⟨?_, ?_, Function.update_eq_self ..⟩⟩
  · rw [← hdisk, ← hrecord.lowerSize_eq]
    rfl
  · exact hx.update ⟨hdisk, hwork⟩ (hx.sound c)

/-- The information of a node of the volume. -/
theorem does_getNodeInfo (hi : IsInode sb inode) (node : FsNode) :
    Does sb x c (Scripts.fsGetNodeInfo inode node) fun r y =>
      r = ⟨inode, (translateType (ext2InodeType (inodeRecord sb disk inode))).toNat,
          (inodeRecord sb disk inode).lowerSize⟩ ∧ y.OfVolume sb disk ∧ y.conns = x.conns := by
  refine Achieves.bind (does_call (show (Act.request ⟨.getNodeInfo, _⟩).Proper sb
    (x.conns c) from trivial) fun stack => ?_)
  obtain ⟨d, hrun, hd⟩ := getNodeInfo_run hv hx.device (x.conns c) stack
    ⟨.getNodeInfo, fun i => [inode].getD i 0⟩ rfl hi
  exact ⟨d, _, _, hrun, Achieves.pure ⟨rfl, hx.update hd (hx.sound c), Function.update_eq_self ..⟩⟩

/-- A node of the volume is selected. -/
theorem does_setNode {node : FsNode} (hi : IsInode sb node.inode) :
    Does sb x c (Scripts.fsSetNode node) fun _ y => y.OfVolume sb disk ∧ ∃ fsnode e,
      y.conns c = ⟨(x.conns c).ring, some ⟨fsnode, e, 0⟩⟩ ∧
        e.Agrees (inodeRecord sb disk node.inode) := by
  refine Achieves.bind (does_call (show (Act.request ⟨.setNode, _⟩).Proper sb
    (x.conns c) from trivial) fun stack => ?_)
  obtain ⟨d, e, hrun, hd, he⟩ := setNode_run hv hx.device (x.conns c) stack
    ⟨.setNode, fun i => [node.inode].getD i 0⟩ rfl hi
  refine ⟨d, _, _, hrun, Achieves.pure ⟨hx.update hd ?_, _, e, Function.update_self .., he⟩⟩
  rintro cli hcli -
  cases hcli
  exact ⟨node.inode, hi, he⟩

end Nodes

/-! ## Going over a directory -/

/-- A client goes over a directory: the records of the entries `now` are in its ring, and the blocks
from the index `i` on follow. -/
structure Position (sb : Superblock) (disk : ℕ → UInt8) (inode : ℕ)
    (blocks : List (List DirEntry)) (x : Server) (c i : ℕ) (now : List DirEntry) : Prop where
  ofVolume : x.OfVolume sb disk
  client : ∃ fsnode e, (x.conns c).progData = some ⟨fsnode, e, i⟩ ∧
    e.Agrees (inodeRecord sb disk inode)
  le : i ≤ blocks.length
  ring : ∃ rs, Holds ringSize (x.conns c).ring rs.flatten ∧ Records rs now ∧
    ∀ r ∈ rs, Terminated r
  fit : EntriesFit (x.conns c).ring.writeIndex (blocks.drop i)

/-- The entries `es` of a directory are left for a client. -/
def Lists (sb : Superblock) (disk : ℕ → UInt8) (inode : ℕ) (blocks : List (List DirEntry))
    (x : Server) (c : ℕ) (es : List DirEntry) : Prop :=
  ∃ i now, Position sb disk inode blocks x c i now ∧ now.length ≤ 14 ∧
    es = now ++ (blocks.drop i).flatten

/-- What `fs_next_dirent` returns when some entries are left, and what holds of those after it. -/
def NextEntry (r : Option (List UInt8)) (left : List DirEntry → Prop) : List DirEntry → Prop
  | [] => r = none ∧ left []
  | en :: rest => ∃ bytes, r = some bytes ∧ direntEntry bytes = en.translate ∧ Terminated bytes ∧
      left rest

variable {now : List DirEntry} {en : DirEntry}

theorem Lists.ofVolume (h : Lists sb disk inode blocks x c es) : x.OfVolume sb disk := by
  obtain ⟨i, now, hpos, -⟩ := h
  exact hpos.ofVolume

/-- Another server with the same connections. -/
theorem Lists.congr {y : Server} (h : Lists sb disk inode blocks x c es) (hy : y.OfVolume sb disk)
    (hconns : y.conns = x.conns) : Lists sb disk inode blocks y c es := by
  obtain ⟨i, now, hpos, hfew, rfl⟩ := h
  refine ⟨i, now, ⟨hy, ?_, hpos.le, ?_, ?_⟩, hfew, rfl⟩
  · rw [hconns]
    exact hpos.client
  · rw [hconns]
    exact hpos.ring
  · rw [hconns]
    exact hpos.fit

/-- A client that has selected a directory begins with its first entry. -/
theorem Lists.start {fsnode : FsNode} (hx : x.OfVolume sb disk)
    (hcli : (x.conns c).progData = some ⟨fsnode, e, 0⟩) (he : e.Agrees (inodeRecord sb disk inode))
    (hring : Holds ringSize (x.conns c).ring [])
    (hfit : EntriesFit (x.conns c).ring.writeIndex blocks) :
    Lists sb disk inode blocks x c blocks.flatten :=
  ⟨0, [], ⟨hx, ⟨fsnode, e, hcli, he⟩, Nat.zero_le _,
    ⟨[], hring, .nil, fun _ h => absurd h List.not_mem_nil⟩, hfit⟩, Nat.zero_le _, rfl⟩

/-- A record is taken out of the ring. -/
theorem Position.does_record (h : Position sb disk inode blocks x c i (en :: now))
    (hfew : now.length ≤ 14) :
    Does sb x c (do return some (← Scripts.ringbufRead fsDirentSize)) fun r y =>
      ∃ bytes, r = some bytes ∧ direntEntry bytes = en.translate ∧ Terminated bytes ∧
        Lists sb disk inode blocks y c (now ++ (blocks.drop i).flatten) := by
  obtain ⟨hx, hcli, hle, ⟨rs, hring, hrs, hterm⟩, hfit⟩ := h
  obtain ⟨r, rs', rfl, hlen, hentry, hrs'⟩ := hrs.exists_cons
  obtain ⟨hr, hterm'⟩ := List.forall_mem_cons.1 hterm
  obtain ⟨ring', hread, hring', hindex⟩ := hring.read fsDirentSize
  rw [List.flatten_cons, List.take_left' hlen] at hread
  rw [List.flatten_cons, List.drop_left' hlen] at hring'
  have hset : (x.setRing c ring').conns c = { x.conns c with ring := ring' } :=
    Function.update_self ..
  refine Achieves.bind (does_read hread (Achieves.pure ⟨r, rfl, hentry, hr, i, now, ?_, hfew, rfl⟩))
  exact {
    ofVolume := hx.update hx.device (hx.sound c)
    client := by rw [hset]; exact hcli
    le := hle
    ring := by rw [hset]; exact ⟨rs', hring', hrs', hterm'⟩
    fit := by rw [hset]; exact hindex.symm ▸ hfit }

section Directory

variable (hv : Volume sb disk)
  (hisdir : ext2IsDirectory (inodeRecord sb disk inode) = true)
  (hdir : Directory sb disk (inodeRecord sb disk inode) blocks)
  (hread : ∀ j < blocks.length, BlockReadable sb disk (inodeRecord sb disk inode) j)

include hisdir in
/-- A client with a directory lists it properly. -/
theorem Position.proper (h : Position sb disk inode blocks x c i now) :
    (Act.request ⟨.listDir, fun _ => 0⟩).Proper sb (x.conns c) := by
  obtain ⟨fsnode, e, hcli, he⟩ := h.client
  intro cli hcli'
  cases hcli.symm.trans hcli'
  exact he.isDirectory_eq.trans hisdir

include hv hisdir hdir hread in
/-- The next block is requested. -/
theorem Position.does_listDir (h : Position sb disk inode blocks x c i [])
    (hi : i < blocks.length) : Does sb x c Scripts.fsListDir fun n y => n = blocks[i].length ∧
      Position sb disk inode blocks y c (i + 1) blocks[i] := by
  obtain ⟨fsnode, e, hcli, he⟩ := h.client
  obtain ⟨rs, hring, hrs, -⟩ := h.ring
  obtain rfl : rs = [] := List.map_eq_nil_iff.1 hrs.entries
  rw [List.flatten_nil] at hring
  have hstart : (x.conns c).ring.writeIndex = (x.conns c).ring.readIndex := by
    rw [hring.writeIndex_eq, List.length_nil, Nat.add_zero, Nat.mod_eq_of_lt hring.1.read_lt]
  have hfit := h.fit
  rw [hstart, List.drop_eq_getElem_cons hi] at hfit
  refine Achieves.bind (does_call (h.proper hisdir) fun stack => ?_)
  obtain ⟨d, ring', rs', hrun, hd, hring', hrs', hterm, hindex⟩ :=
    listDir_run hdir hcli he stack hv h.ofVolume.device hread hring hi hfit.1
  refine ⟨d, _, _, hrun, Achieves.pure ⟨rfl, ?_⟩⟩
  have hend : ring'.writeIndex = ((x.conns c).ring.readIndex + fsDirentSize * blocks[i].length) %
      ringSize := by
    rw [hring'.writeIndex_eq, hindex, hrs'.length_flatten]
  refine ⟨h.ofVolume.update hd ?_, ?_, hi, ?_, ?_⟩
  · intro cli hcli' hisdir'
    cases hcli'
    exact h.ofVolume.sound c ⟨fsnode, e, i⟩ hcli hisdir'
  · simp only [Function.update_self]
    exact ⟨fsnode, e, rfl, he⟩
  · simp only [Function.update_self]
    exact ⟨rs', hring', hrs', hterm⟩
  · simp only [Function.update_self]
    exact hend ▸ hfit.2

include hisdir hdir in
/-- At the end of the directory there is no block to request. -/
theorem Position.does_listDir_end (h : Position sb disk inode blocks x c blocks.length []) :
    Does sb x c Scripts.fsListDir fun n y => n = 0 ∧
      Position sb disk inode blocks y c blocks.length [] := by
  obtain ⟨fsnode, e, hcli, he⟩ := h.client
  refine Achieves.bind (does_call (h.proper hisdir) fun stack =>
    ⟨x.dev, x.conns c, _, listDir_end hdir hcli he stack rfl, Achieves.pure ⟨rfl, ?_⟩⟩)
  rw [Function.update_eq_self]
  exact h

include hv hisdir hdir hread in
/-- **`fs_next_dirent` returns the next entry**, and nothing when there is none left. -/
theorem does_nextDirent (h : Lists sb disk inode blocks x c es) :
    Does sb x c Scripts.fsNextDirent fun r y =>
      NextEntry r (Lists sb disk inode blocks y c) es := by
  obtain ⟨i, now, hpos, hfew, rfl⟩ := h
  obtain ⟨rs, hring, hrs, -⟩ := hpos.ring
  have hcan := canRead_record hring hrs.length_flatten hfew
  cases now with
  | cons en now =>
    refine Achieves.bind (does_canRead hcan ?_)
    rw [if_pos (decide_eq_true (by rw [List.length_cons]; omega))]
    exact hpos.does_record (Nat.le_of_succ_le hfew)
  | nil =>
    refine Achieves.bind (does_canRead hcan ?_)
    rw [if_neg (by simp)]
    rcases Nat.lt_or_eq_of_le hpos.le with hi | rfl
    · -- a block has at least one entry
      have hne : blocks[i] ≠ [] := fun hnil =>
        blockEntries_ne_nil (ext2BlockSize_pos hv.geometry.blockSize)
          ((hdir.entries i hi).trans (congrArg some hnil))
      have hroom : blocks[i].length ≤ 15 := by
        have hfit := hpos.fit
        rw [List.drop_eq_getElem_cons hi] at hfit
        exact Nat.le_trans hfit.1 (recordRoom_le _)
      refine Achieves.bind ((hpos.does_listDir hv hisdir hdir hread hi).mono ?_)
      rintro n y ⟨rfl, hpos'⟩
      rw [if_neg (fun hzero => hne (List.length_eq_zero_iff.1 hzero))]
      rw [List.nil_append, List.drop_eq_getElem_cons hi, List.flatten_cons]
      revert hne hroom hpos'
      generalize blocks[i] = now
      intro hne hroom hpos'
      cases now with
      | nil => exact absurd rfl hne
      | cons en now => exact hpos'.does_record (Nat.le_of_succ_le_succ hroom)
    · refine Achieves.bind ((hpos.does_listDir_end hisdir hdir).mono ?_)
      rintro n y ⟨rfl, hpos'⟩
      rw [if_pos rfl, List.drop_length]
      refine Achieves.pure ⟨rfl, blocks.length, [], hpos', Nat.zero_le _, ?_⟩
      rw [List.drop_length]
      rfl

end Directory

end C4OS.Ext2
