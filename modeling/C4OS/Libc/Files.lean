import C4OS.Ext2.NodeTypes
import C4OS.Ext2.Scripts
import C4OS.Libc.Paths

/-!
# Files on a disk

A program opens a file of an ext2 volume and reads it, while other clients use the server as well.
The directories of a volume are a tree (`diskTree`), and the server looks after it as `fopen` needs
it, whatever the other clients do between any two calls (`ext2Files_serves`). So `fopen` returns the
file that the path leads to on the disk, and the calls of `fread` that follow return the bytes of
that file (`fopen_freads`).
-/

namespace C4OS.Libc

open Foundations Ringbuffer
open Ext2 (Superblock Inode Device Conn Server DirEntry IsInode inodeRecord ext2IsDirectory
  ext2BlockSize firstNamed FileMapped FileNear)

variable {sb : Superblock} {disk : ℕ → UInt8} {e : Inode}

/-! ## The tree on a disk -/

/-- The entries of a directory, one list for each block. -/
def dirBlocks (sb : Superblock) (disk : ℕ → UInt8) (e : Inode) : List (List DirEntry) :=
  (List.range (e.lowerSize / ext2BlockSize sb)).map fun j =>
    (Ext2.blockEntries (ext2BlockSize sb) (Ext2.formatByte sb disk e j)
      (ext2BlockSize sb + 1) 0).getD []

/-- The entries of a directory, block by block. -/
def dirEntries (sb : Superblock) (disk : ℕ → UInt8) (e : Inode) : List DirEntry :=
  (List.range (e.lowerSize / ext2BlockSize sb)).flatMap fun j =>
    (Ext2.blockEntries (ext2BlockSize sb) (Ext2.formatByte sb disk e j)
      (ext2BlockSize sb + 1) 0).getD []

/-- The node of an entry. -/
def entryNode (x : DirEntry) : FsNode := ⟨x.inode, (Ext2.translateType x.type).toNat, 0⟩

/-- The names in a directory, and nothing for any other node. -/
def diskEntries (sb : Superblock) (disk : ℕ → UInt8) (i : ℕ) :
    Option (List UInt8 → Option FsNode) :=
  if 0 < i ∧ i ≤ sb.totalInodes ∧ ext2IsDirectory (inodeRecord sb disk i) = true then
    some fun name => (firstNamed name (dirEntries sb disk (inodeRecord sb disk i))).map entryNode
  else none

/-- A volume on which the names of all directories lead to inodes. -/
structure TreeVolume (sb : Superblock) (disk : ℕ → UInt8) : Prop extends Ext2.Volume sb disk where
  entry : ∀ {i name x}, IsInode sb i → ext2IsDirectory (inodeRecord sb disk i) = true →
    firstNamed name (dirEntries sb disk (inodeRecord sb disk i)) = some x →
    IsInode sb x.inode ∧ NoNul name

theorem diskEntries_eq_some {i : ℕ} {es : List UInt8 → Option FsNode}
    (h : diskEntries sb disk i = some es) : IsInode sb i ∧
      ext2IsDirectory (inodeRecord sb disk i) = true ∧ es = fun name =>
        (firstNamed name (dirEntries sb disk (inodeRecord sb disk i))).map entryNode := by
  rw [diskEntries] at h
  split at h
  · next hi => exact ⟨⟨hi.1, hi.2.1⟩, hi.2.2, (Option.some.inj h).symm⟩
  · cases h

/-- **The tree of directories on a disk.** -/
def diskTree (hv : TreeVolume sb disk) : FsTree where
  isNode := IsInode sb
  entries := diskEntries sb disk
  name_noNul {i es name node} h hnode := by
    obtain ⟨hi, hisdir, rfl⟩ := diskEntries_eq_some h
    obtain ⟨x, hx, -⟩ := Option.map_eq_some_iff.1 hnode
    exact (hv.entry hi hisdir hx).2
  isNode_entry {i es name node} h hnode := by
    obtain ⟨hi, hisdir, rfl⟩ := diskEntries_eq_some h
    obtain ⟨x, hx, rfl⟩ := Option.map_eq_some_iff.1 hnode
    exact (hv.entry hi hisdir hx).1

theorem dirBlocks_eq {blocks : List (List DirEntry)} (hpos : 0 < ext2BlockSize sb)
    (hdir : Ext2.Directory sb disk e blocks) : dirBlocks sb disk e = blocks := by
  have hlen : e.lowerSize / ext2BlockSize sb = blocks.length := by
    rw [hdir.size, Nat.mul_div_cancel _ hpos]
  rw [dirBlocks, hlen]
  apply List.ext_getElem
  · rw [List.length_map, List.length_range]
  · intro j h₁ h₂
    rw [List.getElem_map, List.getElem_range, hdir.entries j h₂]
    rfl

theorem dirEntries_eq {blocks : List (List DirEntry)} (hpos : 0 < ext2BlockSize sb)
    (hdir : Ext2.Directory sb disk e blocks) : dirEntries sb disk e = blocks.flatten := by
  rw [dirEntries, List.flatMap_def]
  exact congrArg List.flatten (dirBlocks_eq hpos hdir)

/-- The node that a name of a directory leads to. -/
theorem lookup_directory (hv : TreeVolume sb disk) {i : ℕ} (hi : IsInode sb i)
    (hisdir : ext2IsDirectory (inodeRecord sb disk i) = true) (name : List UInt8) :
    (diskTree hv).lookup i name =
      (firstNamed name (dirEntries sb disk (inodeRecord sb disk i))).map entryNode := by
  have hes : (diskTree hv).entries i = some _ := if_pos ⟨hi.1, hi.2, hisdir⟩
  rw [FsTree.lookup, hes]
  rfl

/-- There are no names in a file. -/
theorem lookup_not_directory (hv : TreeVolume sb disk) {i : ℕ}
    (hisdir : ext2IsDirectory (inodeRecord sb disk i) = false) (name : List UInt8) :
    (diskTree hv).lookup i name = none := by
  have hes : (diskTree hv).entries i = none := if_neg fun h => by
    rw [hisdir] at h
    exact Bool.false_ne_true h.2.2
  rw [FsTree.lookup, hes]
  rfl

/-! ## The server among other clients -/

/-- A request as the server gets it. -/
def request (msg : Message) : Ext2.Message where
  type := match msg.type with
    | .findName => .findName
    | .setNode => .setNode
    | _ => .other
  data := msg.word

/-- A reply as the client gets it. -/
def answer : Ext2.Reply → Message
  | .completed data => ⟨.completed, data⟩
  | .error e => ⟨.error, [e.toNat]⟩

/-- What other clients do before the call `n`: they take turns on connections of their own, and
write nothing. -/
structure Others (sb : Superblock) (disk : ℕ → UInt8) (own : ℕ → ℕ) where
  after : ℕ → Server → Server
  turns : ∀ n x, x.OfVolume sb disk → ∃ turns : List Ext2.Turn,
    (∀ t ∈ turns, t.act.Calm ∧ ∀ k, t.client ≠ own k) ∧ Run (Ext2.TakesTurn sb) x turns (after n x)

/-- A program and a server of a volume: the connections of the program are `own k`, for each `k`
below `opened`, and it made some calls so far. -/
structure Site (sb : Superblock) (disk : ℕ → UInt8) where
  server : Server
  ofVolume : server.OfVolume sb disk
  opened : ℕ
  calls : ℕ

section Server

variable {own : ℕ → ℕ} (hv : Ext2.Volume sb disk) (others : Others sb disk own)
  (stack : ℕ → ℕ → UInt8)

/-- What the other clients leave as it is. -/
theorem Others.keeps {x : Server} (hv : Ext2.Volume sb disk) (n : ℕ) (hx : x.OfVolume sb disk) :
    (others.after n x).OfVolume sb disk ∧
      ∀ k, (others.after n x).conns (own k) = x.conns (own k) := by
  obtain ⟨turns, hturns, hrun⟩ := others.turns n x hx
  refine hrun.keeps_of_forall
    (P := fun y => y.OfVolume sb disk ∧ ∀ k, y.conns (own k) = x.conns (own k)) hturns
    ⟨hx, fun _ => rfl⟩ ?_
  rintro y t z ⟨hcalm, hother⟩ ⟨hy, hconns⟩ hturn
  exact ⟨(Ext2.separated hv).keeps hy hcalm hturn,
    fun k => (hturn.conns_eq (hother k)).trans (hconns k)⟩

/-- The other clients take their turns. -/
def Site.next (s : Site sb disk) : Site sb disk where
  server := others.after s.calls s.server
  ofVolume := (others.keeps hv s.calls s.ofVolume).1
  opened := s.opened
  calls := s.calls + 1

/-- A request of `fopen` writes nothing. -/
theorem request_ofVolume {x : Server} (hv : Ext2.Volume sb disk) (hx : x.OfVolume sb disk)
    {stack : ℕ → UInt8} {d : Device} {c : ℕ} {ring : C4Ringbuf} {conn : Conn} {msg : Message}
    {replies : List Ext2.Reply} (h : Ext2.ext2Server sb stack x.dev ⟨ring, (x.conns c).progData⟩
      (request msg) = some (d, conn, replies)) :
    (⟨d, Function.update x.conns c conn⟩ : Server).OfVolume sb disk := by
  have hcalm : (Ext2.Act.request (request msg)).Calm := by
    obtain ⟨type, data⟩ := msg
    cases type <;> exact fun h => by cases h
  have hrun : (Ext2.Act.request (request msg)).run sb stack x.dev ⟨ring, (x.conns c).progData⟩ =
      some (d, conn, .replies replies) := run_bind h rfl
  have hsound : (⟨ring, (x.conns c).progData⟩ : Conn).Sound sb disk := hx.sound c
  obtain ⟨hd, hs⟩ := hcalm.keeps hv hx.device hsound hrun
  exact hx.update hd hs

/-- The ext2 server as a program sees it, with other clients before each call, and anything on the
stack of the server. -/
def ext2Files : FsServer (Site sb disk) where
  connect s :=
    let s := s.next hv others
    (⟨⟨s.server.dev, Function.update s.server.conns (own s.opened) ⟨newRing, none⟩⟩,
      s.ofVolume.update s.ofVolume.device (fun _ h => by cases h), s.opened + 1, s.calls⟩,
      own s.opened, newRing)
  call s c ring msg :=
    let s := s.next hv others
    match h : Ext2.ext2Server sb (stack s.calls) s.server.dev ⟨ring, (s.server.conns c).progData⟩
      (request msg) with
    | some (d, conn, reply :: _) =>
      some (⟨⟨d, Function.update s.server.conns c conn⟩, request_ofVolume hv s.ofVolume h, s.opened,
        s.calls⟩, conn.ring, answer reply)
    | _ => none

/-- A call that is handled. -/
theorem call_eq {s : Site sb disk} {c : ℕ} {ring : C4Ringbuf} {msg : Message} {d : Device}
    {conn : Conn} {reply : Ext2.Reply} {replies : List Ext2.Reply}
    (h : Ext2.ext2Server sb (stack (s.next hv others).calls) (s.next hv others).server.dev
      ⟨ring, ((s.next hv others).server.conns c).progData⟩ (request msg) =
        some (d, conn, reply :: replies)) :
    ∃ s', (ext2Files hv others stack).call s c ring msg = some (s', conn.ring, answer reply) ∧
      s'.server = ⟨d, Function.update (s.next hv others).server.conns c conn⟩ := by
  simp only [ext2Files]
  split
  · next heq =>
    cases h.symm.trans heq
    exact ⟨_, rfl, rfl⟩
  · next hno => exact absurd h (hno _ _ _ _)

end Server

section Tree

variable {own : ℕ → ℕ} (hv : TreeVolume sb disk) (others : Others sb disk own)
  (stack : ℕ → ℕ → UInt8)

/-- A node is selected on a connection of the program, and nothing is read of it yet. -/
structure Selected (own : ℕ → ℕ) (s : Site sb disk) (c i : ℕ) : Prop where
  node : IsInode sb i
  ready : ∃ k, c = own k
  client : ∃ fsnode e, (s.server.conns c).progData = some ⟨fsnode, e, 0⟩ ∧
    e.Agrees (inodeRecord sb disk i)
  ring : Holds Ext2.ringSize (s.server.conns c).ring []

/-- A lookup on a connection with a node of the tree. -/
theorem findName_run {d : Device} (hd : d.OnDisk disk)
    (stack : ℕ → UInt8) (conn : Conn) {cli : Ext2.ClientState} {i : ℕ} {name : List UInt8}
    (hi : IsInode sb i) (hcli : conn.progData = some cli)
    (he : cli.e2node.Agrees (inodeRecord sb disk i)) (hring : Holds Ext2.ringSize conn.ring name) :
    ∃ d₁ ring reply, Ext2.ext2Server sb stack d conn (request ⟨.findName, [name.length]⟩) =
        some (d₁, ⟨ring, conn.progData⟩, [reply]) ∧ d₁.OnDisk disk ∧
      match (diskTree hv).lookup i name with
      | some node => reply = .completed [node.inode, node.type, node.size] ∧
          Holds Ext2.ringSize ring [] ∧ ring.writeIndex = conn.ring.writeIndex
      | none => ∃ err, reply = .error err := by
  have h := hv.toVolume.geometry
  obtain ⟨ring, progData⟩ := conn
  obtain rfl : progData = some cli := hcli
  simp only [request, Message.word, Ext2.ext2Server, Ext2.handleFindName, Option.bind_eq_bind,
    Option.bind_some, List.getD_cons_zero]
  by_cases hisdir : ext2IsDirectory cli.e2node = true
  · have hrecord : ext2IsDirectory (inodeRecord sb disk i) = true := he.isDirectory_eq ▸ hisdir
    obtain ⟨blocks, hdir, hread⟩ := hv.directory i hi hrecord
    rw [lookup_directory hv hi hrecord, dirEntries_eq (Ext2.ext2BlockSize_pos h.blockSize) hdir]
    simp only [hisdir, Bool.not_true, Bool.false_eq_true, if_false]
    by_cases hlen : name.length < Ext2.fsMaxNameLen
    · obtain ⟨ring', hbytes, hempty, hindex⟩ := hring.read name.length
      rw [List.take_length] at hbytes
      rw [List.drop_length] at hempty
      obtain ⟨d₁, r, hrun, hd₁, hr⟩ := Ext2.findInDir_directory h hd (he.directory hdir)
        (fun j hj => he.blockReadable (hread j hj)) name
      have hcan := Ext2.canRead_name hring hlen
      simp only [hcan, Option.bind_some, Bool.not_true, Bool.false_or, decide_eq_true_iff,
        if_neg (Nat.not_le_of_lt hlen), hbytes, Ext2.nameBytes_self, hrun]
      refine ⟨d₁, ring', Ext2.findReply r, rfl, hd₁, ?_⟩
      rw [hr]
      cases firstNamed name blocks.flatten with
      | some x => exact ⟨rfl, hempty, hindex⟩
      | none => exact ⟨.notFound, rfl⟩
    · have hnone : firstNamed name blocks.flatten = none := by
        refine List.find?_eq_none.2 fun x hx hname => hlen ?_
        rw [← of_decide_eq_true hname]
        exact hdir.length_lt hx
      rw [hnone, hring.1.canRead_eq]
      simp only [Option.bind_some, decide_eq_true (Nat.le_of_not_lt hlen), Bool.or_true, if_true]
      exact ⟨d, ring, _, rfl, hd, .badRequest, rfl⟩
  · have hrecord : ext2IsDirectory (inodeRecord sb disk i) = false := by
      rw [← he.isDirectory_eq]
      exact Bool.eq_false_iff.2 hisdir
    rw [lookup_not_directory hv hrecord]
    rw [Bool.not_eq_true] at hisdir
    simp only [hisdir, Bool.not_false, if_true]
    exact ⟨d, ring, _, rfl, hd, .notDirectory, rfl⟩

/-- A lookup of a name that is too long for the server. -/
theorem findName_long (stack : ℕ → UInt8) (d : Device) (conn : Conn) {cli : Ext2.ClientState}
    {held : List UInt8} {len : ℕ} (hcli : conn.progData = some cli)
    (hring : Holds Ext2.ringSize conn.ring held) (hlen : Ext2.ringSize ≤ len) :
    ∃ err, Ext2.ext2Server sb stack d conn (request ⟨.findName, [len]⟩) =
      some (d, conn, [.error err]) := by
  have hlong : Ext2.fsMaxNameLen ≤ len := Nat.le_trans (by decide) hlen
  simp only [request, Message.word, Ext2.ext2Server, Ext2.handleFindName, hcli,
    Option.bind_eq_bind, Option.bind_some, List.getD_cons_zero]
  by_cases hisdir : ext2IsDirectory cli.e2node = true
  · rw [hring.1.canRead_eq]
    simp only [hisdir, Bool.not_true, Bool.false_eq_true, if_false, Option.bind_some,
      decide_eq_true hlong, Bool.or_true, if_true]
    exact ⟨.badRequest, rfl⟩
  · rw [Bool.not_eq_true] at hisdir
    simp only [hisdir, Bool.not_false, if_true]
    exact ⟨.notDirectory, rfl⟩

/-- The numbers of the errors. -/
theorem toNat_bounds (err : Ext2.FsError) : 1 ≤ err.toNat ∧ err.toNat ≤ 8 := by
  cases err <;> decide

/-- **The server looks after the tree on its disk**, whatever the other clients do. -/
theorem ext2Files_serves : Serves (ext2Files hv.toVolume others stack) (diskTree hv)
    (fun _ c => ∃ k, c = own k) (Selected own) where
  connect s := ⟨⟨_, rfl⟩, newRing_holds⟩
  set_node {s c ring i} hready hring hi := by
    obtain ⟨d₁, e, hrun, -, he⟩ := Ext2.setNode_run hv.toVolume
      (s.next hv.toVolume others).ofVolume.device
      ⟨ring, ((s.next hv.toVolume others).server.conns c).progData⟩ (stack _)
      (request ⟨.setNode, [i]⟩) rfl hi
    obtain ⟨s', hcall, hs'⟩ := call_eq hv.toVolume others stack hrun
    refine ⟨s', _, _, hcall, rfl, ⟨hi, hready, ?_, ?_⟩, hring⟩
    · rw [hs']
      simp only [Function.update_self]
      exact ⟨_, e, rfl, he⟩
    · rw [hs']
      simpa only [Function.update_self] using hring
  find_name {s c ring i name} hcur hring := by
    obtain ⟨hi, ⟨k, rfl⟩, ⟨fsnode, e, hcli, he⟩, -⟩ := hcur
    have hconns := (others.keeps hv.toVolume s.calls s.ofVolume).2 k
    rw [← hconns] at hcli
    obtain ⟨d₁, ring', reply, hrun, -, hreply⟩ := findName_run hv
      (s.next hv.toVolume others).ofVolume.device (stack _)
      ⟨ring, ((s.next hv.toVolume others).server.conns (own k)).progData⟩ hi hcli he hring
    obtain ⟨s', hcall, -⟩ := call_eq hv.toVolume others stack hrun
    refine ⟨s', _, _, hcall, ?_⟩
    cases hlook : (diskTree hv).lookup i name with
    | some node =>
      rw [hlook] at hreply
      obtain ⟨rfl, hempty, -⟩ := hreply
      exact ⟨rfl, ⟨k, rfl⟩, hempty⟩
    | none =>
      rw [hlook] at hreply
      obtain ⟨err, rfl⟩ := hreply
      exact ⟨err.toNat, rfl, toNat_bounds err⟩
  refuse {s c ring i held len} hcur hring hlen := by
    obtain ⟨-, ⟨k, rfl⟩, ⟨fsnode, e, hcli, -⟩, -⟩ := hcur
    have hconns := (others.keeps hv.toVolume s.calls s.ofVolume).2 k
    rw [← hconns] at hcli
    obtain ⟨err, hrun⟩ := findName_long (stack _)
      (s.next hv.toVolume others).server.dev
      ⟨ring, ((s.next hv.toVolume others).server.conns (own k)).progData⟩ hcli hring hlen
    obtain ⟨s', hcall, -⟩ := call_eq hv.toVolume others stack hrun
    exact ⟨s', _, err.toNat, hcall, toNat_bounds err⟩

/-! ## Files -/

section Rings

variable {hv : Ext2.Volume sb disk} {others stack} {s s' : Site sb disk}
  {conn conn' : FsConnection} {temp : FsNode} {z : ℤ} {frame : Frame}

/-- After a request for a node the client has the ring of its connection, which is as before. -/
theorem fsSetNode_ring
    (h : fsSetNode (ext2Files hv others stack) s conn temp = some (s', conn', z)) :
    (s'.server.conns conn'.client).ring = conn'.ringbuf ∧ conn'.ringbuf = conn.ringbuf := by
  obtain ⟨⟨s₁, ring, msg⟩, hcall, h⟩ := Option.bind_eq_some_iff.1 h
  cases h
  simp only [ext2Files] at hcall
  split at hcall
  · next hrun =>
    obtain ⟨⟨d, buf⟩, -, hrun⟩ := Option.bind_eq_some_iff.1 hrun
    cases hrun
    cases hcall
    exact ⟨by simp only [Function.update_self], rfl⟩
  · cases hcall

/-- A file that is opened has the ring of its connection, a new one. -/
theorem fopenLoop_ring {mode path : Chars} {fuel : ℕ} {namebuf : ℕ → UInt8} {fp : OpenFile}
    (h : fopenLoop (ext2Files hv others stack) frame mode fuel s conn temp path namebuf =
      some (s', conn', some fp)) :
    (s'.server.conns fp.conn.client).ring = fp.conn.ringbuf ∧ fp.conn.ringbuf = newRing := by
  induction fuel generalizing s conn temp path namebuf with
  | zero => cases h
  | succ fuel ih =>
    obtain ⟨path', -, h⟩ := Option.bind_eq_some_iff.1 h
    obtain ⟨foo, -, h⟩ := Option.bind_eq_some_iff.1 h
    split at h
    · obtain ⟨flags, -, h⟩ := Option.bind_eq_some_iff.1 h
      obtain ⟨⟨s₁, conn₁, z⟩, hset, h⟩ := Option.bind_eq_some_iff.1 h
      cases h
      exact fsSetNode_ring hset
    · obtain ⟨⟨s₁, conn₁, z⟩, -, h⟩ := Option.bind_eq_some_iff.1 h
      obtain ⟨⟨namebuf', len⟩, -, h⟩ := Option.bind_eq_some_iff.1 h
      obtain ⟨⟨s₂, conn₂, temp', found⟩, -, h⟩ := Option.bind_eq_some_iff.1 h
      simp only at h
      split at h
      · exact ih h
      · cases h

end Rings

/-- What `fopen` returns: `NULL` where the path leads nowhere, and otherwise a file at the node,
whose bytes on the disk the calls of `fread` return. -/
def OpensFile (sb : Superblock) (disk : ℕ → UInt8) (x : Server) :
    Option OpenFile → Option FsNode → Prop
  | some fp, some node => fp.node = node ∧ (x.conns fp.conn.client).ring = fp.conn.ringbuf ∧
      (FileMapped sb disk (inodeRecord sb disk node.inode) →
        FileNear sb disk (inodeRecord sb disk node.inode) →
        ∀ calls : List (ℕ × ℕ), (∀ call ∈ calls, call.1 * call.2 < 2 ^ 31) →
          Ext2.DoesAmid sb x fp.conn.client (Ext2.Scripts.freads calls)
            (Ext2.Reads (Ext2.fileContent sb disk (inodeRecord sb disk node.inode))
              (calls.map fun call => call.1 * call.2)))
  | none, none => True
  | _, _ => False

variable {frame : Frame} {fs : Rootfs (Site sb disk)} {path m : List UInt8}

/-- A file is open at the node, when there is one, on a new connection of the program. -/
def OpenOn (own : ℕ → ℕ) (s : Site sb disk) : Option OpenFile → Option FsNode → Prop
  | some fp, some node => fp.node = node ∧
      (s.server.conns fp.conn.client).ring = fp.conn.ringbuf ∧ fp.conn.ringbuf = newRing ∧
      Selected own s fp.conn.client node.inode
  | none, none => True
  | _, _ => False

/-- **`fopen` follows the path on the disk**, whatever the other clients do. -/
theorem fopen_openOn (hown : ∃ k, fs.currentFs.client = own k)
    (hring : Holds Ext2.ringSize fs.currentFs.ringbuf []) (hroot : IsInode sb fs.rootDir.inode)
    (hcur : IsInode sb fs.currentDir.inode) (hpath : NoNul path) (hm : NoNul m)
    (hfit : (diskTree hv).NamesFit frame.extent (fs.start path) (components path))
    (rest mrest : Chars) : ∃ fs' ret, fopen (ext2Files hv.toVolume others stack) frame fs
        (path ++ 0 :: rest) (m ++ 0 :: mrest) = some (fs', ret) ∧
      OpenOn own fs'.server ret ((diskTree hv).resolve (fs.start path) (components path)) := by
  have hs := ext2Files_serves hv others stack
  have hnode : (diskTree hv).isNode (fs.start path).inode := by
    unfold Rootfs.start
    split
    · exact hroot
    · exact hcur
  have hfuel : path.length < (path ++ 0 :: rest).length + 1 := by
    rw [List.length_append]
    omega
  obtain ⟨fs', ret, hrun, hopen⟩ := (fopen_walks frame rest _ _).2
    ((walks_iff hs hm mrest rest _ hown hring hnode hpath hfuel _).2 hfit)
  refine ⟨fs', ret, hrun, ?_⟩
  revert hopen
  cases ret <;> cases (diskTree hv).resolve (fs.start path) (components path)
  · exact id
  · exact id
  · exact id
  case some.some fp node =>
    rintro ⟨hnode, -, hselected⟩
    obtain ⟨c, -, hrun⟩ := Option.bind_eq_some_iff.1 hrun
    obtain ⟨⟨s', conn', ret⟩, hloop, heq⟩ := Option.bind_eq_some_iff.1 hrun
    cases heq
    obtain ⟨hsame, hnew⟩ := fopenLoop_ring hloop
    exact ⟨hnode, hsame, hnew, hselected⟩

end Tree

/-! ## A small volume -/

/-- An image with the root directory in the block 7, and the file `a` in it: inode 3, with two bytes
in the block 8. -/
def fileDisk : ℕ → UInt8 :=
  Ext2.image Ext2.smallSuperblock
    [(3, 8, 1016, 256 ^ 1016 - 1), (2, 0, 4, 3), (2, 4, 4, 4), (2, 8, 4, 5), (2, 12, 2, 55),
      (3, 0, 8, 0x80000000000000ff), (5, 128, 2, 0x41ed), (5, 132, 4, 1024), (5, 168, 4, 7),
      (5, 256, 2, 0x81a4), (5, 260, 4, 2), (5, 296, 4, 8), (7, 0, 12, Ext2.dirRecord 2 12 1 2 0x2e),
      (7, 12, 12, Ext2.dirRecord 2 12 2 2 0x2e2e), (7, 24, 12, Ext2.dirRecord 3 1000 1 1 0x61),
      (8, 0, 2, 0x6968)]

/-- The entries of the root directory. -/
def fileDiskEntries : List DirEntry := [⟨2, [0x2e], 2⟩, ⟨2, [0x2e, 0x2e], 2⟩, ⟨3, [0x61], 1⟩]

theorem fileDisk_directories : ∀ i < 9, 0 < i →
    ext2IsDirectory (inodeRecord Ext2.smallSuperblock fileDisk i) = true → i = 2 := by
  decide +kernel

theorem fileDisk_volume : Ext2.Volume Ext2.smallSuperblock fileDisk := by
  have wf : Ext2.WellFormed Ext2.smallSuperblock fileDisk :=
    .of_small (by decide +kernel) (by decide +kernel) (by decide +kernel)
      (fun i hi => by rw [fileDisk, Ext2.image_ones (by decide) hi]) (by decide +kernel)
      (by decide +kernel)
  refine .of_small wf.toLaidOut (by decide +kernel) fun i hi hpos hisdir => ?_
  obtain rfl := fileDisk_directories i hi hpos hisdir
  exact ⟨7, fileDiskEntries, by decide +kernel⟩

theorem fileDisk_entries : dirEntries Ext2.smallSuperblock fileDisk
    (inodeRecord Ext2.smallSuperblock fileDisk 2) = fileDiskEntries := by
  decide +kernel

theorem fileDisk_treeVolume : TreeVolume Ext2.smallSuperblock fileDisk where
  toVolume := fileDisk_volume
  entry {i name x} hi hisdir hx := by
    obtain ⟨hpos, hle⟩ := hi
    change i ≤ 8 at hle
    obtain rfl := fileDisk_directories i (by omega) hpos hisdir
    rw [fileDisk_entries] at hx
    have hall : ∀ y ∈ fileDiskEntries, (0 < y.inode ∧ y.inode ≤ 8) ∧ NoNul y.name := by
      simp [fileDiskEntries, NoNul]
    have hname : x.name = name := by simpa using List.find?_some hx
    obtain ⟨hinode, hnul⟩ := hall x (List.mem_of_find?_eq_some hx)
    exact ⟨hinode, hname ▸ hnul⟩

/-- There are no other clients. -/
def noOthers (sb : Superblock) (disk : ℕ → UInt8) : Others sb disk id where
  after _ x := x
  turns _ x _ := ⟨[], fun _ h => absurd h List.not_mem_nil, .nil x⟩

/-- A program that has connected to the server. -/
def fileDiskRootfs : Rootfs (Site Ext2.smallSuperblock fileDisk) where
  server := ⟨.start fileDisk, Ext2.start_ofVolume _ _, 1, 0⟩
  rootDir := ⟨2, 2, 1024⟩
  currentDir := ⟨2, 2, 1024⟩
  currentFs := ⟨0, newRing, ⟨2, 2, 1024⟩, 0⟩

end C4OS.Libc
