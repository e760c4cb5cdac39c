import C4OS.Ext2.Framing
import C4OS.Ext2.Mapping
import C4OS.Ext2.Walks

/-!
# Looking up a name

What `handle_find_name` answers for a directory of the format. It goes over the entries of one block
after the other and answers with the first one that has the name, whether it is in use or not: the
inode zero of an entry that is not in use is answered like any other. In a block that is read right
the search finds the first entry with the name (`findInBlock_entries`), so that with blocks that are
read right up to there the answer is right just when this entry is in use (`find_name_iff`). The
blocks in the first 4 GiB are read right as far as the direct pointers and the first table go
(`blocksRead_iff`), and behind them nothing is answered (`not_finds_of_not_mapped`).
-/

namespace C4OS.Ext2

open Foundations Ringbuffer Relation

variable {sb : Superblock} {disk byte : ℕ → UInt8} {d : Device} {e : Inode} {conn : Conn}
  {cli : ClientState} {stack : ℕ → UInt8} {name : List UInt8} {blocks : List (List DirEntry)}
  {es : List DirEntry} {r r' : Option Dirent} {fuel off i j : ℕ}

/-! ## Directories and answers -/

/-- The blocks of a directory, tiled by their entries. -/
structure Directory (sb : Superblock) (disk : ℕ → UInt8) (e : Inode)
    (blocks : List (List DirEntry)) : Prop where
  size : e.lowerSize = blocks.length * ext2BlockSize sb
  entries : ∀ j (h : j < blocks.length),
    blockEntries (ext2BlockSize sb) (formatByte sb disk e j) (ext2BlockSize sb + 1) 0 =
      some blocks[j]

/-- The first entry with a name. -/
def firstNamed (name : List UInt8) (es : List DirEntry) : Option DirEntry :=
  es.find? fun x => x.name = name

/-- The answer with an entry of a directory. -/
def entryReply : Option DirEntry → Reply
  | some x => .completed [x.inode, (translateType x.type).toNat, 0]
  | none => .error .notFound

/-- An answer with an entry in use that has the name, or that there is none. -/
def AnswerRight (blocks : List (List DirEntry)) (name : List UInt8) (reply : Reply) : Prop :=
  (∃ x ∈ blocks.flatten, x.inode ≠ 0 ∧ x.name = name ∧ reply = entryReply (some x)) ∨
    (∀ x ∈ blocks.flatten, x.inode ≠ 0 → x.name ≠ name) ∧ reply = entryReply none

/-- A lookup is answered, and the answer is right. -/
def LookupRight (sb : Superblock) (stack : ℕ → UInt8) (d : Device) (conn : Conn)
    (blocks : List (List DirEntry)) (name : List UInt8) : Prop :=
  ∃ d' conn' reply compared, handleFindName sb stack d conn name.length =
    some (d', conn', [reply], compared) ∧ AnswerRight blocks name reply

/-- The first entry with the name, if there is one, is in use. -/
def FirstInUse (blocks : List (List DirEntry)) (name : List UInt8) : Prop :=
  ∀ x, firstNamed name blocks.flatten = some x → x.inode ≠ 0

theorem answerRight_iff : AnswerRight blocks name (entryReply (firstNamed name blocks.flatten)) ↔
    FirstInUse blocks name := by
  rw [FirstInUse]
  cases hfirst : firstNamed name blocks.flatten with
  | none =>
    have hnone : ∀ x ∈ blocks.flatten, x.name ≠ name := fun x hx => by
      simpa using List.find?_eq_none.1 hfirst x hx
    refine iff_of_true (.inr ⟨fun x hx _ => hnone x hx, rfl⟩) fun x hx => ?_
    cases hx
  | some x =>
    have hmem := List.mem_of_find?_eq_some hfirst
    have hname : x.name = name := by simpa using List.find?_some hfirst
    constructor
    · rintro (⟨y, -, hy, -, hreply⟩ | ⟨-, hreply⟩) z hz
      · cases hz
        have hinode := (List.cons.inj (Reply.completed.inj hreply)).1
        rwa [hinode]
      · cases hreply
    · exact fun huse => .inl ⟨x, hmem, huse x rfl, hname, rfl⟩

/-! ## A block -/

/-- An entry is the same in two blocks with the same bytes. -/
theorem entryAt_congr {f g : ℕ → UInt8} {bs : ℕ} (hfg : ∀ c < bs, f c = g c)
    (hrec : off + 8 + readLE 1 g (off + 6) ≤ bs) : entryAt f off = entryAt g off := by
  have hread : ∀ {k a}, a + k ≤ off + 8 → readLE k f a = readLE k g a :=
    fun ha => readLE_congr fun i hi => hfg _ (by omega)
  rw [entryAt, entryAt, hread (by omega), hread (by omega), hread (by omega)]
  congr 1
  refine List.map_congr_left fun t ht => hfg _ ?_
  have := List.mem_range.1 ht
  omega

/-- **The search in a block** finds the first entry with the name. -/
theorem findInBlock_entries (name : List UInt8) (hbs : ext2BlockSize sb ≤ pageSize)
    (hbuf : ∀ c < ext2BlockSize sb, d.buffer c = byte c)
    (hes : blockEntries (ext2BlockSize sb) byte fuel off = some es) :
    ∃ r, findInBlock sb d name fuel off = some r ∧
      findReply r = entryReply (firstNamed name es) := by
  induction fuel generalizing off es with
  | zero => cases hes
  | succ fuel ih =>
    rw [findInBlock]
    rcases blockEntries_cons hes with ⟨rfl, rfl⟩ | ⟨hoff, hname, hle, rest, hrest, rfl⟩
    · exact ⟨none, if_neg (Nat.lt_irrefl _), rfl⟩
    · have hentry : entryAt d.buffer off = entryAt byte off := entryAt_congr hbuf (by omega)
      have hlen : (entryAt byte off).name.length = readLE 1 byte (off + 6) := by simp [entryAt]
      have hmatch : nameMatches d off name = some (decide ((entryAt byte off).name = name)) := by
        rw [← nameMatchesBelow_page, nameMatchesBelow_iff (Nat.le_refl _), hentry,
          decide_eq_true_iff]
        refine ⟨⟨by omega, fun heq k hk _ => ?_⟩, Iff.rfl⟩
        omega
      have hlt : off < ext2BlockSize sb := by omega
      rw [if_pos hlt, hmatch]
      by_cases hsame : (entryAt byte off).name = name
      · have hload := loadDirent_eq (d := d) (i := off) (by omega)
        refine ⟨some (pageDirent d off), ?_, ?_⟩
        · rw [decide_eq_true hsame]
          exact run_bind rfl ((if_pos rfl).trans (run_bind hload rfl))
        · rw [firstNamed, List.find?_cons_of_pos (by simpa using hsame), ← hentry]
          rfl
      · have hsize : d.load 2 (off + 4) = some (readLE 2 byte (off + 4)) := by
          rw [Device.load, if_pos (by omega)]
          congr 1
          exact readLE_congr fun t ht => hbuf _ (by omega)
        obtain ⟨r, hrun, hreply⟩ := ih hrest
        refine ⟨r, ?_, ?_⟩
        · rw [decide_eq_false hsame]
          exact run_bind rfl ((if_neg Bool.false_ne_true).trans (run_bind hsize hrun))
        · rw [hreply, firstNamed, firstNamed, List.find?_cons_of_neg (by simpa using hsame)]

/-- The search in a block has one result. -/
theorem InBlock.unique (h : InBlock sb d name r) (h' : InBlock sb d name r') : r = r' :=
  Option.some.inj ((findInBlock_iff.2 h).symm.trans (findInBlock_iff.2 h'))

/-- The search in a block of a directory that is read right. -/
theorem BlockReadable.exists_inBlock (hr : BlockReadable sb d.disk e j) (h : sb.blockSize ≤ 2)
    (hdir : Directory sb d.disk e blocks) (hj : j < blocks.length) (name : List UInt8) :
    ∃ r, InBlock sb (filePage sb d e j) name r ∧
      findReply r = entryReply (firstNamed name blocks[j]) := by
  have hbuf : ∀ c < ext2BlockSize sb, (filePage sb d e j).buffer c = formatByte sb d.disk e j c :=
    fun c hc => (if_pos hc).trans (hr.bytes c hc)
  obtain ⟨r, hrun, hreply⟩ :=
    findInBlock_entries name (ext2BlockSize_le h) hbuf (hdir.entries j hj)
  exact ⟨r, findInBlock_iff.1 hrun, hreply⟩

/-! ## The blocks of a directory -/

/-- The blocks up to the first one with an entry of the name are read right. -/
def BlocksRead (sb : Superblock) (disk : ℕ → UInt8) (e : Inode) (blocks : List (List DirEntry))
    (name : List UInt8) : Prop :=
  ∀ j < blocks.length, firstNamed name (blocks.take j).flatten = none → BlockReadable sb disk e j

theorem firstNamed_append (es es' : List DirEntry) :
    firstNamed name (es ++ es') = (firstNamed name es).or (firstNamed name es') :=
  List.find?_append

/-- A block of a directory starts before its end. -/
theorem Directory.mul_lt (hdir : Directory sb disk e blocks) (h : Geometry sb) :
    j * ext2BlockSize sb < e.lowerSize ↔ j < blocks.length := by
  have hpos := h.blockSize_le.1
  rw [hdir.size]
  exact Nat.mul_lt_mul_right (by omega)

/-- With blocks that are read right, the search finds the first entry with the name. -/
theorem BlocksRead.exists_finds (hb : BlocksRead sb d.disk e blocks name) (h : Geometry sb)
    (hdir : Directory sb d.disk e blocks) :
    ∃ r, LookupFinds sb d e name r ∧
      findReply r = entryReply (firstNamed name blocks.flatten) := by
  suffices hfrom : ∀ n i, blocks.length = i + n → firstNamed name (blocks.take i).flatten = none →
      (∀ k < i, Passed sb d e name k) → ∃ r, LookupFinds sb d e name r ∧
        findReply r = entryReply (firstNamed name (blocks.drop i).flatten) by
    refine hfrom blocks.length 0 (Nat.zero_add _).symm rfl fun k hk => ?_
    omega
  intro n
  induction n with
  | zero =>
    intro i hi _ hpassed
    refine ⟨none, ⟨i, hpassed, ?_⟩, ?_⟩
    · show e.lowerSize ≤ _
      rw [hdir.size, hi, Nat.add_zero]
    · rw [List.drop_of_length_le (by omega)]
      rfl
  | succ n ih =>
    intro i hi hfirst hpassed
    have hlt : i < blocks.length := by omega
    have hr := hb i hlt hfirst
    obtain ⟨r, hin, hreply⟩ := hr.exists_inBlock h.blockSize hdir hlt name
    have hdrop : (blocks.drop i).flatten = blocks[i] ++ (blocks.drop (i + 1)).flatten := by
      rw [List.drop_eq_getElem_cons hlt, List.flatten_cons]
    cases hnamed : firstNamed name blocks[i] with
    | some x =>
      rw [hnamed] at hreply
      cases r with
      | none => cases hreply
      | some ent =>
        refine ⟨some ent, ⟨i, hpassed, (hdir.mul_lt h).2 hlt, hr.mapped, hin⟩, ?_⟩
        rw [hdrop, firstNamed_append, hnamed, hreply]
        rfl
    | none =>
      rw [hnamed] at hreply
      cases r with
      | some ent => cases hreply
      | none =>
        have hfirst' : firstNamed name (blocks.take (i + 1)).flatten = none := by
          rw [List.take_succ_eq_append_getElem hlt, List.flatten_append, firstNamed_append, hfirst,
            List.flatten_singleton, hnamed]
          rfl
        obtain ⟨r, hfinds, hreply'⟩ := ih (i + 1) (by omega) hfirst' fun k hk => by
          rcases Nat.lt_succ_iff_lt_or_eq.1 hk with hk | rfl
          · exact hpassed k hk
          · exact ⟨(hdir.mul_lt h).2 hlt, hr.mapped, hin⟩
        refine ⟨r, hfinds, ?_⟩
        rw [hreply', hdrop, firstNamed_append, hnamed]
        rfl

/-- The search in a directory has one result. -/
theorem LookupFinds.unique (h : Geometry sb) (hd : d.Working) (hf : LookupFinds sb d e name r)
    (hf' : LookupFinds sb d e name r') : r = r' := by
  obtain ⟨d₁, hrun⟩ := (exists_findInDir_eq_iff h hd).2 hf
  obtain ⟨d₂, hrun'⟩ := (exists_findInDir_eq_iff h hd).2 hf'
  cases hrun.symm.trans hrun'
  rfl

/-! ## Blocks in the first 4 GiB -/

theorem firstNamed_take_of_le (hij : i ≤ j) (h : firstNamed name (blocks.take j).flatten = none) :
    firstNamed name (blocks.take i).flatten = none := by
  have hsplit := List.take_append_drop i (blocks.take j)
  rw [List.take_take, Nat.min_eq_left hij] at hsplit
  rw [← hsplit, List.flatten_append, firstNamed_append, Option.or_eq_none_iff] at h
  exact h.1

theorem firstNamed_getElem (hij : i < j) (hi : i < blocks.length)
    (h : firstNamed name (blocks.take j).flatten = none) : firstNamed name blocks[i] = none := by
  have hnext := firstNamed_take_of_le (Nat.succ_le_of_lt hij) h
  rw [List.take_succ_eq_append_getElem hi, List.flatten_append, firstNamed_append,
    Option.or_eq_none_iff, List.flatten_singleton] at hnext
  exact hnext.2

/-- A block of a directory is no hole. -/
theorem Directory.formatMap_pos (hdir : Directory sb disk e blocks) (h : Geometry sb)
    (hj : j < blocks.length) : 0 < formatMap sb disk e j := by
  have hpos := h.blockSize_le.1
  by_contra hzero
  have hbytes : formatByte sb disk e j = fun _ => 0 := funext fun c => if_pos (by omega)
  have hes := hdir.entries j hj
  rw [hbytes] at hes
  rcases blockEntries_cons hes with ⟨hnil, -⟩ | ⟨-, hname, -⟩
  · omega
  · have hsize : readLE 2 (fun _ => 0) (0 + 4) = 0 := by simp [readLE]
    omega

/-- The blocks of a directory in the first 4 GiB are read right as far as the direct pointers and
the first table go. -/
theorem blocksRead_iff (h : Geometry sb) (hdir : Directory sb disk e blocks)
    (hin : ∀ j < blocks.length, ∀ b ∈ formatPath sb disk e j, b ≤ sb.totalBlocks ∧ Near sb b)
    (name : List UInt8) : BlocksRead sb disk e blocks name ↔ ∀ j < blocks.length,
      firstNamed name (blocks.take j).flatten = none → j < ext2PointersPerBlock sb + 12 := by
  constructor
  · exact fun hb j hj hfirst => (hb j hj hfirst).mapped.lt
  · intro hlt j hj hfirst
    have hlt' := hlt j hj hfirst
    exact (blockReadable_iff h.blockSize (hin j hj)).2
      ⟨hlt', fun b => pos_of_formatMap hlt' (hdir.formatMap_pos h hj)⟩

/-- Nothing is found behind a block that is not there. -/
theorem not_finds_of_not_mapped (h : Geometry sb) (hdir : Directory sb d.disk e blocks)
    (hj : j < blocks.length) (hfirst : firstNamed name (blocks.take j).flatten = none)
    (hread : ∀ k < j, BlockReadable sb d.disk e k) (hm : ¬ Mapped sb d.disk e j) :
    ¬ LookupFinds sb d e name r := by
  rintro ⟨i, hpassed, hfound⟩
  have hstart : i ≤ j → r ≠ none := by
    rintro hle rfl
    exact Nat.not_le_of_lt ((hdir.mul_lt h).2 (Nat.lt_of_le_of_lt hle hj)) hfound
  rcases Nat.lt_trichotomy i j with hlt | rfl | hlt
  · cases r with
    | none => exact hstart (Nat.le_of_lt hlt) rfl
    | some ent =>
      have hi := Nat.lt_trans hlt hj
      obtain ⟨r, hin, hreply⟩ := (hread i hlt).exists_inBlock h.blockSize hdir hi name
      obtain rfl := hin.unique hfound.2.2
      rw [firstNamed_getElem hlt hi hfirst] at hreply
      cases hreply
  · cases r with
    | none => exact hstart (Nat.le_refl _) rfl
    | some ent => exact hm hfound.2.1
  · exact hm (hpassed j hlt).2.1

/-! ## The request -/

/-- When a lookup is answered right: the blocks up to the first entry with the name are read right
and it is in use, or what is read in their place leads to a right answer all the same. -/
def LookupFits (sb : Superblock) (d : Device) (e : Inode) (blocks : List (List DirEntry))
    (name : List UInt8) : Prop :=
  BlocksRead sb d.disk e blocks name ∧ FirstInUse blocks name ∨
    ¬ BlocksRead sb d.disk e blocks name ∧
      ∃ r, LookupFinds sb d e name r ∧ AnswerRight blocks name (findReply r)

/-- **In the first 4 GiB** a lookup is answered right just when no search goes behind the first
table and the first entry with the name is in use. -/
theorem lookupFits_iff (h : Geometry sb) (hdir : Directory sb d.disk e blocks)
    (hin : ∀ j < blocks.length, ∀ b ∈ formatPath sb d.disk e j, b ≤ sb.totalBlocks ∧ Near sb b) :
    LookupFits sb d e blocks name ↔ (∀ j < blocks.length,
      firstNamed name (blocks.take j).flatten = none → j < ext2PointersPerBlock sb + 12) ∧
      FirstInUse blocks name := by
  have hiff := blocksRead_iff h hdir hin name
  constructor
  · rintro (⟨hb, huse⟩ | ⟨hnot, r, hfinds, -⟩)
    · exact ⟨hiff.1 hb, huse⟩
    · rw [hiff] at hnot
      push Not at hnot
      obtain ⟨j, hj, hfirst, hge⟩ := hnot
      -- the first block behind the table is not there
      have hfirst' := firstNamed_take_of_le hge hfirst
      have hread : ∀ k < ext2PointersPerBlock sb + 12, BlockReadable sb d.disk e k := fun k hk =>
        have hk' : k < blocks.length := by omega
        (blockReadable_iff h.blockSize (hin k hk')).2
          ⟨hk, fun b => pos_of_formatMap hk (hdir.formatMap_pos h hk')⟩
      refine absurd hfinds (not_finds_of_not_mapped h hdir (Nat.lt_of_le_of_lt hge hj) hfirst' hread
        fun hm => ?_)
      exact Nat.lt_irrefl _ hm.lt
  · exact fun hfits => .inl ⟨hiff.2 hfits.1, hfits.2⟩

/-- A lookup whose name is in the ring is a search in the directory. -/
theorem handleFindName_eq (sb : Superblock) (stack : ℕ → UInt8) (d : Device)
    (hring : Holds ringSize conn.ring name) (hcli : conn.progData = some cli)
    (hisdir : ext2IsDirectory cli.e2node = true) (hlen : name.length < fsMaxNameLen) :
    ∃ ring, handleFindName sb stack d conn name.length =
      (findInDir sb cli.e2node name (cli.e2node.lowerSize / ext2BlockSize sb + 2) d 0).map
        fun x => (x.1, { conn with ring := ring }, [findReply x.2], some name) := by
  obtain ⟨ring, hread, -⟩ := hring.read name.length
  rw [List.take_length] at hread
  have hcan := canRead_name hring hlen
  refine ⟨ring, ?_⟩
  simp only [handleFindName, hcli, hisdir, hcan, hread, nameBytes_self, Option.bind_eq_bind,
    Option.bind_some, Bool.not_true, Bool.false_eq_true, if_false, Bool.false_or,
    decide_eq_true_iff, if_neg (Nat.not_le_of_lt hlen)]
  cases findInDir sb cli.e2node name _ d 0 <;> rfl

section Request

variable (h : Geometry sb) (hd : d.Working) (hring : Holds ringSize conn.ring name)
  (hcli : conn.progData = some cli) (hisdir : ext2IsDirectory cli.e2node = true)
  (hlen : name.length < fsMaxNameLen)

include h hd hring hcli hisdir hlen

/-- A lookup whose name is in the ring is answered with what the search finds. -/
theorem lookupRight_iff_finds : LookupRight sb stack d conn blocks name ↔
    ∃ r, LookupFinds sb d cli.e2node name r ∧ AnswerRight blocks name (findReply r) := by
  obtain ⟨ring, hrun⟩ := handleFindName_eq sb stack d hring hcli hisdir hlen
  rw [LookupRight, hrun]
  constructor
  · rintro ⟨d', conn', reply, compared, hmap, hright⟩
    obtain ⟨⟨d₁, r⟩, hfind, heq⟩ := Option.map_eq_some_iff.1 hmap
    cases heq
    exact ⟨r, (exists_findInDir_eq_iff h hd).1 ⟨d₁, hfind⟩, hright⟩
  · rintro ⟨r, hfinds, hright⟩
    obtain ⟨d', hfind⟩ := (exists_findInDir_eq_iff h hd).2 hfinds
    exact ⟨d', _, _, _, by rw [hfind]; rfl, hright⟩

/-- A lookup in blocks that are read right. -/
theorem BlocksRead.lookupRight_iff (hdir : Directory sb d.disk cli.e2node blocks)
    (hb : BlocksRead sb d.disk cli.e2node blocks name) :
    LookupRight sb stack d conn blocks name ↔ FirstInUse blocks name := by
  obtain ⟨r, hfinds, hreply⟩ := hb.exists_finds h hdir
  rw [lookupRight_iff_finds h hd hring hcli hisdir hlen, ← answerRight_iff, ← hreply]
  constructor
  · rintro ⟨r', hfinds', hright⟩
    rwa [hfinds.unique h hd hfinds']
  · exact fun hright => ⟨r, hfinds, hright⟩

/-- **When name lookup is exact.** With a device that works, for every directory and every name in
the ring. -/
theorem find_name_iff (hdir : Directory sb d.disk cli.e2node blocks) :
    LookupRight sb stack d conn blocks name ↔ LookupFits sb d cli.e2node blocks name := by
  by_cases hb : BlocksRead sb d.disk cli.e2node blocks name
  · rw [hb.lookupRight_iff h hd hring hcli hisdir hlen hdir, LookupFits, and_iff_right hb,
      or_iff_left fun hnot => hnot.1 hb]
  · rw [lookupRight_iff_finds h hd hring hcli hisdir hlen, LookupFits, and_iff_right hb,
      or_iff_right fun hb' => hb hb'.1]

end Request

/-! ## A directory before and after an entry is deleted -/

/-- A directory of one block. -/
theorem directory_of_single {b : ℕ} (hsize : e.lowerSize = ext2BlockSize sb)
    (hpath : formatPath sb disk e 0 = [b]) (hb : b ≠ 0)
    (hes : blockEntries (ext2BlockSize sb) (fun c => disk (blockStart sb b + c))
      (ext2BlockSize sb + 1) 0 = some es) : Directory sb disk e [es] := by
  refine ⟨hsize.trans (Nat.one_mul _).symm, fun j hj => ?_⟩
  obtain rfl : j = 0 := Nat.lt_one_iff.1 hj
  have hmap : formatMap sb disk e 0 = b := by rw [formatMap, hpath]; rfl
  have hbytes : formatByte sb disk e 0 = fun c => disk (blockStart sb b + c) := by
    funext c
    rw [formatByte, hmap, if_neg hb]
  rw [hbytes]
  exact hes

/-- The first directory of `dirDisk`. -/
theorem dirDisk_first : (inodeRecord smallSuperblock dirDisk 1).lowerSize = 1024 ∧
    ext2IsDirectory (inodeRecord smallSuperblock dirDisk 1) = true ∧
    formatPath smallSuperblock dirDisk (inodeRecord smallSuperblock dirDisk 1) 0 = [6] := by
  decide +kernel

/-- The name `..` is found in it. -/
theorem find_name_iff_two : ∃ ring, Holds ringSize ring [0x2e, 0x2e] ∧
    LookupRight smallSuperblock (fun _ => 0) (System.connect dirDisk).dev
      ⟨ring, some (clientAt smallSuperblock dirDisk 1 0)⟩
      [[⟨1, [0x2e], 2⟩, ⟨1, [0x2e, 0x2e], 2⟩]] [0x2e, 0x2e] := by
  have hroom : ([] : List UInt8).length + [(0x2e : UInt8), 0x2e].length < ringSize := by decide
  obtain ⟨ring, -, hring, -⟩ := (System.connect_holds dirDisk).write hroom
  refine ⟨ring, hring, ?_⟩
  have hi := smallSuperblock_inode
  have h := dirDisk_wellFormed.toLaidOut.geometry hi
  obtain ⟨hsize, hisdir, hpath⟩ := dirDisk_first
  have hcli : (⟨ring, some (clientAt smallSuperblock dirDisk 1 0)⟩ : Conn).progData =
      some (clientAt smallSuperblock dirDisk 1 0) := rfl
  have hdir : Directory smallSuperblock (System.connect dirDisk).dev.disk
      (clientAt smallSuperblock dirDisk 1 0).e2node [[⟨1, [0x2e], 2⟩, ⟨1, [0x2e, 0x2e], 2⟩]] := by
    rw [System.connect_disk]
    exact directory_of_single hsize hpath (by decide) (by decide +kernel)
  refine (find_name_iff h (System.connect_working dirDisk) hring hcli hisdir (by decide) hdir).2 ?_
  refine (lookupFits_iff h hdir fun j hj b hb => ?_).2 ⟨fun j hj _ => ?_, ?_⟩
  · obtain rfl : j = 0 := Nat.lt_one_iff.1 hj
    rw [System.connect_disk] at hb
    have hb' := hpath ▸ hb
    rw [List.mem_singleton.1 hb']
    exact ⟨by decide, by unfold Near; decide⟩
  · obtain rfl : j = 0 := Nat.lt_one_iff.1 hj
    exact Nat.succ_pos _
  · intro x hx
    cases hx
    decide

/-- The image `dirDisk` with the second entry of the first directory deleted. -/
def deletedDisk : ℕ → UInt8 := writeLE 4 dirDisk (blockStart smallSuperblock 6 + 12) 0

theorem deletedDisk_wellFormed : WellFormed smallSuperblock deletedDisk := by
  refine .of_small (by decide +kernel) (by decide +kernel) (by decide +kernel) (fun i hi => ?_)
    (by decide +kernel) (by decide +kernel)
  have h₃ : blockStart smallSuperblock 3 = 1051648 := by decide
  have h₆ : blockStart smallSuperblock 6 = 1054720 := by decide
  rw [deletedDisk, writeLE_of_notMem (by omega), dirDisk, List.cons_append,
    image_ones (by decide) hi]

theorem deletedDisk_first : (inodeRecord smallSuperblock deletedDisk 1).lowerSize = 1024 ∧
    ext2IsDirectory (inodeRecord smallSuperblock deletedDisk 1) = true ∧
    formatPath smallSuperblock deletedDisk (inodeRecord smallSuperblock deletedDisk 1) 0 = [6] := by
  decide +kernel

/-- The name of the deleted entry is found, with the inode zero. -/
theorem find_name_deleted : ¬ ∀ (sb : Superblock) (stack : ℕ → UInt8) (d : Device) (conn : Conn)
    (cli : ClientState) (inode : ℕ) (blocks : List (List DirEntry)) (name : List UInt8),
    WellFormed sb d.disk → d.Working → IsInode sb inode →
    cli.e2node = inodeRecord sb d.disk inode → ext2IsDirectory cli.e2node = true →
    FullyMapped sb d.disk cli.e2node → Directory sb d.disk cli.e2node blocks →
    Holds ringSize conn.ring name → conn.progData = some cli → 1 ≤ name.length →
    name.length ≤ 255 → LookupRight sb stack d conn blocks name := by
  intro hall
  have hroom : ([] : List UInt8).length + [(0x2e : UInt8), 0x2e].length < ringSize := by decide
  obtain ⟨ring, -, hring, -⟩ := (System.connect_holds deletedDisk).write hroom
  have wf := deletedDisk_wellFormed.connect
  have hi := smallSuperblock_inode
  have h := wf.toLaidOut.geometry hi
  have hd := System.connect_working deletedDisk
  obtain ⟨hsize, hisdir, hpath⟩ := deletedDisk_first
  have he : (clientAt smallSuperblock deletedDisk 1 0).e2node =
      inodeRecord smallSuperblock (System.connect deletedDisk).dev.disk 1 := by
    rw [System.connect_disk]
    rfl
  have hfull : FullyMapped smallSuperblock (System.connect deletedDisk).dev.disk
      (clientAt smallSuperblock deletedDisk 1 0).e2node := by
    rw [he, System.connect_disk]
    exact fullyMapped_of_single hsize.le hpath (by decide)
  have hcli : (⟨ring, some (clientAt smallSuperblock deletedDisk 1 0)⟩ : Conn).progData =
      some (clientAt smallSuperblock deletedDisk 1 0) := rfl
  have hdir : Directory smallSuperblock (System.connect deletedDisk).dev.disk
      (clientAt smallSuperblock deletedDisk 1 0).e2node
      [[⟨1, [0x2e], 2⟩, ⟨0, [0x2e, 0x2e], 2⟩]] := by
    rw [he, System.connect_disk]
    exact directory_of_single hsize hpath (by decide) (by decide +kernel)
  have hright := hall smallSuperblock (fun _ => 0) (System.connect deletedDisk).dev
    ⟨ring, some (clientAt smallSuperblock deletedDisk 1 0)⟩ _ 1 _ [0x2e, 0x2e] wf hd hi he hisdir
    hfull hdir hring hcli (by decide) (by decide)
  have hb : BlocksRead smallSuperblock (System.connect deletedDisk).dev.disk
      (clientAt smallSuperblock deletedDisk 1 0).e2node
      [[⟨1, [0x2e], 2⟩, ⟨0, [0x2e, 0x2e], 2⟩]] [0x2e, 0x2e] := by
    refine (blocksRead_iff h hdir (fun j hj b hb => ?_) _).2 fun j hj _ => ?_
    · obtain rfl : j = 0 := Nat.lt_one_iff.1 hj
      rw [he, System.connect_disk, hpath] at hb
      rw [List.mem_singleton.1 hb]
      exact ⟨by decide, by unfold Near; decide⟩
    · obtain rfl : j = 0 := Nat.lt_one_iff.1 hj
      exact Nat.succ_pos _
  have huse := (hb.lookupRight_iff h hd hring hcli hisdir (by decide) hdir).1 hright
  exact huse ⟨0, [0x2e, 0x2e], 2⟩ (by decide) rfl

end C4OS.Ext2
