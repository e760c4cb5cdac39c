import C4OS.Ext2.Inodes

/-!
# Listing a directory

What a client gets that calls `fs_next_dirent` again and again. When the ring is empty the server
sends one record for each entry of the next block, and the client takes the records out one by one.
There is room for fourteen records in any case, and for fifteen when the indices do not wrap before
the last one (`recordRoom`). The server leaves out the other entries without saying so, and goes on
with the next block (`listing_sent`); an entry that is not in use is sent like the others. So a
directory is listed entry by entry when the records of each block fit (`listing_complete`), and one
with sixteen entries in a block is not (`listing_loses_entry`).

`blockEntries` is what a block of a directory means: its records, from the first one on, each of
them at least as long as its name, up to the end of the block.
-/

namespace C4OS.Ext2

open Foundations Ringbuffer

variable {sb : Superblock} {disk byte : ℕ → UInt8} {d : Device} {e : Inode} {sys : System}
  {ring : C4Ringbuf} {l : List UInt8} {fuel off i : ℕ}

/-! ## Directories -/

/-- An entry of a directory. -/
structure DirEntry where
  inode : ℕ
  name : List UInt8
  type : ℕ
  deriving DecidableEq

/-- The entry that a client is to see, with the type in the numbers of the interface. -/
def DirEntry.translate (x : DirEntry) : DirEntry := { x with type := (translateType x.type).toNat }

/-- The entry whose record is at an offset. -/
def entryAt (byte : ℕ → UInt8) (off : ℕ) : DirEntry where
  inode := readLE 4 byte off
  name := (List.range (readLE 1 byte (off + 6))).map fun i => byte (off + 8 + i)
  type := readLE 1 byte (off + 7)

/-- The entries of a block from an offset on, when the records are legal. -/
def blockEntries (bs : ℕ) (byte : ℕ → UInt8) : ℕ → ℕ → Option (List DirEntry)
  | 0, _ => none
  | fuel + 1, off =>
    if off = bs then some []
    else
      let size := readLE 2 byte (off + 4)
      if 4 ∣ size ∧ 8 + readLE 1 byte (off + 6) ≤ size ∧ off + size ≤ bs then do
        let rest ← blockEntries bs byte fuel (off + size)
        return entryAt byte off :: rest
      else
        none

/-- The blocks of a directory from some block on, with their entries. -/
structure DirBlocks (sb : Superblock) (disk : ℕ → UInt8) (e : Inode) (i : ℕ)
    (blocks : List (List DirEntry)) : Prop where
  size : e.lowerSize = (i + blocks.length) * ext2BlockSize sb
  entries : ∀ j (h : j < blocks.length), blockEntries (ext2BlockSize sb)
    (fun c => disk (blockStart sb (fileMap sb disk e (i + j)) + c)) (ext2BlockSize sb + 1) 0 =
      some blocks[j]

theorem blockEntries_cons {bs : ℕ} {es : List DirEntry}
    (h : blockEntries bs byte (fuel + 1) off = some es) :
    off = bs ∧ es = [] ∨ off ≠ bs ∧ 8 + readLE 1 byte (off + 6) ≤ readLE 2 byte (off + 4) ∧
      off + readLE 2 byte (off + 4) ≤ bs ∧ ∃ rest,
        blockEntries bs byte fuel (off + readLE 2 byte (off + 4)) = some rest ∧
        es = entryAt byte off :: rest := by
  rw [blockEntries] at h
  split at h
  · next hoff =>
    cases h
    exact .inl ⟨hoff, rfl⟩
  · next hoff =>
    simp only at h
    split at h
    · next hrec =>
      obtain ⟨rest, hrest, hes⟩ := Option.bind_eq_some_iff.1 h
      cases hes
      exact .inr ⟨hoff, hrec.2.1, hrec.2.2, rest, hrest, rfl⟩
    · cases h

/-- A block that is not empty has an entry. -/
theorem blockEntries_ne_nil {bs : ℕ} (hpos : 0 < bs) : blockEntries bs byte fuel 0 ≠ some [] := by
  intro h
  cases fuel with
  | zero => cases h
  | succ fuel =>
    rcases blockEntries_cons h with ⟨h₀, -⟩ | ⟨-, -, -, rest, -, hes⟩
    · omega
    · cases hes

/-! ## Records -/

/-- The entry in the bytes of an `fs_dirent_t`. -/
def direntEntry (bytes : List UInt8) : DirEntry :=
  let byte (i : ℕ) := bytes.getD i 0
  ⟨readLE 4 byte 260, bytes.take (readLE 4 byte 256), readLE 4 byte 264⟩

theorem length_fsDirentBytes (name : ℕ → UInt8) (nameLen inode type : ℕ) :
    (fsDirentBytes name nameLen inode type).length = fsDirentSize := by
  simp [fsDirentBytes]

/-- The bytes of an `fs_dirent_t` behind the name. -/
theorem getD_fsDirentBytes {name : ℕ → UInt8} {nameLen inode type : ℕ} (hi : i < 12) :
    (fsDirentBytes name nameLen inode type).getD (256 + i) 0 =
      writeLE 4 (writeLE 4 (writeLE 4 (fun _ => 0) 0 nameLen) 4 inode) 8 type i := by
  have hlen : ((List.range fsMaxNameLen).map name).length ≤ 256 + i := by simp
  rw [fsDirentBytes, List.getD_eq_getElem?_getD, List.getElem?_append_right hlen]
  simp [hi]

/-- A client finds what the server put into a record. -/
theorem direntEntry_fsDirentBytes {name : ℕ → UInt8} {nameLen inode type : ℕ} (hlen : nameLen ≤ 256)
    (hinode : inode < 2 ^ 32) (htype : type < 2 ^ 32) :
    direntEntry (fsDirentBytes name nameLen inode type) =
      ⟨inode, (List.range nameLen).map name, type⟩ := by
  have hread : ∀ a, a + 4 ≤ 12 → readLE 4 (fun i => (fsDirentBytes name nameLen inode type).getD i 0)
      (256 + a) = readLE 4 (writeLE 4 (writeLE 4 (writeLE 4 (fun _ => 0) 0 nameLen) 4 inode) 8 type)
        a := by
    intro a ha
    refine readLE_congr_at fun i hi => ?_
    rw [Nat.add_assoc]
    exact getD_fsDirentBytes (by omega)
  have hlen' : readLE 4 (fun i => (fsDirentBytes name nameLen inode type).getD i 0) 256 =
      nameLen := by
    refine (hread 0 (by decide)).trans ?_
    rw [readLE_writeLE_of_disjoint (by decide), readLE_writeLE_of_disjoint (by decide),
      readLE_writeLE_self]
    exact Nat.mod_eq_of_lt (by omega)
  have hinode' : readLE 4 (fun i => (fsDirentBytes name nameLen inode type).getD i 0) 260 =
      inode := by
    refine (hread 4 (by decide)).trans ?_
    rw [readLE_writeLE_of_disjoint (by decide), readLE_writeLE_self]
    exact Nat.mod_eq_of_lt hinode
  have htype' : readLE 4 (fun i => (fsDirentBytes name nameLen inode type).getD i 0) 264 =
      type := by
    refine (hread 8 (by decide)).trans ?_
    rw [readLE_writeLE_self]
    exact Nat.mod_eq_of_lt htype
  simp only [direntEntry, hlen', hinode', htype', DirEntry.mk.injEq, true_and, and_true]
  rw [fsDirentBytes, List.take_append_of_le_length (by simpa using hlen), ← List.map_take,
    List.take_range, Nat.min_eq_left hlen]

/-- The records of some entries. -/
structure Records (rs : List (List UInt8)) (es : List DirEntry) : Prop where
  length : ∀ r ∈ rs, r.length = fsDirentSize
  entries : rs.map direntEntry = es.map DirEntry.translate

namespace Records

variable {rs : List (List UInt8)} {es : List DirEntry}

theorem nil : Records [] [] := ⟨fun _ h => absurd h List.not_mem_nil, rfl⟩

theorem cons {r : List UInt8} {x : DirEntry} (h : Records rs es) (hr : r.length = fsDirentSize)
    (hx : direntEntry r = x.translate) : Records (r :: rs) (x :: es) where
  length := List.forall_mem_cons.2 ⟨hr, h.length⟩
  entries := by rw [List.map_cons, List.map_cons, hx, h.entries]

theorem exists_cons {x : DirEntry} (h : Records rs (x :: es)) : ∃ r rs', rs = r :: rs' ∧
    r.length = fsDirentSize ∧ direntEntry r = x.translate ∧ Records rs' es := by
  obtain ⟨hlen, hes⟩ := h
  cases rs with
  | nil => cases hes
  | cons r rs' =>
    obtain ⟨hr, hrest⟩ := List.forall_mem_cons.1 hlen
    rw [List.map_cons, List.map_cons, List.cons.injEq] at hes
    exact ⟨r, rs', rfl, hr, hes.1, hrest, hes.2⟩

theorem length_flatten (h : Records rs es) : rs.flatten.length = fsDirentSize * es.length := by
  induction es generalizing rs with
  | nil =>
    obtain rfl : rs = [] := List.map_eq_nil_iff.1 h.entries
    rfl
  | cons x es ih =>
    obtain ⟨r, rs', rfl, hr, -, hrs⟩ := h.exists_cons
    rw [List.flatten_cons, List.length_append, hr, ih hrs, List.length_cons, Nat.mul_add,
      Nat.mul_one, Nat.add_comm]

end Records

/-! ## The ring -/

/-- What `c4_ringbuf_available` takes for the number of bytes in the ring, when the indices wrap. -/
theorem wrapped_mod {k : ℕ} (hk : k ≤ 14) : (268 * k + 2 ^ 32) % 4084 = 268 * k + 108 := by
  have hword : 268 * k + 2 ^ 32 = 268 * k + 108 + 4084 * 1051657 := by omega
  rw [hword, Nat.add_mul_mod_self_left, Nat.mod_eq_of_lt (by omega)]

/-- The number of records for which there is room in an empty ring whose indices are at `s`. -/
def recordRoom (s : ℕ) : ℕ := if s ≤ 331 then 15 else 14

theorem recordRoom_le (s : ℕ) : recordRoom s ≤ 15 := by
  unfold recordRoom
  split <;> omega

/-- There is room for one more record behind `k` of them. -/
theorem canWrite_record {k : ℕ} (hring : Holds ringSize ring l) (hl : l.length = fsDirentSize * k)
    (hk : k < recordRoom ring.readIndex) : c4RingbufCanWrite ring fsDirentSize = some true := by
  have hroom := recordRoom_le ring.readIndex
  rw [hring.1.canWrite_eq, hring.used_eq, hl]
  congr 1
  rw [decide_eq_true_iff]
  split
  · show 268 < 4084 - 268 * k
    omega
  · next hge =>
    have hge' : ¬ ring.readIndex + 268 * k < 4084 := hge
    have hk' : k ≤ 13 := by
      unfold recordRoom at hk
      split at hk <;> omega
    show 268 < 4084 - (268 * k + 2 ^ 32) % 4084
    rw [wrapped_mod (by omega)]
    omega

/-- There is no room behind the last record. -/
theorem canWrite_full (hring : Holds ringSize ring l)
    (hl : l.length = fsDirentSize * recordRoom ring.readIndex)
    (hs : ring.readIndex ≤ 63 ∨ 331 < ring.readIndex) :
    c4RingbufCanWrite ring fsDirentSize = some false := by
  rw [hring.1.canWrite_eq, hring.used_eq]
  congr 1
  rw [decide_eq_false_iff_not]
  rcases hs with hs | hs
  · have hroom : recordRoom ring.readIndex = 15 := if_pos (by omega)
    rw [hl, hroom, if_pos (by show _ + 268 * 15 < 4084; omega)]
    decide
  · have hroom : recordRoom ring.readIndex = 14 := if_neg (by omega)
    rw [hl, hroom, if_neg (by show ¬ _ + 268 * 14 < 4084; omega)]
    decide

/-- A record is read when there are some, but not fifteen of them. -/
theorem canRead_record {k : ℕ} (hring : Holds ringSize ring l) (hl : l.length = fsDirentSize * k)
    (hk : k ≤ 14) : c4RingbufCanRead ring fsDirentSize = some (decide (0 < k)) := by
  rw [hring.1.canRead_eq, hring.used_eq, hl]
  have hread : ring.readIndex < 4084 := hring.1.read_lt
  congr 1
  rw [decide_eq_decide]
  split
  · show 268 ≤ 268 * k ↔ 0 < k
    omega
  · next hge =>
    have hge' : ¬ ring.readIndex + 268 * k < 4084 := hge
    show 268 ≤ (268 * k + 2 ^ 32) % 4084 ↔ 0 < k
    rw [wrapped_mod hk]
    omega

/-! ## The server -/

/-- The entry at an offset is put into the ring. -/
theorem sendDirent_eq {bs size : ℕ} (hbs : bs ≤ 4096) (hbuf : ∀ c < bs, d.buffer c = byte c)
    (hrec : off + 8 + readLE 1 byte (off + 6) ≤ bs) (hring : Holds ringSize ring l)
    (hcan : c4RingbufCanWrite ring fsDirentSize = some true)
    (hroom : l.length + fsDirentSize < ringSize) (name : ℕ → UInt8) :
    ∃ ring' name' r, sendDirent d ring off ⟨readLE 4 byte off, size, readLE 1 byte (off + 6),
        readLE 1 byte (off + 7)⟩ name = some (ring', name', true) ∧
      Holds ringSize ring' (l ++ r) ∧ r.length = fsDirentSize ∧
      direntEntry r = (entryAt byte off).translate ∧ ring'.readIndex = ring.readIndex := by
  have hlen : readLE 1 byte (off + 6) < 256 := readLE_lt 1 byte _
  have hinode : readLE 4 byte off < 2 ^ 32 := readLE_lt 4 byte _
  generalize hk : readLE 1 byte (off + 6) = k at *
  have hmin : min k (fsMaxNameLen - 1) = k := Nat.min_eq_left (by show k ≤ 255; omega)
  have hload : d.loadBytes (off + 8) k = some ((List.range k).map fun i => byte (off + 8 + i)) := by
    rw [Device.loadBytes, if_pos (by show _ ≤ 4096; omega)]
    congr 1
    exact List.map_congr_left fun i hi => hbuf _ (by have := List.mem_range.1 hi; omega)
  let name' : ℕ → UInt8 := fun i =>
    if i < k then ((List.range k).map fun i => byte (off + 8 + i)).getD i 0
    else if i = k then 0 else name i
  have hname : (List.range k).map name' = (List.range k).map fun i => byte (off + 8 + i) := by
    refine List.map_congr_left fun i hi => ?_
    have hi := List.mem_range.1 hi
    simp [name', hi]
  have hcopy : copyName d off ⟨readLE 4 byte off, size, k, readLE 1 byte (off + 7)⟩ name =
      some name' := by
    rw [copyName]
    simp only [hmin]
    exact run_bind hload rfl
  have htype : (translateType (readLE 1 byte (off + 7))).toNat < 2 ^ 32 := by
    cases translateType (readLE 1 byte (off + 7)) <;> decide
  generalize hr : fsDirentBytes name' k (readLE 4 byte off)
    (translateType (readLE 1 byte (off + 7))).toNat = r
  have hrlen : r.length = fsDirentSize := by rw [← hr, length_fsDirentBytes]
  obtain ⟨ring', hwrite, hring', hidx⟩ :=
    hring.write (by rwa [hrlen] : l.length + r.length < ringSize)
  refine ⟨ring', name', r, ?_, hring', hrlen, ?_, hidx⟩
  · refine run_bind hcopy (run_bind hcan ((if_pos rfl).trans ?_))
    simp only [hr]
    exact run_bind hwrite rfl
  · rw [← hr, direntEntry_fsDirentBytes (by omega) hinode htype, hname, DirEntry.translate,
      entryAt, hk]

/-- An entry without room in the ring is left out. -/
theorem sendDirent_full (d : Device) (ent : Dirent) (hname : off + 8 + ent.nameLength ≤ pageSize)
    (hcan : c4RingbufCanWrite ring fsDirentSize = some false) (name : ℕ → UInt8) :
    ∃ name', sendDirent d ring off ent name = some (ring, name', false) := by
  have hmin := Nat.min_le_left ent.nameLength (fsMaxNameLen - 1)
  exact ⟨_, run_bind (run_bind (if_pos (by omega)) rfl) (run_bind hcan rfl)⟩

/-- The loop over the entries of a block sends as many of them as there is room for. When the
indices wrap behind the fifteenth record, there may be no more entries than these. -/
theorem listLoop_eq (hbs : ext2BlockSize sb ≤ 4096)
    (hbuf : ∀ c < ext2BlockSize sb, d.buffer c = byte c) {k : ℕ} {es : List DirEntry} (sent : ℕ)
    (name : ℕ → UInt8) (h : blockEntries (ext2BlockSize sb) byte fuel off = some es)
    (hring : Holds ringSize ring l) (hl : l.length = fsDirentSize * k)
    (hk : k ≤ recordRoom ring.readIndex)
    (hfit : k + es.length ≤ 15 ∨ ring.readIndex ≤ 63 ∨ 331 < ring.readIndex) :
    ∃ ring' rs, listLoop sb d fuel ring name off sent =
        some (ring', sent + (es.take (recordRoom ring.readIndex - k)).length) ∧
      Holds ringSize ring' (l ++ rs.flatten) ∧
      Records rs (es.take (recordRoom ring.readIndex - k)) ∧ ring'.readIndex = ring.readIndex := by
  induction fuel generalizing off ring l name k sent es with
  | zero => cases h
  | succ fuel ih =>
    rw [listLoop]
    rcases blockEntries_cons h with ⟨rfl, rfl⟩ | ⟨hoff, hname, hle, rest, hrest, rfl⟩
    · rw [if_neg (Nat.lt_irrefl _), List.take_nil]
      refine ⟨ring, [], rfl, ?_, .nil, rfl⟩
      rwa [List.flatten_nil, List.append_nil]
    · rw [List.length_cons] at hfit
      have hload : d.loadDirent off = some ⟨readLE 4 byte off, readLE 2 byte (off + 4),
          readLE 1 byte (off + 6), readLE 1 byte (off + 7)⟩ := by
        have hread : ∀ {a n : ℕ}, a + n ≤ off + 8 → d.load n a = some (readLE n byte a) := by
          intro a n ha
          rw [Device.load, if_pos (by show _ ≤ 4096; omega)]
          congr 1
          exact readLE_congr fun i hi => hbuf _ (by omega)
        refine run_bind (hread (by omega)) (run_bind (hread (by omega)) (run_bind (hread (by omega))
          (run_bind (hread (by omega)) rfl)))
      have hrec : off + 8 + readLE 1 byte (off + 6) ≤ ext2BlockSize sb := by omega
      have hroom := recordRoom_le ring.readIndex
      rw [if_pos (by omega)]
      rcases Nat.lt_or_eq_of_le hk with hlt | hfull
      · -- the entry is sent
        have hroom' : l.length + fsDirentSize < ringSize := by
          rw [hl]
          show 268 * k + 268 < 4084
          omega
        obtain ⟨ring₁, name₁, r, hsend, hring₁, hr, hx, hidx⟩ :=
          sendDirent_eq hbs hbuf hrec hring (canWrite_record hring hl hlt) hroom' name
        have hl₁ : (l ++ r).length = fsDirentSize * (k + 1) := by
          rw [List.length_append, hl, hr, Nat.mul_add, Nat.mul_one]
        obtain ⟨ring', rs, hrun, hring', hrs, hidx'⟩ := ih (sent + 1) name₁ hrest hring₁ hl₁
          (by rw [hidx]; omega) (by rw [hidx]; omega)
        rw [hidx] at hrun hrs
        have htake : (entryAt byte off :: rest).take (recordRoom ring.readIndex - k) =
            entryAt byte off :: rest.take (recordRoom ring.readIndex - (k + 1)) := by
          obtain ⟨m, hm⟩ : ∃ m, recordRoom ring.readIndex - k = m + 1 :=
            ⟨recordRoom ring.readIndex - (k + 1), by omega⟩
          have hm' : recordRoom ring.readIndex - (k + 1) = m := by omega
          rw [hm, hm', List.take_succ_cons]
        rw [htake]
        refine ⟨ring', r :: rs, ?_, ?_, hrs.cons hr hx, hidx'.trans hidx⟩
        · refine run_bind hload (run_bind hsend ?_)
          simp only [if_true]
          rw [hrun, List.length_cons]
          congr 2
          omega
        · rwa [List.flatten_cons, ← List.append_assoc]
      · -- the entry is left out, and so are those behind it
        have hpage : off + 8 + readLE 1 byte (off + 6) ≤ pageSize := Nat.le_trans hrec hbs
        have hs : ring.readIndex ≤ 63 ∨ 331 < ring.readIndex := by
          unfold recordRoom at hfull
          split at hfull <;> omega
        obtain ⟨name₁, hsend⟩ := sendDirent_full d ⟨readLE 4 byte off, readLE 2 byte (off + 4),
          readLE 1 byte (off + 6), readLE 1 byte (off + 7)⟩ hpage
          (canWrite_full hring (hfull ▸ hl) hs) name
        obtain ⟨ring', rs, hrun, hring', hrs, hidx'⟩ := ih sent name₁ hrest hring hl hk (.inr hs)
        rw [hfull, Nat.sub_self, List.take_zero] at hrun hrs ⊢
        refine ⟨ring', rs, run_bind hload (run_bind hsend ?_), hring', hrs, hidx'⟩
        simp only [Bool.false_eq_true, if_false]
        rw [hrun]

variable {conn : Conn} {fsnode : FsNode} {es : List DirEntry} (stack : ℕ → UInt8)
  {blocks : List (List DirEntry)}

/-- **A request sends the entries of the next block**, as far as there is room. -/
theorem handleListDir_eq (h : sb.blockSize ≤ 2) (hd : d.Working) (hm : FileMapped sb d.disk e)
    (hn : FileNear sb d.disk e) (hcli : conn.progData = some ⟨fsnode, e, i⟩)
    (hb : DirBlocks sb d.disk e i (es :: blocks)) (hring : Holds ringSize conn.ring [])
    (hfit : es.length ≤ 15 ∨ conn.ring.readIndex ≤ 63 ∨ 331 < conn.ring.readIndex) :
    ∃ d' ring' rs, handleListDir sb stack d conn = some (d', ⟨ring', some ⟨fsnode, e, i + 1⟩⟩,
        [.completed [(es.take (recordRoom conn.ring.readIndex)).length]]) ∧
      d'.disk = d.disk ∧ d'.Working ∧ Holds ringSize ring' rs.flatten ∧
      Records rs (es.take (recordRoom conn.ring.readIndex)) ∧
      ring'.readIndex = conn.ring.readIndex := by
  have hbs : 0 < ext2BlockSize sb ∧ ext2BlockSize sb ≤ 4096 :=
    ⟨ext2BlockSize_pos h, ext2BlockSize_le h⟩
  have hsize : e.lowerSize < 2 ^ 32 := readLE_lt 4 _ _
  have hlt : (i + 1) * ext2BlockSize sb ≤ e.lowerSize := by
    rw [hb.size, List.length_cons]
    exact Nat.mul_le_mul_right _ (by omega)
  have hmul := Nat.le_mul_of_pos_right (i + 1) hbs.1
  rw [Nat.add_mul, Nat.one_mul] at hlt
  rw [Nat.add_mul, Nat.one_mul] at hmul
  have hmod : i * ext2BlockSize sb % wordSize = i * ext2BlockSize sb :=
    Nat.mod_eq_of_lt (by show _ < 2 ^ 32; omega)
  have hindex : (i + 1) % wordSize = i + 1 := Nat.mod_eq_of_lt (by show _ < 2 ^ 32; omega)
  obtain ⟨d', hread, hdisk, hd', hbuf⟩ :=
    ext2InodeReadBlock_eq h hd (hm i (by omega)) (hn i (by omega))
  have hentries := hb.entries 0 (Nat.succ_pos _)
  rw [List.getElem_cons_zero] at hentries
  obtain ⟨ring', rs, hrun, hring', hrs, hidx⟩ := listLoop_eq (d := d') (k := 0) hbs.2 hbuf 0 stack
    hentries hring rfl (Nat.zero_le _) (by rwa [Nat.zero_add])
  rw [Nat.sub_zero] at hrun hrs
  refine ⟨d', ring', rs, ?_, hdisk, hd', hring', hrs, hidx⟩
  rw [handleListDir, hcli]
  simp only [hmod]
  rw [if_neg (by omega)]
  refine run_bind hread ((if_neg (by simp)).trans (run_bind hrun ?_))
  simp only [hindex, Nat.zero_add]
  rfl

/-- At the end of the directory nothing is sent. -/
theorem handleListDir_end (hcli : conn.progData = some ⟨fsnode, e, i⟩)
    (hb : DirBlocks sb d.disk e i []) :
    handleListDir sb stack d conn = some (d, conn, [.completed [0]]) := by
  have hsize : e.lowerSize < 2 ^ 32 := readLE_lt 4 _ _
  have hend : e.lowerSize = i * ext2BlockSize sb := hb.size
  have hmod : i * ext2BlockSize sb % wordSize = i * ext2BlockSize sb :=
    Nat.mod_eq_of_lt (by show _ < 2 ^ 32; omega)
  rw [handleListDir, hcli]
  simp only [hmod]
  exact if_pos hend.le

theorem DirBlocks.tail (hb : DirBlocks sb disk e i (es :: blocks)) :
    DirBlocks sb disk e (i + 1) blocks where
  size := by
    have := hb.size
    rwa [List.length_cons, Nat.add_comm blocks.length, ← Nat.add_assoc] at this
  entries j hj := by
    have hindex : i + 1 + j = i + (j + 1) := by omega
    rw [hindex]
    exact hb.entries (j + 1) (Nat.succ_lt_succ hj)

/-! ## The client -/

/-- The entries of the blocks that are sent, when the indices of the ring are at `s` before. -/
def sentEntries : ℕ → List (List DirEntry) → List (List DirEntry)
  | _, [] => []
  | s, es :: blocks => es.take (recordRoom s) ::
    sentEntries ((s + fsDirentSize * (es.take (recordRoom s)).length) % ringSize) blocks

/-- No record is cut off in the middle: a block has at most fifteen entries, or the indices do not
wrap behind the fifteenth record. -/
def RecordsWhole : ℕ → List (List DirEntry) → Prop
  | _, [] => True
  | s, es :: blocks => (es.length ≤ 15 ∨ s ≤ 63 ∨ 331 < s) ∧
    RecordsWhole ((s + fsDirentSize * (es.take (recordRoom s)).length) % ringSize) blocks

/-- The records of the blocks fit into the ring one block after the other, the first of them from
the index `s` on. -/
def EntriesFit : ℕ → List (List DirEntry) → Prop
  | _, [] => True
  | s, es :: blocks => es.length ≤ recordRoom s ∧
    EntriesFit ((s + fsDirentSize * es.length) % ringSize) blocks

theorem EntriesFit.sent {s : ℕ} (h : EntriesFit s blocks) :
    RecordsWhole s blocks ∧ sentEntries s blocks = blocks := by
  induction blocks generalizing s with
  | nil => exact ⟨trivial, rfl⟩
  | cons es blocks ih =>
    obtain ⟨hlen, hrest⟩ := h
    obtain ⟨hwhole, hsent⟩ := ih hrest
    rw [RecordsWhole, sentEntries, List.take_of_length_le hlen, hsent]
    exact ⟨⟨.inl (Nat.le_trans hlen (recordRoom_le s)), hwhole⟩, rfl⟩

theorem sentEntries_ne_nil {s : ℕ} (h : ∀ b ∈ blocks, b ≠ []) :
    ∀ b ∈ sentEntries s blocks, b ≠ [] := by
  induction blocks generalizing s with
  | nil => exact h
  | cons es blocks ih =>
    obtain ⟨hes, hrest⟩ := List.forall_mem_cons.1 h
    refine List.forall_mem_cons.2 ⟨fun hnil => ?_, ih hrest⟩
    rcases List.take_eq_nil_iff.1 hnil with hzero | hnil
    · unfold recordRoom at hzero
      split at hzero <;> cases hzero
    · exact hes hnil

/-- The records of the entries `es` are in the ring, and the entries of the blocks `bs` follow. -/
structure Listing (sb : Superblock) (disk : ℕ → UInt8) (e : Inode) (es : List DirEntry)
    (bs : List (List DirEntry)) (sys : System) : Prop where
  working : sys.dev.Working
  disk_eq : sys.dev.disk = disk
  inbox : sys.inbox = []
  few : es.length ≤ 14
  client : ∃ fsnode i rs blocks, sys.conn.progData = some ⟨fsnode, e, i⟩ ∧
    DirBlocks sb disk e i blocks ∧ Holds ringSize sys.conn.ring rs.flatten ∧ Records rs es ∧
    RecordsWhole sys.conn.ring.writeIndex blocks ∧ sentEntries sys.conn.ring.writeIndex blocks = bs

variable {bs : List (List DirEntry)}

/-- The records of a block were received. -/
theorem Listing.fsListDir (hl : Listing sb disk e [] (es :: bs) sys) (h : sb.blockSize ≤ 2)
    (hm : FileMapped sb disk e) (hn : FileNear sb disk e) :
    ∃ sys', fsListDir sb stack sys = some (sys', es.length) ∧ es.length ≤ 15 ∧ sys'.dev.Working ∧
      sys'.dev.disk = disk ∧ sys'.inbox = [] ∧ ∃ fsnode i rs blocks,
        sys'.conn.progData = some ⟨fsnode, e, i⟩ ∧ DirBlocks sb disk e i blocks ∧
        Holds ringSize sys'.conn.ring rs.flatten ∧ Records rs es ∧
        RecordsWhole sys'.conn.ring.writeIndex blocks ∧
        sentEntries sys'.conn.ring.writeIndex blocks = bs := by
  obtain ⟨hd, rfl, hinbox, -, fsnode, i, rs, blocks, hcli, hb, hring, hrs, hwhole, hsent⟩ := hl
  obtain rfl : rs = [] := List.map_eq_nil_iff.1 hrs.entries
  rw [List.flatten_nil] at hring
  -- an empty ring begins where it ends
  have hstart : sys.conn.ring.writeIndex = sys.conn.ring.readIndex := by
    rw [hring.writeIndex_eq, List.length_nil, Nat.add_zero, Nat.mod_eq_of_lt hring.1.read_lt]
  rw [hstart] at hwhole hsent
  cases blocks with
  | nil => cases hsent
  | cons es₀ blocks =>
    rw [sentEntries, List.cons.injEq] at hsent
    obtain ⟨rfl, hsent⟩ := hsent
    obtain ⟨d', ring', rs', hrun, hdisk, hd', hring', hrs', hidx⟩ :=
      handleListDir_eq stack h hd hm hn hcli hb hring hwhole.1
    have hend : ring'.writeIndex = (sys.conn.ring.readIndex +
        fsDirentSize * (es₀.take (recordRoom sys.conn.ring.readIndex)).length) % ringSize := by
      rw [hring'.writeIndex_eq, hidx, hrs'.length_flatten]
    refine ⟨⟨d', ⟨ring', some ⟨fsnode, e, i + 1⟩⟩, [], sys.index⟩, ?_, ?_, hd', hdisk, rfl, fsnode,
      i + 1, rs', blocks, rfl, hb.tail, hring', hrs', hend ▸ hwhole.2, hend ▸ hsent⟩
    · refine run_bind hrun ?_
      simp only [receive, hinbox]
      rfl
    · exact Nat.le_trans (List.length_take_le _ _) (recordRoom_le _)

/-- An entry whose record is in the ring is read. -/
theorem readDirent {x : DirEntry} {rs : List (List UInt8)} (hring : Holds ringSize ring rs.flatten)
    (hrs : Records rs (x :: es)) : ∃ ring' r rs', c4RingbufRead ring fsDirentSize = some (ring', r) ∧
      direntEntry r = x.translate ∧ Holds ringSize ring' rs'.flatten ∧ Records rs' es ∧
      ring'.writeIndex = ring.writeIndex := by
  obtain ⟨r, rs', rfl, hr, hx, hrs'⟩ := hrs.exists_cons
  obtain ⟨ring', hread, hring', hidx⟩ := hring.read fsDirentSize
  rw [List.flatten_cons, List.take_left' hr] at hread
  rw [List.flatten_cons, List.drop_left' hr] at hring'
  exact ⟨ring', r, rs', hread, hx, hring', hrs', hidx⟩

/-- The call of `fs_next_dirent` at an entry of the block that was sent last. -/
theorem Listing.next {x : DirEntry} (hl : Listing sb disk e (x :: es) bs sys) :
    ∃ sys' r, fsNextDirent sb stack sys = some (sys', some r) ∧ direntEntry r = x.translate ∧
      Listing sb disk e es bs sys' := by
  obtain ⟨hd, hdisk, hinbox, hfew, fsnode, i, rs, blocks, hcli, hb, hring, hrs, hsent⟩ := hl
  rw [List.length_cons] at hfew
  have hcan := canRead_record hring hrs.length_flatten hfew
  obtain ⟨ring', r, rs', hread, hx, hring', hrs', hidx⟩ := readDirent hring hrs
  refine ⟨{ sys with conn := { sys.conn with ring := ring' } }, r, ?_, hx, hd, hdisk, hinbox,
    by omega, fsnode, i, rs', blocks, hcli, hb, hring', hrs', hidx.symm ▸ hsent⟩
  refine run_bind hcan ?_
  rw [if_pos (decide_eq_true (by rw [List.length_cons]; omega))]
  exact run_bind hread rfl

/-- A client finds no record in an empty ring. -/
theorem Listing.canRead_nil (hl : Listing sb disk e [] bs sys) :
    c4RingbufCanRead sys.conn.ring fsDirentSize = some false := by
  obtain ⟨-, -, -, -, -, -, rs, -, -, -, hring, hrs, -⟩ := hl
  exact canRead_record hring hrs.length_flatten (Nat.zero_le _)

/-- The call at the first entry of a block, which requests the block. -/
theorem Listing.next_block {x : DirEntry} (hl : Listing sb disk e [] ((x :: es) :: bs) sys)
    (h : sb.blockSize ≤ 2) (hm : FileMapped sb disk e) (hn : FileNear sb disk e) :
    ∃ sys' r, fsNextDirent sb stack sys = some (sys', some r) ∧ direntEntry r = x.translate ∧
      Listing sb disk e es bs sys' := by
  obtain ⟨sys₁, hrun, hfew, hd, hdisk, hinbox, fsnode, i, rs, blocks, hcli, hb, hring, hrs, hsent⟩ :=
    hl.fsListDir stack h hm hn
  rw [List.length_cons] at hfew
  obtain ⟨ring', r, rs', hread, hx, hring', hrs', hidx⟩ := readDirent hring hrs
  refine ⟨{ sys₁ with conn := { sys₁.conn with ring := ring' } }, r, ?_, hx, hd, hdisk, hinbox,
    by omega, fsnode, i, rs', blocks, hcli, hb, hring', hrs', hidx.symm ▸ hsent⟩
  refine run_bind hl.canRead_nil ?_
  rw [if_neg (by simp)]
  refine run_bind hrun ((if_neg (by simp)).trans ?_)
  exact run_bind hread rfl

/-- The call at the end of the directory. -/
theorem Listing.next_end (hl : Listing sb disk e [] [] sys) :
    fsNextDirent sb stack sys = some (sys, none) := by
  refine run_bind hl.canRead_nil ?_
  obtain ⟨hd, rfl, hinbox, -, fsnode, i, rs, blocks, hcli, hb, hring, hrs, -, hsent⟩ := hl
  obtain rfl : blocks = [] := by
    cases blocks with
    | nil => rfl
    | cons es blocks => cases hsent
  rw [if_neg (by simp)]
  have hlist : Ext2.fsListDir sb stack sys = some (sys, 0) := by
    refine run_bind (handleListDir_end stack hcli hb) ?_
    simp only [receive, hinbox]
    cases sys
    cases hinbox
    rfl
  exact run_bind hlist rfl

/-- Calls of `fs_next_dirent` one after the other, each with what is on the stack of the server, and
the bytes that they return. -/
def nextDirents (sb : Superblock) :
    System → List (ℕ → UInt8) → Option (System × List (Option (List UInt8)))
  | sys, [] => some (sys, [])
  | sys, stack :: frames => do
    let (sys, bytes) ← fsNextDirent sb stack sys
    let (sys, rest) ← nextDirents sb sys frames
    return (sys, bytes :: rest)

/-- The calls return the entries one by one, and then `0`. -/
def ListsEntries (sb : Superblock) (sys : System) (entries : List DirEntry) : Prop :=
  ∀ frames, ∃ sys' results, nextDirents sb sys frames = some (sys', results) ∧
    results.map (Option.map direntEntry) =
      (List.range frames.length).map fun k => entries[k]?.map DirEntry.translate

/-- A call returns the next entry, or nothing when there is none. -/
theorem Listing.step (hl : Listing sb disk e es bs sys) (h : sb.blockSize ≤ 2)
    (hne : ∀ b ∈ bs, b ≠ []) (hm : FileMapped sb disk e) (hn : FileNear sb disk e) :
    ∃ sys' r es' bs', fsNextDirent sb stack sys = some (sys', r) ∧
      r.map direntEntry = (es ++ bs.flatten).head?.map DirEntry.translate ∧
      es' ++ bs'.flatten = (es ++ bs.flatten).tail ∧ (∀ b ∈ bs', b ≠ []) ∧
      Listing sb disk e es' bs' sys' := by
  cases es with
  | cons x es =>
    obtain ⟨sys', r, hrun, hx, hl'⟩ := hl.next stack
    exact ⟨sys', some r, es, bs, hrun, congrArg some hx, rfl, hne, hl'⟩
  | nil =>
    cases bs with
    | nil => exact ⟨sys, none, [], [], hl.next_end stack, rfl, rfl, hne, hl⟩
    | cons b bs =>
      obtain ⟨hb, hrest⟩ := List.forall_mem_cons.1 hne
      cases b with
      | nil => exact absurd rfl hb
      | cons x es =>
        obtain ⟨sys', r, hrun, hx, hl'⟩ := hl.next_block stack h hm hn
        exact ⟨sys', some r, es, bs, hrun, congrArg some hx, rfl, hrest, hl'⟩

/-- The entries that are left are listed. -/
theorem Listing.listsEntries (hl : Listing sb disk e es bs sys) (h : sb.blockSize ≤ 2)
    (hne : ∀ b ∈ bs, b ≠ []) (hm : FileMapped sb disk e) (hn : FileNear sb disk e) :
    ListsEntries sb sys (es ++ bs.flatten) := by
  intro frames
  induction frames generalizing sys es bs with
  | nil => exact ⟨sys, [], rfl, rfl⟩
  | cons stack frames ih =>
    obtain ⟨sys₁, r, es₁, bs₁, hrun, hr, hrest, hne₁, hl₁⟩ := hl.step stack h hne hm hn
    obtain ⟨sys', results, hruns, hres⟩ := ih hl₁ hne₁
    refine ⟨sys', r :: results, run_bind hrun (run_bind hruns rfl), ?_⟩
    rw [List.map_cons, hr, hres, hrest, List.length_cons, List.range_succ_eq_map, List.map_cons,
      List.map_map, List.head?_eq_getElem?]
    congr 1
    exact List.map_congr_left fun k _ => congrArg _ List.getElem?_tail

/-! ## From the start -/

/-- A copy of the record has the same blocks. -/
theorem DirBlocks.agrees {e' : Inode} (hb : DirBlocks sb disk e' i blocks) (he : e.Agrees e') :
    DirBlocks sb disk e i blocks where
  size := he.lowerSize_eq.trans hb.size
  entries j hj := by
    rw [he.fileMap_eq]
    exact hb.entries j hj

theorem DirBlocks.ne_nil (hb : DirBlocks sb disk e i blocks) (h : sb.blockSize ≤ 2) :
    ∀ b ∈ blocks, b ≠ [] := by
  rintro b hmem rfl
  obtain ⟨j, hj, hget⟩ := List.getElem_of_mem hmem
  exact blockEntries_ne_nil (ext2BlockSize_pos h) ((hb.entries j hj).trans (congrArg some hget))

/-- What is listed of any directory, when no record is cut off: of each block the entries for which
there is room in the ring. -/
theorem listing_sent {inode : ℕ} {sys' : System} {reply : Reply} (wf : LaidOut sb sys.dev.disk)
    (hd : sys.dev.Working) (hinbox : sys.inbox = []) (hring : Holds ringSize sys.conn.ring [])
    (hi : IsInode sb inode) (hloc : Located sb sys.dev.disk inode)
    (hm : FileMapped sb sys.dev.disk (inodeRecord sb sys.dev.disk inode))
    (hn : FileNear sb sys.dev.disk (inodeRecord sb sys.dev.disk inode))
    (hb : DirBlocks sb sys.dev.disk (inodeRecord sb sys.dev.disk inode) 0 blocks)
    (hwhole : RecordsWhole sys.conn.ring.writeIndex blocks)
    (hset : fsSetNode sb sys inode = some (sys', reply)) :
    ListsEntries sb sys' (sentEntries sys.conn.ring.writeIndex blocks).flatten := by
  cases hset.symm.trans (fsSetNode_eq wf hd hi hloc hinbox)
  have he : (pageInode (fetchInode sb sys.dev inode) (inodeOffset sb inode)).Agrees _ :=
    pageInode_agrees wf
  have hl : Listing sb sys.dev.disk
      (pageInode (fetchInode sb sys.dev inode) (inodeOffset sb inode)) []
      (sentEntries sys.conn.ring.writeIndex blocks)
      ⟨fetchInode sb sys.dev inode, ⟨sys.conn.ring, some ⟨⟨inode, FileType.unknown.toNat, 0⟩,
        pageInode (fetchInode sb sys.dev inode) (inodeOffset sb inode), 0⟩⟩, [], sys.index⟩ :=
    ⟨hd, rfl, rfl, Nat.zero_le _, _, 0, [], blocks, rfl, hb.agrees he, hring, .nil, hwhole, rfl⟩
  exact hl.listsEntries wf.blockSize (sentEntries_ne_nil (hb.ne_nil wf.blockSize)) (he.fileMapped hm)
    (he.fileNear hn)

/-- **A directory is listed entry by entry**, when all its entries are in use and the records of
each block fit into the ring. -/
theorem listing_complete {inode : ℕ} {sys' : System} {reply : Reply} (wf : LaidOut sb sys.dev.disk)
    (hd : sys.dev.Working) (hinbox : sys.inbox = []) (hring : Holds ringSize sys.conn.ring [])
    (hi : IsInode sb inode) (hloc : Located sb sys.dev.disk inode)
    (hm : FileMapped sb sys.dev.disk (inodeRecord sb sys.dev.disk inode))
    (hn : FileNear sb sys.dev.disk (inodeRecord sb sys.dev.disk inode))
    (hb : DirBlocks sb sys.dev.disk (inodeRecord sb sys.dev.disk inode) 0 blocks)
    (huse : ∀ b ∈ blocks, ∀ x ∈ b, x.inode ≠ 0) (hfit : EntriesFit sys.conn.ring.writeIndex blocks)
    (hset : fsSetNode sb sys inode = some (sys', reply)) :
    ListsEntries sb sys' (blocks.flatten.filter fun x => x.inode ≠ 0) := by
  have hall : blocks.flatten.filter (fun x => x.inode ≠ 0) = blocks.flatten := by
    rw [List.filter_eq_self]
    intro x hx
    obtain ⟨b, hb, hx⟩ := List.mem_flatten.1 hx
    exact decide_eq_true (huse b hb x hx)
  obtain ⟨hwhole, hsent⟩ := hfit.sent
  rw [hall]
  have hlists := listing_sent wf hd hinbox hring hi hloc hm hn hb hwhole hset
  rwa [hsent] at hlists

/-! ## Two directories -/

/-- The record of an entry of a directory, in a number. -/
def dirRecord (inode size nameLen type name : ℕ) : ℕ :=
  inode + 2 ^ 32 * size + 2 ^ 48 * nameLen + 2 ^ 56 * type + 2 ^ 64 * name

/-- An image with two directories: inode 1, with two entries in the block 6, and inode 2, with
sixteen entries in the block 7. -/
def dirDisk : ℕ → UInt8 :=
  image smallSuperblock <|
    [(3, 8, 1016, 256 ^ 1016 - 1), (2, 0, 4, 3), (2, 4, 4, 4), (2, 8, 4, 5), (2, 12, 2, 56),
      (3, 0, 8, 0x800000000000007f), (5, 0, 2, 0x41ed), (5, 4, 4, 1024), (5, 40, 4, 6),
      (5, 128, 2, 0x41ed), (5, 132, 4, 1024), (5, 168, 4, 7), (5, 256, 2, 0x81a4),
      (6, 0, 12, dirRecord 1 12 1 2 0x2e), (6, 12, 12, dirRecord 1 1012 2 2 0x2e2e),
      (7, 0, 12, dirRecord 2 12 1 2 0x2e), (7, 12, 12, dirRecord 1 12 2 2 0x2e2e)] ++
    (List.range 14).map fun k =>
      (7, 24 + 12 * k, 12, dirRecord 3 (if k = 13 then 844 else 12) 1 1 (0x61 + k))

/-- The entries of the second directory. -/
def dirDiskEntries : List DirEntry :=
  ⟨2, [0x2e], 2⟩ :: ⟨1, [0x2e, 0x2e], 2⟩ ::
    (List.range 14).map fun k => ⟨3, [UInt8.ofNat (0x61 + k)], 1⟩

theorem dirDisk_wellFormed : WellFormed smallSuperblock dirDisk :=
  .of_small (by decide +kernel) (by decide +kernel) (by decide +kernel)
    (fun i hi => by rw [dirDisk, List.cons_append, image_ones (by decide) hi]) (by decide +kernel)
    (by decide +kernel)

/-- A directory with one block. -/
theorem dirDisk_dir (inode b : ℕ) (es : List DirEntry)
    (hview : ((inodeRecord smallSuperblock dirDisk inode).lowerSize,
      (inodeRecord smallSuperblock dirDisk inode).directPtr 0) = (1024, b)) (hb : 0 < b ∧ b ≤ 64)
    (hes : blockEntries 1024 (fun c => dirDisk (blockStart smallSuperblock b + c)) 1025 0 = some es) :
    FileMapped smallSuperblock dirDisk (inodeRecord smallSuperblock dirDisk inode) ∧
      FileNear smallSuperblock dirDisk (inodeRecord smallSuperblock dirDisk inode) ∧
      DirBlocks smallSuperblock dirDisk (inodeRecord smallSuperblock dirDisk inode) 0 [es] := by
  obtain ⟨hsize, hptr⟩ := Prod.mk.inj hview
  have hbs : ext2BlockSize smallSuperblock = 1024 := by decide
  have hle := hsize.trans_le hbs.ge
  refine ⟨fileMapped_of_single hle (by rw [hptr]; exact hb.1) (by rw [hptr]; exact hb.2),
    fileNear_of_single hle ?_, ?_, fun j hj => ?_⟩
  · show _ * ext2BlockSize smallSuperblock < 2 ^ 32
    rw [hptr, hbs]
    omega
  · rw [hsize, hbs, List.length_singleton]
  · obtain rfl : j = 0 := Nat.lt_one_iff.1 hj
    rw [fileMap, if_pos (by decide), Nat.add_zero, hptr, hbs]
    exact hes

/-- The directory with two entries. -/
theorem listing_complete_two : ∃ sys reply,
    fsSetNode smallSuperblock (.connect dirDisk) 1 = some (sys, reply) ∧
      ListsEntries smallSuperblock sys [⟨1, [0x2e], 2⟩, ⟨1, [0x2e, 0x2e], 2⟩] := by
  obtain ⟨hm, hn, hb⟩ := dirDisk_dir 1 6 [⟨1, [0x2e], 2⟩, ⟨1, [0x2e, 0x2e], 2⟩] (by decide +kernel)
    (by decide) (by decide +kernel)
  have wf := dirDisk_wellFormed
  have hloc : Located smallSuperblock dirDisk 1 := by
    refine ⟨by decide, ?_⟩
    unfold Near
    decide +kernel
  rw [← System.connect_disk dirDisk] at hm hn hb wf hloc
  have hset := fsSetNode_eq wf.toLaidOut (System.connect_working _) ⟨by decide, by decide⟩ hloc rfl
  exact ⟨_, _, hset, listing_complete wf.toLaidOut (System.connect_working _) rfl
    (System.connect_holds _) ⟨by decide, by decide⟩ hloc hm hn hb (by decide)
    ⟨by decide, trivial⟩ hset⟩

/-- Of the sixteen entries of a block the last one is lost. -/
theorem listing_loses_entry : ¬ ∀ (sb : Superblock) (sys sys' : System) (reply : Reply) (inode : ℕ)
    (blocks : List (List DirEntry)), WellFormed sb sys.dev.disk → sys.dev.Working → sys.inbox = [] →
    Holds ringSize sys.conn.ring [] → IsInode sb inode →
    FileMapped sb sys.dev.disk (inodeRecord sb sys.dev.disk inode) →
    DirBlocks sb sys.dev.disk (inodeRecord sb sys.dev.disk inode) 0 blocks →
    fsSetNode sb sys inode = some (sys', reply) →
    ListsEntries sb sys' (blocks.flatten.filter fun x => x.inode ≠ 0) := by
  intro h
  obtain ⟨hm, hn, hb⟩ := dirDisk_dir 2 7 dirDiskEntries (by decide +kernel) (by decide)
    (by decide +kernel)
  have wf := dirDisk_wellFormed
  have hloc : Located smallSuperblock dirDisk 2 := by
    refine ⟨by decide, ?_⟩
    unfold Near
    decide +kernel
  rw [← System.connect_disk dirDisk] at hm hn hb wf hloc
  have hset := fsSetNode_eq wf.toLaidOut (System.connect_working _) ⟨by decide, by decide⟩ hloc rfl
  have hall := h _ _ _ _ 2 [dirDiskEntries] wf (System.connect_working _) rfl (System.connect_holds _)
    ⟨by decide, by decide⟩ hm hb hset
  have hsent := listing_sent wf.toLaidOut (System.connect_working _) rfl (System.connect_holds _)
    ⟨by decide, by decide⟩ hloc hm hn hb ⟨.inr (.inl (by decide)), trivial⟩ hset
  obtain ⟨_, results, hrun, hres⟩ := hall (List.replicate 16 fun _ => 0)
  obtain ⟨_, results', hrun', hres'⟩ := hsent (List.replicate 16 fun _ => 0)
  cases hrun.symm.trans hrun'
  have hzero : (System.connect dirDisk).conn.ring.writeIndex = 0 := rfl
  rw [hres, hzero] at hres'
  exact absurd hres' (by decide)

end C4OS.Ext2
