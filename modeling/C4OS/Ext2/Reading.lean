import C4OS.Ext2.Image

/-!
# Reading a file

The server sends a file to its client block by block, and keeps the index of the next byte to send;
the client takes bytes out of the ring and asks for the next block when it is empty. `Streaming` is
the state of the two when the client has come to the byte `p` of the file: the bytes from `p` on to
the index of the server are in the ring. A request sends the next bytes (`handleReadBlock_eq`), as
long as they do not go over the end of the block they start in (`Fits`). Then `fread` returns the
bytes from `p` on (`Streaming.fread`), and any sequence of calls reads the file from its start
(`freads_eq_content`).
-/

namespace C4OS.Ext2

open Foundations Ringbuffer

variable {sb : Superblock} {disk : ℕ → UInt8} {e : Inode} {d : Device} {conn : Conn} {sys : System}
  {fsnode : FsNode} {i p : ℕ}

/-! ## A request -/

/-- The bytes that a request at the index `i` sends are in one block. -/
def Fits (sb : Superblock) (e : Inode) (i : ℕ) : Prop :=
  e.lowerSize ≤ i ∨
    i % ext2BlockSize sb + min (e.lowerSize - i) (ext2BlockSize sb) ≤ ext2BlockSize sb

theorem fits_zero : Fits sb e 0 := .inr (by rw [Nat.zero_mod]; omega)

/-- The next request starts at the end of the block, or the file ends. -/
theorem Fits.next (h : Fits sb e i) :
    Fits sb e (i + min (e.lowerSize - i) (ext2BlockSize sb)) := by
  rcases h with hend | hfit
  · exact .inl (by omega)
  · by_cases hle : e.lowerSize - i ≤ ext2BlockSize sb
    · exact .inl (by omega)
    · have hmod : i % ext2BlockSize sb = 0 := by omega
      rw [Nat.min_eq_right (Nat.le_of_not_le hle)]
      refine .inr ?_
      rw [Nat.add_mod_right, hmod]
      omega

theorem lowerSize_lt (e : Inode) : e.lowerSize < 2 ^ 32 := readLE_lt 4 _ _

/-- Some bytes of a file. -/
theorem take_drop_fileContent {w : ℕ} (h : i + w ≤ e.lowerSize) :
    ((fileContent sb disk e).drop i).take w =
      (List.range w).map fun t => fileByte sb disk e (i + t) := by
  apply List.ext_getElem
  · simp only [List.length_take, List.length_drop, length_fileContent, List.length_map,
      List.length_range]
    omega
  · intro t h₁ h₂
    simp [fileContent]

/-- **A request sends the bytes from the index of the server on.** -/
theorem handleReadBlock_eq (h : sb.blockSize ≤ 1) (hd : d.Working) (hm : FileMapped sb d.disk e)
    (hn : FileNear sb d.disk e) (hcli : conn.progData = some ⟨fsnode, e, i⟩)
    (hring : Holds ringSize conn.ring []) (hi : i < e.lowerSize) (hfits : Fits sb e i) :
    ∃ d' ring', handleReadBlock sb d conn =
        some (d', ⟨ring', some ⟨fsnode, e, i + min (e.lowerSize - i) (ext2BlockSize sb)⟩⟩,
          [.completed [min (e.lowerSize - i) (ext2BlockSize sb)]]) ∧
      d'.disk = d.disk ∧ d'.Working ∧
      Holds ringSize ring' (((fileContent sb d.disk e).drop i).take
        (min (e.lowerSize - i) (ext2BlockSize sb))) := by
  have hbs := ext2BlockSize_eq (Nat.le_succ_of_le h)
  have hsmall := ext2BlockSize_le_half h
  have hsize := lowerSize_lt e
  have hfit := hfits.resolve_left (Nat.not_le_of_gt hi)
  -- the byte `i` is in a block of the file
  have hblock : i / ext2BlockSize sb * ext2BlockSize sb < e.lowerSize :=
    Nat.lt_of_le_of_lt (Nat.div_mul_le_self i _) hi
  obtain ⟨d', hread, hdisk, hd', hbuf⟩ :=
    ext2InodeReadBlock_eq (Nat.le_succ_of_le h) hd (hm _ hblock) (hn _ hblock)
  generalize hw : min (e.lowerSize - i) (ext2BlockSize sb) = w at *
  have hbytes : d'.loadBytes (i % ext2BlockSize sb) w =
      some (((fileContent sb d.disk e).drop i).take w) := by
    have hpage : i % ext2BlockSize sb + w ≤ pageSize := by
      show _ ≤ 4096
      omega
    rw [Device.loadBytes, if_pos hpage, take_drop_fileContent (by omega)]
    congr 1
    refine List.map_congr_left fun t ht => ?_
    have ht : t < w := List.mem_range.1 ht
    have hlt : i % ext2BlockSize sb + t < ext2BlockSize sb := by omega
    rw [hbuf _ hlt, fileByte]
    have hdiv := Nat.div_add_mod i (ext2BlockSize sb)
    have h₁ : (i + t) / ext2BlockSize sb = i / ext2BlockSize sb := by
      conv_lhs => rw [← hdiv, Nat.add_assoc]
      rw [Nat.mul_add_div (by omega), Nat.div_eq_of_lt hlt, Nat.add_zero]
    have h₂ : (i + t) % ext2BlockSize sb = i % ext2BlockSize sb + t := by
      conv_lhs => rw [← hdiv, Nat.add_assoc]
      rw [Nat.mul_add_mod, Nat.mod_eq_of_lt hlt]
    rw [h₁, h₂]
  have hlen : (((fileContent sb d.disk e).drop i).take w).length = w := by
    rw [List.length_take, List.length_drop, length_fileContent]
    omega
  have hroom : ([] : List UInt8).length + (((fileContent sb d.disk e).drop i).take w).length <
      ringSize := by
    rw [List.length_nil, hlen]
    show 0 + w < 4084
    omega
  obtain ⟨ring', hwrite, hring', -⟩ := hring.write hroom
  have hcan : c4RingbufCanWrite conn.ring w = some true := by
    rw [hring.canWrite_nil, decide_eq_true]
    show w < 4084
    omega
  refine ⟨d', ring', ?_, hdisk, hd', hring'⟩
  simp only [handleReadBlock, hcli]
  rw [if_neg (Nat.not_le_of_gt hi), if_neg (by omega), hw]
  refine run_bind hcan ?_
  simp only [Bool.not_true, Bool.false_eq_true, if_false]
  refine run_bind hread ?_
  simp only [Bool.not_true, Bool.false_eq_true, if_false]
  refine run_bind hbytes (run_bind hwrite ?_)
  have hmod : (i + w) % wordSize = i + w := Nat.mod_eq_of_lt (by show _ < 2 ^ 32; omega)
  simp only [hlen, hmod]
  rfl

/-! ## The client -/

/-- The client has come to the byte `p` of the file, and the bytes from there on to the index of the
server are in the ring. -/
structure Streaming (sb : Superblock) (disk : ℕ → UInt8) (fsnode : FsNode) (e : Inode) (p : ℕ)
    (sys : System) : Prop where
  working : sys.dev.Working
  disk_eq : sys.dev.disk = disk
  inbox : sys.inbox = []
  client : ∃ i, sys.conn.progData = some ⟨fsnode, e, i⟩ ∧ p ≤ i ∧
    (p < i → i ≤ e.lowerSize) ∧ Fits sb e i ∧
    Holds ringSize sys.conn.ring (((fileContent sb disk e).drop p).take (i - p))

/-- The bytes in the ring of a client at the byte `p`. -/
theorem length_ring (sb : Superblock) (disk : ℕ → UInt8) (hp : p ≤ i) (hi : p < i → i ≤ e.lowerSize) :
    (((fileContent sb disk e).drop p).take (i - p)).length = i - p := by
  rw [List.length_take, List.length_drop, length_fileContent]
  by_cases h : p < i
  · have := hi h
    omega
  · omega

/-- The request of `fs_read_block`: afterwards there are bytes in the ring, or the client is at the
end of the file. -/
theorem Streaming.requestBlock (h : Streaming sb disk fsnode e p sys) (hbs : sb.blockSize ≤ 1)
    (hm : FileMapped sb disk e) (hn : FileNear sb disk e) :
    ∃ sys', requestBlock sb sys = some (sys', true) ∧ Streaming sb disk fsnode e p sys' ∧
      sys'.index = sys.index ∧
      (e.lowerSize ≤ p ∨ ∃ l, l ≠ [] ∧ Holds ringSize sys'.conn.ring l) := by
  obtain ⟨hd, rfl, hinbox, i, hcli, hp, hi, hfits, hring⟩ := h
  have hlen := length_ring sb sys.dev.disk hp hi
  rw [Ext2.requestBlock, hring.empty_eq]
  by_cases hlt : p < i
  · have hne : ((fileContent sb sys.dev.disk e).drop p).take (i - p) ≠ [] := by
      intro h₀
      rw [h₀, List.length_nil] at hlen
      omega
    rw [if_neg (by simpa using hne)]
    exact ⟨sys, rfl, ⟨hd, rfl, hinbox, i, hcli, hp, hi, hfits, hring⟩, rfl,
      .inr ⟨_, hne, hring⟩⟩
  · obtain rfl : p = i := by omega
    rw [Nat.sub_self, List.take_zero] at hring ⊢
    rw [if_pos (decide_eq_true rfl)]
    by_cases hend : e.lowerSize ≤ p
    · refine ⟨sys, ?_, ⟨hd, rfl, hinbox, p, hcli, hp, hi, hfits, ?_⟩, rfl, .inl hend⟩
      · have hrun : handleReadBlock sb sys.dev sys.conn =
            some (sys.dev, sys.conn, [.completed [0]]) := by
          simp only [handleReadBlock, hcli]
          exact if_pos hend
        refine run_bind hrun ?_
        simp only [receive, hinbox]
        cases sys
        cases hinbox
        rfl
      · rwa [Nat.sub_self, List.take_zero]
    · have hlt : p < e.lowerSize := Nat.lt_of_not_le hend
      obtain ⟨d', ring', hrun, hdisk, hd', hring'⟩ :=
        handleReadBlock_eq hbs hd hm hn hcli hring hlt hfits
      have hpos := ext2BlockSize_pos (Nat.le_succ_of_le hbs)
      generalize hw : min (e.lowerSize - p) (ext2BlockSize sb) = w at *
      refine ⟨{ sys with dev := d', conn := ⟨ring', some ⟨fsnode, e, p + w⟩⟩ }, ?_,
        ⟨hd', hdisk, hinbox, p + w, rfl, by omega, fun _ => by omega, hw ▸ hfits.next, ?_⟩,
        rfl, .inr ⟨_, ?_, hring'⟩⟩
      · refine run_bind hrun ?_
        simp only [receive, hinbox]
        cases sys
        cases hinbox
        rfl
      · rwa [Nat.add_sub_cancel_left]
      · intro h₀
        have := congrArg List.length h₀
        rw [List.length_take, List.length_drop, length_fileContent, List.length_nil] at this
        omega

/-- **`fs_read_block` returns the next bytes of the file**, none of them only at its end. -/
theorem Streaming.fsReadBlock (h : Streaming sb disk fsnode e p sys) (hbs : sb.blockSize ≤ 1)
    (hm : FileMapped sb disk e) (hn : FileNear sb disk e) (len : ℕ) :
    ∃ sys' n, fsReadBlock sb sys len =
        some (sys', ((fileContent sb disk e).drop p).take n) ∧
      Streaming sb disk fsnode e (p + n) sys' ∧ sys'.index = (sys.index + n) % wordSize ∧
      n ≤ len ∧ p + n ≤ max p e.lowerSize ∧ (n = 0 → len = 0 ∨ e.lowerSize ≤ p) := by
  obtain ⟨sys₁, hreq, hs, hidx, hmore⟩ := h.requestBlock hbs hm hn
  obtain ⟨hd, rfl, hinbox, i, hcli, hp, hi, hfits, hring⟩ := hs
  obtain ⟨ring', hread, hring', -⟩ := hring.read len
  have hlen := length_ring sb sys₁.dev.disk hp hi
  have htake : (((fileContent sb sys₁.dev.disk e).drop p).take (i - p)).take len =
      ((fileContent sb sys₁.dev.disk e).drop p).take (min len (i - p)) := List.take_take
  refine ⟨{ sys₁ with
      conn := { sys₁.conn with ring := ring' }
      index := (sys₁.index + min len (i - p)) % wordSize }, min len (i - p), run_bind hreq ?_,
    ⟨hd, rfl, hinbox, i, hcli, by omega, ?_, hfits, ?_⟩, ?_, by omega, ?_, ?_⟩
  · simp only [if_true]
    refine run_bind hread ?_
    rw [List.length_take, hlen, htake]
    rfl
  · exact fun hlt => hi (by omega)
  · convert hring' using 1
    rw [List.drop_take, List.drop_drop]
    by_cases hle : len ≤ i - p
    · rw [Nat.min_eq_left hle]
      congr 1
      omega
    · rw [Nat.min_eq_right (by omega)]
      have h₁ : i - (p + (i - p)) = 0 := by omega
      have h₂ : i - p - len = 0 := by omega
      rw [h₁, h₂, List.take_zero, List.take_zero]
  · simp only [hidx]
  · by_cases hlt : p < i
    · have := hi hlt
      omega
    · omega
  · intro hn₀
    rcases hmore with hend | ⟨l, hne, hl⟩
    · exact .inr hend
    · by_cases h₀ : i - p = 0
      · rw [h₀, List.take_zero] at hring
        exact absurd (hl.2.symm.trans hring.2) hne
      · exact .inl (by omega)

/-- The loop of `fread` from the byte `p` on. -/
theorem Streaming.freadLoop (hbs : sb.blockSize ≤ 1) (hm : FileMapped sb disk e)
    (hn : FileNear sb disk e) {fuel len : ℕ} (ret : List UInt8) (h : Streaming sb disk fsnode e p sys)
    (hfuel : len < fuel) :
    ∃ sys', freadLoop sb fuel sys len ret =
        some (sys', ret ++ ((fileContent sb disk e).drop p).take len) ∧
      Streaming sb disk fsnode e (p + min len (e.lowerSize - p)) sys' ∧
      sys'.index = (sys.index + min len (e.lowerSize - p)) % wordSize := by
  induction fuel generalizing sys len p ret with
  | zero => omega
  | succ fuel ih =>
    obtain ⟨sys₁, n, hrun, hs, hidx, hle, hmax, hzero⟩ := h.fsReadBlock hbs hm hn len
    rw [Ext2.freadLoop]
    by_cases hn₀ : n = 0
    · -- nothing was read, at the end of the file or of the request
      have hmin : min len (e.lowerSize - p) = 0 := by
        have := hzero hn₀
        omega
      have hnil : ((fileContent sb disk e).drop p).take len = [] := by
        apply List.eq_nil_of_length_eq_zero
        rw [List.length_take, List.length_drop, length_fileContent]
        exact hmin
      rw [hn₀, List.take_zero] at hrun
      rw [hn₀, Nat.add_zero] at hs hidx
      rw [hmin, hnil, Nat.add_zero, Nat.add_zero, List.append_nil]
      exact ⟨sys₁, run_bind hrun (if_pos rfl), hs, hidx⟩
    · have hlt : p + n ≤ e.lowerSize := by omega
      have hlen : (((fileContent sb disk e).drop p).take n).length = n := by
        rw [List.length_take, List.length_drop, length_fileContent]
        omega
      have hfuel' : len - n < fuel := by omega
      obtain ⟨sys', hrest, hs', hidx'⟩ :=
        ih (ret ++ ((fileContent sb disk e).drop p).take n) hs hfuel'
      refine ⟨sys', run_bind hrun ?_, ?_, ?_⟩
      · have hne : ((fileContent sb disk e).drop p).take n ≠ [] := by
          intro h₀
          rw [h₀, List.length_nil] at hlen
          omega
        refine (if_neg hne).trans ?_
        rw [hlen, hrest, List.append_assoc, ← List.drop_drop, ← List.take_add,
          Nat.add_sub_cancel' hle]
      · convert hs' using 1
        omega
      · rw [hidx', hidx, Nat.mod_add_mod]
        congr 1
        omega

/-- **`fread` returns the bytes of the file from the position of the client on.** -/
theorem Streaming.fread (h : Streaming sb disk fsnode e p sys) (hbs : sb.blockSize ≤ 1)
    (hm : FileMapped sb disk e) (hn : FileNear sb disk e) {size members : ℕ}
    (hlt : size * members < 2 ^ 31) :
    ∃ sys', fread sb sys size members =
        some (sys', ((fileContent sb disk e).drop p).take (size * members)) ∧
      Streaming sb disk fsnode e (p + min (size * members) (e.lowerSize - p)) sys' ∧
      sys'.index = (sys.index + min (size * members) (e.lowerSize - p)) % wordSize := by
  have hmod : size * members % wordSize = size * members :=
    Nat.mod_eq_of_lt (by show _ < 2 ^ 32; omega)
  rw [Ext2.fread, hmod]
  obtain ⟨sys', hrun, hs, hidx⟩ :=
    h.freadLoop hbs hm hn [] (Nat.lt_succ_self (size * members))
  rw [List.nil_append] at hrun
  exact ⟨sys', hrun, hs, hidx⟩

/-! ## Sequences of calls -/

/-- Calls of `fread` one after the other, each with its size and its number of members, and the
bytes they return. -/
def freads (sb : Superblock) : System → List (ℕ × ℕ) → Option (System × List (List UInt8))
  | sys, [] => some (sys, [])
  | sys, (size, members) :: calls => do
    let (sys, bytes) ← fread sb sys size members
    let (sys, rest) ← freads sb sys calls
    return (sys, bytes :: rest)

/-- Requests of `ns` bytes return the pieces `cs` of the contents `l`: each the next bytes, as many
as are requested or as there are. -/
def Reads : List UInt8 → List ℕ → List (List UInt8) → Prop
  | _, [], [] => True
  | l, n :: ns, c :: cs =>
    c.length = min n l.length ∧ c = l.take c.length ∧ Reads (l.drop c.length) ns cs
  | _, _, _ => False

/-- The pieces in a row are a front part of the contents, and all of them once a piece is shorter
than requested. -/
theorem Reads.flatten {l : List UInt8} {ns : List ℕ} {cs : List (List UInt8)} (h : Reads l ns cs) :
    cs.flatten <+: l ∧
      ((∃ x ∈ ns.zip cs, x.2.length < x.1) → cs.flatten = l) := by
  induction ns generalizing l cs with
  | nil => cases cs with
    | nil => exact ⟨List.nil_prefix, by simp⟩
    | cons c cs => exact h.elim
  | cons n ns ih => cases cs with
    | nil => exact h.elim
    | cons c cs =>
      obtain ⟨hlen, hc, hrest⟩ := h
      obtain ⟨hpre, hall⟩ := ih hrest
      have hl : c ++ l.drop c.length = l := by
        have := List.take_append_drop c.length l
        rwa [← hc] at this
      rw [List.flatten_cons]
      constructor
      · conv_rhs => rw [← hl]
        exact (List.prefix_append_right_inj c).2 hpre
      · rintro ⟨x, hx, hshort⟩
        rw [List.zip_cons_cons, List.mem_cons] at hx
        have hflat : cs.flatten = l.drop c.length := by
          rcases hx with rfl | hx
          · -- the piece is the rest of the contents
            have hnil : l.drop c.length = [] := by
              apply List.drop_eq_nil_of_le
              simp only at hshort
              omega
            rw [hnil] at hpre ⊢
            exact List.prefix_nil.1 hpre
          · exact hall ⟨x, hx, hshort⟩
        rw [hflat, hl]

/-- The calls return the file piece by piece. -/
def ReadsFile (sb : Superblock) (sys : System) (e : Inode) (calls : List (ℕ × ℕ)) : Prop :=
  ∃ sys' chunks, freads sb sys calls = some (sys', chunks) ∧
    Reads (fileContent sb sys.dev.disk e) (calls.map fun c => c.1 * c.2) chunks ∧
    chunks.flatten <+: fileContent sb sys.dev.disk e ∧
    ((∃ x ∈ (calls.map fun c => c.1 * c.2).zip chunks, x.2.length < x.1) →
      chunks.flatten = fileContent sb sys.dev.disk e)

theorem Streaming.freads (hbs : sb.blockSize ≤ 1) (hm : FileMapped sb disk e)
    (hn : FileNear sb disk e) {calls : List (ℕ × ℕ)} (h : Streaming sb disk fsnode e p sys)
    (hcalls : ∀ c ∈ calls, c.1 * c.2 < 2 ^ 31) :
    ∃ sys' chunks, freads sb sys calls = some (sys', chunks) ∧
      Reads ((fileContent sb disk e).drop p) (calls.map fun c => c.1 * c.2) chunks := by
  induction calls generalizing sys p with
  | nil => exact ⟨sys, [], rfl, trivial⟩
  | cons c calls ih =>
    obtain ⟨sys₁, hrun, hs, -⟩ := h.fread hbs hm hn (hcalls c List.mem_cons_self)
    obtain ⟨sys', chunks, hrest, hreads⟩ := ih hs fun c hc => hcalls c (List.mem_cons_of_mem _ hc)
    refine ⟨sys', _, run_bind hrun (run_bind hrest rfl), ?_, ?_, ?_⟩
    · rw [List.length_take]
    · rw [List.length_take, ← List.take_take, List.take_length]
    · rw [List.length_take, List.length_drop, length_fileContent, List.drop_drop]
      exact hreads

/-- **A file is read from its start to its end.** When the blocks of a file are in the first 4 GiB
of the file system, any calls of `fread` on a new connection return the file piece by piece. -/
theorem freads_eq_content (hbs : sb.blockSize ≤ 1) (hd : sys.dev.Working)
    (hinbox : sys.inbox = []) (hring : Holds ringSize sys.conn.ring [])
    (hcli : sys.conn.progData = some ⟨fsnode, e, 0⟩) (hm : FileMapped sb sys.dev.disk e)
    (hn : FileNear sb sys.dev.disk e) {calls : List (ℕ × ℕ)}
    (hcalls : ∀ c ∈ calls, c.1 * c.2 < 2 ^ 31) : ReadsFile sb sys e calls := by
  have hs : Streaming sb sys.dev.disk fsnode e 0 sys := by
    refine ⟨hd, rfl, hinbox, 0, hcli, Nat.le_refl 0, fun h => absurd h (Nat.lt_irrefl 0),
      fits_zero, ?_⟩
    rwa [Nat.sub_self, List.take_zero]
  obtain ⟨sys', chunks, hrun, hreads⟩ := hs.freads hbs hm hn hcalls
  rw [List.drop_zero] at hreads
  exact ⟨sys', chunks, hrun, hreads, hreads.flatten⟩

/-! ## A file of fourteen blocks -/

/-- The superblock of an image with blocks of 1024 bytes, a little larger than 4 GiB. -/
def largeSuperblock : Superblock := ⟨8, 2 ^ 22 + 1, 0, 8192, 8, 128⟩

/-- The blocks of a file, the last two in the table in the block 40. -/
def fourteenBlocks : List ℕ := [31, 7, 33, 9, 10, 35, 36, 12, 13, 14, 29, 16, 50, 41]

/-- An image with a file, inode 1, of 13 blocks and a half, with its bytes at the ends of blocks. -/
def fourteenDisk : ℕ → UInt8 :=
  image largeSuperblock ([(2, 8, 4, 5), (5, 0, 2, 0x81a4), (5, 4, 4, 13824), (5, 88, 4, 40),
    (40, 0, 4, 50), (40, 4, 4, 41), (31, 0, 1, 0x61), (31, 1023, 1, 0x62), (7, 0, 1, 0x63),
    (50, 0, 1, 0x64), (41, 511, 1, 0x65)] ++
    (List.range 12).map fun j => (5, 40 + 4 * j, 4, fourteenBlocks.getD j 0))

/-- What the client of a file finds in its record: the index of the server, the size, the indirect
block and the blocks. -/
def Conn.blocks (conn : Conn) (disk : ℕ → UInt8) : Option (ℕ × ℕ × ℕ × List ℕ) :=
  conn.progData.map fun cli => (cli.index, cli.e2node.lowerSize, cli.e2node.singleIndirectPtr,
    (List.range 14).map (fileMap largeSuperblock disk cli.e2node))

/-- The file from its start over its blocks to its end, with a call that asks for nothing, one that
reads the indirect block and one behind the end. -/
theorem freads_eq_content_blocks : ∃ sys reply fsnode e,
    fsSetNode largeSuperblock (.connect fourteenDisk) 1 = some (sys, reply) ∧
      sys.conn.progData = some ⟨fsnode, e, 0⟩ ∧ e.lowerSize = 13824 ∧
      ReadsFile largeSuperblock sys e [(1, 0), (3, 700), (1, 1), (512, 20), (1, 4000), (1, 1)] := by
  have hopen : (fsSetNode largeSuperblock (.connect fourteenDisk) 1).map
      (fun r => (r.1.inbox.length, r.1.conn.blocks fourteenDisk)) =
      some (0, some (0, 13824, 40, fourteenBlocks)) := by decide +kernel
  obtain ⟨⟨sys, reply⟩, hset, he⟩ := Option.map_eq_some_iff.1 hopen
  obtain ⟨hinbox, hview⟩ := Prod.mk.inj he
  obtain ⟨hsame, hring⟩ := fsSetNode_same hset
  obtain ⟨⟨fsnode, e, i⟩, hcli, hblocks⟩ := Option.map_eq_some_iff.1 hview
  simp only [Prod.mk.injEq] at hblocks
  obtain ⟨rfl, hsize, hind, hmap⟩ := hblocks
  have hdisk : sys.dev.disk = fourteenDisk := hsame.1.trans (System.connect_disk _)
  have hle : e.lowerSize ≤ fourteenBlocks.length * ext2BlockSize largeSuperblock := by
    rw [hsize]
    decide
  rw [← hdisk] at hmap
  refine ⟨sys, reply, fsnode, e, hset, hcli, hsize, freads_eq_content (by decide)
    ((System.connect_working _).same hsame) (List.eq_nil_of_length_eq_zero hinbox)
    (hring ▸ System.connect_holds _) hcli
    (fileMapped_of_blocks hle (by decide) hmap.symm (by decide) fun _ => ?_)
    (fileNear_of_blocks hle hmap.symm ?_ fun _ => ?_) (by decide)⟩
  · rw [hind]
    decide
  · intro b hb
    have hlt : b < 2 ^ 22 := by revert b; decide
    show b * 1024 < 2 ^ 32
    omega
  · rw [hind]
    show 40 * 1024 < 2 ^ 32
    decide

/-! ## A file of one byte -/

/-- An image with a file, inode 1, of the byte `a`, in some block. -/
def oneByteDisk (block : ℕ) : ℕ → UInt8 :=
  writeLE 1 (image largeSuperblock [(2, 8, 4, 5), (5, 0, 2, 0x81a4), (5, 4, 4, 1), (5, 40, 4, block)])
    (blockStart largeSuperblock block) 0x61

/-- What the client of a file finds in its record: the index of the server, the size and the first
block. -/
def Conn.view (conn : Conn) : Option (ℕ × ℕ × ℕ) :=
  conn.progData.map fun cli => (cli.index, cli.e2node.lowerSize, cli.e2node.directPtr 0)

/-- A client that has opened the file. -/
theorem oneByteFile {block : ℕ} {sys : System} {reply : Reply} (hpos : 0 < block)
    (hle : block ≤ 2 ^ 22)
    (hset : fsSetNode largeSuperblock (.connect (oneByteDisk block)) 1 = some (sys, reply))
    (hview : sys.conn.view = some (0, 1, block)) :
    sys.dev.Working ∧ Holds ringSize sys.conn.ring [] ∧ ∃ fsnode e,
      sys.conn.progData = some ⟨fsnode, e, 0⟩ ∧ FileMapped largeSuperblock sys.dev.disk e ∧
      (Near largeSuperblock block → FileNear largeSuperblock sys.dev.disk e) := by
  obtain ⟨hsame, hring⟩ := fsSetNode_same hset
  obtain ⟨⟨fsnode, e, i⟩, hcli, he⟩ := Option.map_eq_some_iff.1 hview
  simp only [Prod.mk.injEq] at he
  obtain ⟨rfl, hsize, hptr⟩ := he
  have hworking : (System.connect (oneByteDisk block)).dev.Working := fun _ => rfl
  refine ⟨hworking.same hsame, hring ▸ System.connect_holds _, fsnode, e, hcli, ?_, ?_⟩
  -- the file has one block
  · exact fileMapped_of_single (hsize.trans_le (by decide)) (by rwa [hptr])
      (by rw [hptr]; exact Nat.le_succ_of_le hle)
  · exact fun hnear => fileNear_of_single (hsize.trans_le (by decide)) (by rwa [hptr])

/-- The block `2 ^ 22` is read from where the block `0` is. -/
theorem far_block_not_read : ¬ ∀ (sb : Superblock) (sys : System) (e : Inode) (fsnode : FsNode)
    (calls : List (ℕ × ℕ)), sb.blockSize ≤ 1 → sys.dev.Working → sys.inbox = [] →
    Holds ringSize sys.conn.ring [] → sys.conn.progData = some ⟨fsnode, e, 0⟩ →
    FileMapped sb sys.dev.disk e → (∀ c ∈ calls, c.1 * c.2 < 2 ^ 31) →
    ReadsFile sb sys e calls := by
  intro h
  have hopen : (fsSetNode largeSuperblock (.connect (oneByteDisk (2 ^ 22))) 1).map
      (fun r => (r.1.inbox.length, r.1.conn.view)) = some (0, some (0, 1, 2 ^ 22)) := by
    decide +kernel
  have hreadOut : (fsSetNode largeSuperblock (.connect (oneByteDisk (2 ^ 22))) 1).bind
      (fun r => (freads largeSuperblock r.1 [(1, 1)]).map Prod.snd) = some [[0]] := by
    decide +kernel
  have hbyte : (fsSetNode largeSuperblock (.connect (oneByteDisk (2 ^ 22))) 1).bind
      (fun r => r.1.conn.progData.map fun cli =>
        fileContent largeSuperblock r.1.dev.disk cli.e2node) = some [0x61] := by decide +kernel
  obtain ⟨⟨sys, reply⟩, hset, he⟩ := Option.map_eq_some_iff.1 hopen
  obtain ⟨hinbox, hview⟩ := Prod.mk.inj he
  obtain ⟨hd, hring, fsnode, e, hcli, hmapped, -⟩ := oneByteFile (by decide) (by decide) hset hview
  rw [hset, Option.bind_some] at hreadOut hbyte
  rw [hcli, Option.map_some, Option.some.injEq] at hbyte
  obtain ⟨sys', chunks, hrun, hreads, -⟩ := h largeSuperblock sys e fsnode [(1, 1)] (by decide) hd
    (List.eq_nil_of_length_eq_zero hinbox) hring hcli hmapped (by decide)
  rw [hrun, Option.map_some, Option.some.injEq] at hreadOut
  obtain rfl : chunks = [[0]] := hreadOut
  rw [hbyte] at hreads
  exact absurd hreads.2.1 (by decide)

end C4OS.Ext2
