import C4OS.Elf.Stack
import C4OS.Ext2.Reading
import Mathlib.Data.List.GetD

/-!
# Spawning

The function `spawn` of `stdlib.c`. It reads the file of a program page by page into the static
buffer `progbuf`, looks at the first bytes of the buffer with `elf_is_valid`, and hands the buffer to
`elf_load`. The buffer is zero at first, and is never cleared. What is behind the end of a file is
left from the files before.

A stream is the bytes of the file that were not read yet. On an ext2 volume the stream is the one of
`Ext2.fread` (`Streaming.readLoop`), as long as the blocks of the file are where they can be read.
`spawn_independent_iff` says for which files it does not matter what was spawned before: the bytes
that are looked at, and the bytes that are handed over, have to come from the file.
-/

namespace C4OS.Elf

open Foundations

/-- The size of `progbuf`. -/
abbrev progbufSize : ℕ := pageSize * 128

/-- What the loop of `spawn` does to `progbuf`. -/
inductive ReadResult
  | done (progbuf : ℕ → UInt8)
  /-- A call of `fread` writes behind the end. -/
  | overrun (i nread : ℕ)

/-- The loop of `spawn`, with the stream `fp` and a bound on the number of turns. -/
def readLoop {σ : Type} (fread : σ → ℕ → ℕ → Option (σ × List UInt8)) :
    ℕ → σ → (ℕ → UInt8) → ℕ → Option ReadResult
  | 0, _, _, _ => none
  | fuel + 1, fp, progbuf, i => do
    let (fp, bytes) ← fread fp pageSize 1
    let nread := bytes.length
    if i + nread > progbufSize then
      return .overrun i nread
    else if nread > 0 then
      readLoop fread fuel fp (writeBytes progbuf i bytes) (i + nread)
    else
      return .done progbuf

/-- `fread` on the bytes that were not read yet: the next ones, as many as requested or as there
are. -/
def freadFile (file : List UInt8) (size members : ℕ) : Option (List UInt8 × List UInt8) :=
  some (file.drop (size * members), file.take (size * members))

/-- `ELFMAG0` to `ELFMAG3`. -/
def elfMag : List UInt8 := [0x7f, 0x45, 0x4c, 0x46]

/-- `elf_is_valid`. -/
def elfIsValid (elf : ℕ → UInt8) : Bool :=
  elf 0 = elfMag[0] ∧ elf 1 = elfMag[1] ∧ elf 2 = elfMag[2] ∧ elf 3 = elfMag[3]

/-- What a call of `spawn` leaves in `progbuf`, and the image it passes to `elf_load`. -/
structure Spawned where
  progbuf : ℕ → UInt8
  image : Option (ℕ → UInt8)

/-- `spawn`, with what `fopen` finds under the name. Every turn of the loop but the last reads at
least one byte. A write behind the end of `progbuf` has no result. -/
def spawn (progbuf : ℕ → UInt8) : Option (List UInt8) → Option Spawned
  | none => some ⟨progbuf, none⟩
  | some file =>
    match readLoop freadFile (file.length + 1) file progbuf 0 with
    | some (.done progbuf) =>
      if elfIsValid progbuf then some ⟨progbuf, some progbuf⟩ else some ⟨progbuf, none⟩
    | _ => none

/-- What earlier calls of `spawn` leave in `progbuf`. -/
inductive Earlier : (ℕ → UInt8) → Prop
  | start : Earlier fun _ => 0
  | spawn {progbuf : ℕ → UInt8} {file : Option (List UInt8)} {r : Spawned} (h : Earlier progbuf)
      (hr : spawn progbuf file = some r) : Earlier r.progbuf

/-- The decision, and the first `n` bytes of the image. -/
def Spawned.observe (n : ℕ) (r : Spawned) : Option (List UInt8) :=
  r.image.map fun image => (List.range n).map image

/-- What is decided, and the first `n` bytes that are passed on, do not depend on earlier calls. -/
def Independent (n : ℕ) (file : List UInt8) : Prop :=
  ∀ p₁ p₂, Earlier p₁ → Earlier p₂ →
    (spawn p₁ (some file)).map (Spawned.observe n) = (spawn p₂ (some file)).map (Spawned.observe n)

/-- The bytes come from the file: it has a wrong byte among its first four, or has at least four and
the `n` that are passed on. -/
def Settled (n : ℕ) (file : List UInt8) : Prop :=
  (∃ (i : ℕ) (b m : UInt8), file[i]? = some b ∧ elfMag[i]? = some m ∧ b ≠ m) ∨
    (4 ≤ file.length ∧ n ≤ file.length)

/-! ## The loop -/

/-- Bytes stored in two parts. -/
theorem writeBytes_append (f : ℕ → UInt8) (a : ℕ) (l₁ l₂ : List UInt8) :
    writeBytes (writeBytes f a l₁) (a + l₁.length) l₂ = writeBytes f a (l₁ ++ l₂) := by
  funext c
  simp only [writeBytes, List.length_append]
  by_cases hsecond : a + l₁.length ≤ c ∧ c < a + l₁.length + l₂.length
  · rw [if_pos hsecond, if_pos (by omega), List.getD_append_right _ _ _ _ (by omega), Nat.sub_sub]
  · rw [if_neg hsecond]
    by_cases hfirst : a ≤ c ∧ c < a + l₁.length
    · rw [if_pos hfirst, if_pos (by omega), List.getD_append _ _ _ _ (by omega)]
    · rw [if_neg hfirst, if_neg (by omega)]

theorem writeBytes_nil (f : ℕ → UInt8) (a : ℕ) : writeBytes f a [] = f := by
  funext c
  exact writeBytes_of_notMem (by rw [List.length_nil]; omega)

/-- The loop puts the file behind what it has read already. -/
theorem readLoop_file {fuel : ℕ} {file : List UInt8} (hfuel : file.length < fuel)
    (progbuf : ℕ → UInt8) (i : ℕ) :
    (i + file.length ≤ progbufSize →
      readLoop freadFile fuel file progbuf i = some (.done (writeBytes progbuf i file))) ∧
    (progbufSize < i + file.length →
      ∃ j k, readLoop freadFile fuel file progbuf i = some (.overrun j k)) := by
  induction fuel generalizing file progbuf i with
  | zero => omega
  | succ fuel ih =>
    have hturn : readLoop freadFile (fuel + 1) file progbuf i =
        if i + (file.take pageSize).length > progbufSize then
          some (.overrun i (file.take pageSize).length)
        else if (file.take pageSize).length > 0 then
          readLoop freadFile fuel (file.drop pageSize) (writeBytes progbuf i (file.take pageSize))
            (i + (file.take pageSize).length)
        else some (.done progbuf) := rfl
    have htake : (file.take pageSize).length + (file.drop pageSize).length = file.length := by
      rw [← List.length_append, List.take_append_drop]
    rw [hturn]
    rcases Nat.eq_zero_or_pos (file.take pageSize).length with hzero | hpos
    · -- the end of the file
      have hempty : file = [] := by
        rw [List.length_take] at hzero
        have hpage : pageSize = 4096 := rfl
        exact List.eq_nil_of_length_eq_zero (by omega)
      rw [hempty, List.take_nil, List.length_nil, Nat.add_zero, writeBytes_nil]
      constructor
      · intro hle
        rw [if_neg (Nat.not_lt_of_le hle), if_neg (Nat.lt_irrefl 0)]
      · intro hgt
        rw [if_pos hgt]
        exact ⟨_, _, rfl⟩
    · have hrest := ih (show (file.drop pageSize).length < fuel by omega)
        (writeBytes progbuf i (file.take pageSize)) (i + (file.take pageSize).length)
      rw [writeBytes_append, List.take_append_drop] at hrest
      constructor
      · intro hle
        rw [if_neg (by omega), if_pos hpos]
        exact hrest.1 (by omega)
      · intro hgt
        by_cases hover : i + (file.take pageSize).length > progbufSize
        · rw [if_pos hover]
          exact ⟨_, _, rfl⟩
        · rw [if_neg hover, if_pos hpos]
          exact hrest.2 (by omega)

/-- What `spawn` does with a file that fits. -/
theorem spawn_eq {file : List UInt8} (hfit : file.length ≤ progbufSize) (progbuf : ℕ → UInt8) :
    spawn progbuf (some file) = some ⟨writeBytes progbuf 0 file,
      if elfIsValid (writeBytes progbuf 0 file) then some (writeBytes progbuf 0 file) else none⟩ := by
  have hloop : readLoop freadFile (file.length + 1) file progbuf 0 =
      some (.done (writeBytes progbuf 0 file)) :=
    (readLoop_file (Nat.lt_succ_self file.length) progbuf 0).1 (by rwa [Nat.zero_add])
  simp only [spawn, hloop]
  split <;> rfl

/-- A longer file is written behind the end. -/
theorem spawn_eq_none {file : List UInt8} (hlong : progbufSize < file.length)
    (progbuf : ℕ → UInt8) : spawn progbuf (some file) = none := by
  obtain ⟨i, nread, hover⟩ := (readLoop_file (Nat.lt_succ_self file.length) progbuf 0).2
    (by rwa [Nat.zero_add])
  have hover : readLoop freadFile (file.length + 1) file progbuf 0 = some (.overrun i nread) := hover
  simp only [spawn, hover]

/-- The first bytes of a file in the buffer. -/
theorem writeBytes_zero {file : List UInt8} {c : ℕ} (progbuf : ℕ → UInt8) :
    writeBytes progbuf 0 file c = file.getD c (progbuf c) := by
  rcases Nat.lt_or_ge c file.length with hc | hc
  · rw [writeBytes, if_pos (by omega), Nat.sub_zero, List.getD_eq_getElem _ _ hc,
      List.getD_eq_getElem _ _ hc]
  · rw [writeBytes_of_notMem (by omega), List.getD_eq_default _ _ hc]

/-- `elf_is_valid` compares four bytes. -/
theorem elfIsValid_iff (elf : ℕ → UInt8) :
    elfIsValid elf = true ↔ ∀ i < 4, elfMag[i]? = some (elf i) := by
  rw [elfIsValid, decide_eq_true_iff]
  constructor
  · rintro ⟨h₀, h₁, h₂, h₃⟩ i hi
    obtain rfl | rfl | rfl | rfl : i = 0 ∨ i = 1 ∨ i = 2 ∨ i = 3 := by omega
    · rw [h₀]
      rfl
    · rw [h₁]
      rfl
    · rw [h₂]
      rfl
    · rw [h₃]
      rfl
  · intro h
    exact ⟨(Option.some.inj (h 0 (by decide))).symm, (Option.some.inj (h 1 (by decide))).symm,
      (Option.some.inj (h 2 (by decide))).symm, (Option.some.inj (h 3 (by decide))).symm⟩

/-- On an ext2 volume the loop does the same, with the `fread` of a client of the server. -/
theorem readLoop_ext2 {sb : Ext2.Superblock} {disk : ℕ → UInt8} {fsnode : Ext2.FsNode}
    {e : Ext2.Inode} {p : ℕ} {sys : Ext2.System} (h : Ext2.Streaming sb disk fsnode e p sys)
    (hbs : sb.blockSize ≤ 1) (hm : Ext2.FileMapped sb disk e) (hn : Ext2.FileNear sb disk e)
    (fuel : ℕ) (progbuf : ℕ → UInt8) (i : ℕ) :
    readLoop (Ext2.fread sb) fuel sys progbuf i =
      readLoop freadFile fuel ((Ext2.fileContent sb disk e).drop p) progbuf i := by
  induction fuel generalizing p sys progbuf i with
  | zero => rfl
  | succ fuel ih =>
    obtain ⟨sys', hrun, hs, -⟩ := h.fread hbs hm hn (show pageSize * 1 < 2 ^ 31 by decide)
    have hdrop : (Ext2.fileContent sb disk e).drop (p + min (pageSize * 1) (e.lowerSize - p)) =
        ((Ext2.fileContent sb disk e).drop p).drop (pageSize * 1) := by
      rw [List.drop_drop]
      rcases Nat.le_total (pageSize * 1) (e.lowerSize - p) with hle | hle
      · rw [Nat.min_eq_left hle]
      · rw [Nat.min_eq_right hle, List.drop_eq_nil_of_le, List.drop_eq_nil_of_le]
        · rw [Ext2.length_fileContent]
          omega
        · rw [Ext2.length_fileContent]
          omega
    rw [readLoop, readLoop, hrun, freadFile, ← hdrop]
    simp only [Option.bind_eq_bind, Option.bind_some, ih hs]

/-! ## Independence -/

/-- Where the bytes that are looked at and passed on come from the file, earlier calls do not
matter. -/
theorem Settled.independent {n : ℕ} {file : List UInt8} (h : Settled n file)
    (hfit : file.length ≤ progbufSize) : Independent n file := by
  intro p₁ p₂ _ _
  rw [spawn_eq hfit, spawn_eq hfit]
  rcases h with ⟨i, b, m, hb, hm, hne⟩ | ⟨hfour, hn⟩
  · -- the file is rejected
    have hreject : ∀ p, elfIsValid (writeBytes p 0 file) = false := by
      intro p
      by_contra hvalid
      have hi : i < 4 := (List.getElem?_eq_some_iff.1 hm).1
      have hbyte := (elfIsValid_iff _).1 (Bool.eq_true_of_not_eq_false hvalid) i hi
      rw [writeBytes_zero, List.getD_eq_getElem?_getD, hb, hm] at hbyte
      exact hne (Option.some.inj hbyte).symm
    rw [hreject, hreject]
    rfl
  · have hbyte : ∀ c < file.length, writeBytes p₁ 0 file c = writeBytes p₂ 0 file c := by
      intro c hc
      rw [writeBytes_zero, writeBytes_zero, List.getD_eq_getElem _ _ hc, List.getD_eq_getElem _ _ hc]
    have hvalid : elfIsValid (writeBytes p₁ 0 file) = elfIsValid (writeBytes p₂ 0 file) := by
      rw [elfIsValid, elfIsValid, hbyte 0 (by omega), hbyte 1 (by omega), hbyte 2 (by omega),
        hbyte 3 (by omega)]
    have hprefix : (List.range n).map (writeBytes p₁ 0 file) =
        (List.range n).map (writeBytes p₂ 0 file) :=
      List.map_congr_left fun c hc => hbyte c (Nat.lt_of_lt_of_le (List.mem_range.1 hc) hn)
    rw [hvalid]
    split
    · exact congrArg (some ∘ some) hprefix
    · rfl

/-- Otherwise two histories tell the difference. -/
theorem Independent.settled {n : ℕ} {file : List UInt8} (h : Independent n file)
    (hfit : file.length ≤ progbufSize) (hn : n ≤ progbufSize) : Settled n file := by
  by_contra hnot
  rw [Settled, not_or] at hnot
  obtain ⟨hmatch, hshort⟩ := hnot
  have hearlier : ∀ earlier : List UInt8, earlier.length ≤ progbufSize →
      Earlier (writeBytes (fun _ => 0) 0 earlier) :=
    fun earlier hle => Earlier.start.spawn (spawn_eq hle _)
  have hmag : ∀ i < 4, ∃ m, elfMag[i]? = some m ∧ m ≠ 0 := by decide
  have hin : ∀ p, ∀ i < file.length, i < 4 → elfMag[i]? = some (writeBytes p 0 file i) := by
    intro p i hi h4
    obtain ⟨m, hm, -⟩ := hmag i h4
    rw [writeBytes_zero, List.getD_eq_getElem _ _ hi, hm]
    by_contra hne
    exact hmatch ⟨i, _, m, List.getElem?_eq_getElem hi, hm, fun he => hne (congrArg some he.symm)⟩
  rcases Nat.lt_or_ge file.length 4 with hlen | hlen
  · -- the first bytes of a program that was spawned before make the file valid
    have h₁₂ := h _ _ .start (hearlier elfMag (by decide))
    have hinvalid : elfIsValid (writeBytes (fun _ => 0) 0 file) = false := by
      by_contra hvalid
      have hbyte := (elfIsValid_iff _).1 (Bool.eq_true_of_not_eq_false hvalid) file.length hlen
      obtain ⟨m, hm, hne⟩ := hmag file.length hlen
      rw [writeBytes_zero, List.getD_eq_default _ _ le_rfl, hm] at hbyte
      exact hne (Option.some.inj hbyte)
    have hvalid : elfIsValid (writeBytes (writeBytes (fun _ => 0) 0 elfMag) 0 file) = true := by
      rw [elfIsValid_iff]
      intro i hi
      rcases Nat.lt_or_ge i file.length with hlt | hge
      · exact hin _ i hlt hi
      · have hi' : i < elfMag.length := hi
        rw [writeBytes_zero, List.getD_eq_default _ _ hge, writeBytes_zero,
          List.getD_eq_getElem _ _ hi', List.getElem?_eq_getElem]
    rw [spawn_eq hfit, spawn_eq hfit, hinvalid, hvalid] at h₁₂
    exact Option.some_ne_none _ (Option.some.inj h₁₂).symm
  · -- the bytes behind the file are those of the one before
    have h₁₂ := h _ _ .start (hearlier (List.replicate progbufSize 1)
      (Nat.le_of_eq List.length_replicate))
    have hvalid : ∀ p, elfIsValid (writeBytes p 0 file) = true := by
      intro p
      rw [elfIsValid_iff]
      exact fun i hi => hin p i (by omega) hi
    rw [spawn_eq hfit, spawn_eq hfit, hvalid, hvalid] at h₁₂
    have hlt : file.length < n := by omega
    have hlist : (List.range n).map (writeBytes (fun _ => 0) 0 file) = (List.range n).map
        (writeBytes (writeBytes (fun _ => 0) 0 (List.replicate progbufSize 1)) 0 file) :=
      Option.some.inj (Option.some.inj h₁₂)
    have hbyte := List.map_inj_left.1 hlist file.length (List.mem_range.2 hlt)
    have hone : file.length < (List.replicate progbufSize (1 : UInt8)).length := by
      rw [List.length_replicate]
      omega
    rw [writeBytes_zero, List.getD_eq_default _ _ le_rfl, writeBytes_zero,
      List.getD_eq_default _ _ le_rfl, writeBytes_zero, List.getD_eq_getElem _ _ hone,
      List.getElem_replicate] at hbyte
    exact absurd hbyte (by decide)

/-- **`spawn` writes behind `progbuf` exactly for the files that are longer. For the others its
decision, and the first `n` bytes it passes on, are independent of earlier calls exactly when they
come from the file.** -/
theorem spawn_independent_iff (file : List UInt8) :
    (∀ progbuf, (∃ i nread, readLoop freadFile (file.length + 1) file progbuf 0 =
      some (.overrun i nread)) ↔ progbufSize < file.length) ∧
    (file.length ≤ progbufSize → ∀ n ≤ progbufSize, Independent n file ↔ Settled n file) := by
  constructor
  · intro progbuf
    have hloop := readLoop_file (Nat.lt_succ_self file.length) progbuf 0
    rw [Nat.zero_add] at hloop
    constructor
    · rintro ⟨i, nread, hover⟩
      by_contra hle
      have hdone := hloop.1 (Nat.le_of_not_lt hle)
      rw [Nat.succ_eq_add_one, hover] at hdone
      cases hdone
    · exact hloop.2
  · intro hfit n hn
    constructor
    · exact fun h => h.settled hfit hn
    · exact fun h => h.independent hfit

/-- A file of four bytes, and the image of its four bytes. -/
theorem spawn_independent_elfMag : Independent 4 elfMag :=
  ((spawn_independent_iff elfMag).2 (by decide) 4 (by decide)).2
    (.inr ⟨Nat.le_refl 4, Nat.le_refl 4⟩)

/-- An empty file is rejected at first. After another program it is accepted, and this program is
loaded again. A file that is a byte too long is written behind the end. -/
theorem spawn_not_independent :
    (∃ r₁ r₂ r₃, spawn (fun _ => 0) (some []) = some r₁ ∧ r₁.image.isNone ∧
      spawn (fun _ => 0) (some elfMag) = some r₂ ∧ spawn r₂.progbuf (some []) = some r₃ ∧
      r₃.image.isSome) ∧
    spawn (fun _ => 0) (some (List.replicate (progbufSize + 1) 0)) = none := by
  constructor
  · refine ⟨_, _, _, rfl, rfl, rfl, rfl, ?_⟩
    rfl
  · apply spawn_eq_none
    rw [List.length_replicate]
    exact Nat.lt_succ_self _

end C4OS.Elf
