import C4OS.Elf.Stack

/-!
# The segments of a new program

The loop of `elf_load_full` over the program headers. Memory consists of frames of pages, and an
address space maps page numbers to the pages of frames. For each header the loader gets a frame,
maps it into its own address space at `databuf` and into the one of the program, and copies the
bytes of the image.

The image lies in the memory of the loader, so that the loader reads the headers through its address
space as well. The kernel is not part of the sources. Mapping replaces what is mapped at the pages
of a frame, one page after the other. Unmapping is a parameter, of which it is known that it undoes
a mapping.

`segments_arrive_iff` says which images are loaded as they should be: the frame of a segment starts
at the page of its first byte but has only as many pages as the size of the segment alone needs, and
the frame of a later segment may take the place of a page.
-/

namespace C4OS.Elf

open Foundations

/-- The number of pages of an address space. -/
abbrev pageCount : ℕ := 2 ^ 20

/-- An address space: the frame mapped at a page, and the index of the page in the frame. -/
abbrev Space := ℕ → Option (ℕ × ℕ)

/-- The memory and the address spaces of the loader and of the program. The frames from `nextFrame`
on are not used yet. -/
structure Machine where
  frames : ℕ → ℕ → UInt8
  nextFrame : ℕ
  loader : Space
  child : Space

/-- `c4_addrspace_map`, of a frame with a number of pages. -/
def addrspaceMap (sp : Space) (frame pages addr : ℕ) : Space := fun p =>
  let i := (p + (pageCount - addr / pageSize)) % pageCount
  if p < pageCount ∧ i < pages then some (frame, i) else sp p

namespace Machine

/-- The place of an address in the memory. -/
def translate (sp : Space) (addr : ℕ) : Option (ℕ × ℕ) := do
  let (frame, i) ← sp (addr % wordSize / pageSize)
  return (frame, i * pageSize + addr % pageSize)

/-- A byte that the loader reads. -/
def loadByte (m : Machine) (addr : ℕ) : Option UInt8 := do
  let (frame, i) ← translate m.loader addr
  return m.frames frame i

/-- A byte that the loader writes. -/
def storeByte (m : Machine) (addr : ℕ) (b : UInt8) : Option Machine := do
  let (frame, i) ← translate m.loader addr
  return { m with frames := Function.update m.frames frame (Function.update (m.frames frame) i b) }

/-- A number that the loader reads. -/
def loadLE (m : Machine) : ℕ → ℕ → Option ℕ
  | 0, _ => some 0
  | k + 1, addr => do
    let b ← m.loadByte addr
    let x ← m.loadLE k (addr + 1)
    return b.toNat + 256 * x

/-- A byte that the program finds at an address. -/
def childByte (m : Machine) (addr : ℕ) : Option UInt8 := do
  let (frame, i) ← translate m.child addr
  return m.frames frame i

end Machine

/-- `databuf`. -/
abbrev databuf : ℕ := 0xda000000

/-- The number of pages for a size. -/
def pagesFor (memsz : ℕ) : ℕ := memsz / pageSize + if memsz % pageSize > 0 then 1 else 0

/-- `elf_get_phdr`, for an index that is in the table: the address of a header. -/
def elfGetPhdr (m : Machine) (elf index : ℕ) : Option ℕ := do
  let phoff ← m.loadLE 4 (elf + 28)
  let phentsize ← m.loadLE 2 (elf + 42)
  return elf + phoff + phentsize * index

/-- The loop that copies a segment. The size is read again in each turn. -/
def copyLoop (header progdata offset : ℕ) : ℕ → Machine → ℕ → Option Machine
  | 0, _, _ => none
  | fuel + 1, m, k => do
    let filesz ← m.loadLE 4 (header + 16)
    if k < filesz then
      let b ← m.loadByte (progdata + k)
      let m ← m.storeByte (databuf + (k + offset)) b
      copyLoop header progdata offset fuel m (k + 1)
    else
      return m

section

variable (unmap : Space → ℕ → Space)

/-- The body of the loop over the program headers. -/
def loadSegment (elf : ℕ) (m : Machine) (index : ℕ) : Option Machine := do
  let header ← elfGetPhdr m elf index
  let poffset ← m.loadLE 4 (header + 4)
  let addr ← m.loadLE 4 (header + 8)
  let memsz ← m.loadLE 4 (header + 20)
  let frame := m.nextFrame
  let offset := addr % pageSize
  let m := { m with
    nextFrame := m.nextFrame + 1
    loader := addrspaceMap m.loader frame (pagesFor memsz) databuf
    child := addrspaceMap m.child frame (pagesFor memsz) (addr - offset) }
  let m ← copyLoop header (elf + poffset) offset (wordSize + 1) m 0
  return { m with loader := unmap m.loader databuf }

/-- The loop over the program headers. -/
def loadSegments (elf : ℕ) : ℕ → Machine → ℕ → Option Machine
  | 0, _, _ => none
  | fuel + 1, m, index => do
    let phnum ← m.loadLE 2 (elf + 44)
    if index < phnum then
      let m ← loadSegment unmap elf m index
      loadSegments elf fuel m (index + 1)
    else
      return m

/-- The end of `elf_load_full`. -/
def elfLoadSegments (elf : ℕ) (m : Machine) : Option Machine :=
  loadSegments unmap elf (2 ^ 16) m 0

end

/-! ## Images -/

/-- The fields of `Elf32_Phdr` that are used. -/
structure Phdr where
  offset : ℕ
  vaddr : ℕ
  filesz : ℕ
  memsz : ℕ
  deriving DecidableEq

namespace Phdr

/-- The address is in the segment. -/
def Contains (h : Phdr) (addr : ℕ) : Prop := h.vaddr ≤ addr ∧ addr < h.vaddr + h.memsz

/-- The page is in the frame of the segment. -/
def Covers (h : Phdr) (page : ℕ) : Prop :=
  h.vaddr / pageSize ≤ page ∧ page < h.vaddr / pageSize + pagesFor h.memsz

instance (h : Phdr) (page : ℕ) : Decidable (h.Covers page) := inferInstanceAs (Decidable (_ ∧ _))

end Phdr

/-- An ELF image. -/
structure Image where
  byte : ℕ → UInt8
  size : ℕ

namespace Image

/-- `e_phnum`. -/
def phnum (img : Image) : ℕ := readLE 2 img.byte 44

/-- The offset of a program header in the image. -/
def phdrOffset (img : Image) (i : ℕ) : ℕ := readLE 4 img.byte 28 + readLE 2 img.byte 42 * i

/-- A program header. -/
def phdr (img : Image) (i : ℕ) : Phdr :=
  let off := img.phdrOffset i
  ⟨readLE 4 img.byte (off + 4), readLE 4 img.byte (off + 8), readLE 4 img.byte (off + 16),
    readLE 4 img.byte (off + 20)⟩

/-- The headers are in the image and describe disjoint ranges of addresses, with their data in the
image. -/
structure Wf (img : Image) : Prop where
  header_le : 52 ≤ img.size
  phdr_le : ∀ i < img.phnum, img.phdrOffset i + 32 ≤ img.size
  filesz_le : ∀ i < img.phnum, (img.phdr i).filesz ≤ (img.phdr i).memsz
  data_le : ∀ i < img.phnum, (img.phdr i).offset + (img.phdr i).filesz ≤ img.size
  range_le : ∀ i < img.phnum, (img.phdr i).vaddr + (img.phdr i).memsz ≤ wordSize
  disjoint : ∀ i < img.phnum, ∀ j < img.phnum, i ≠ j → ∀ addr, (img.phdr i).Contains addr →
    ¬(img.phdr j).Contains addr

/-- **The segments have arrived**: every address of a segment is mapped, and the bytes of the image
are where they belong. -/
def Arrived (img : Image) (m : Machine) : Prop :=
  ∀ i < img.phnum, (∀ addr, (img.phdr i).Contains addr → (m.child (addr / pageSize)).isSome) ∧
    ∀ k < (img.phdr i).filesz,
      m.childByte ((img.phdr i).vaddr + k) = some (img.byte ((img.phdr i).offset + k))

end Image

/-- `unmap` undoes the mapping of a new frame at pages where nothing was mapped. -/
def Undoes (unmap : Space → ℕ → Space) : Prop :=
  ∀ (sp : Space) (frame pages addr : ℕ), addr / pageSize + pages ≤ pageCount →
    sp (addr / pageSize) = none → (∀ p < pages, sp (addr / pageSize + p) = none) →
    (∀ p i, sp p ≠ some (frame, i)) → unmap (addrspaceMap sp frame pages addr) addr = sp

/-- The loader has the image in its memory, and nothing at `databuf` where it will map the frames,
and in the page behind them. -/
structure Ready (img : Image) (elf : ℕ) (m : Machine) : Prop where
  image_le : elf + img.size ≤ wordSize
  image : ∀ i < img.size, m.loadByte (elf + i) = some (img.byte i)
  used : ∀ p frame i, m.loader p = some (frame, i) → frame < m.nextFrame
  window_le : ∀ i < img.phnum, databuf / pageSize + pagesFor (img.phdr i).memsz < pageCount
  window : ∀ i < img.phnum, ∀ p ≤ pagesFor (img.phdr i).memsz,
    m.loader (databuf / pageSize + p) = none

/-! ## Mapping -/

variable {unmap : Space → ℕ → Space} {img : Image} {elf : ℕ} {m m' : Machine} {sp : Space}
  {frame pages addr p i j k n : ℕ} {h : Phdr}

theorem addrspaceMap_apply (sp : Space) (frame : ℕ)
    (hpages : addr / pageSize + pages ≤ pageCount) (q : ℕ) :
    addrspaceMap sp frame pages addr q =
      if addr / pageSize ≤ q ∧ q < addr / pageSize + pages then some (frame, q - addr / pageSize)
      else sp q := by
  simp only [addrspaceMap]
  generalize addr / pageSize = b at hpages ⊢
  have hpages' : b + pages ≤ 1048576 := hpages
  by_cases hq : b ≤ q ∧ q < b + pages
  · have hi : (q + (pageCount - b)) % pageCount = q - b := by
      show (q + (1048576 - b)) % 1048576 = q - b
      omega
    have hlt : q < pageCount := by
      show q < 1048576
      omega
    rw [hi, if_pos ⟨hlt, by omega⟩, if_pos hq]
  · rw [if_neg hq, if_neg]
    rintro ⟨hlt, hi⟩
    have hlt' : q < 1048576 := hlt
    have hi' : (q + (1048576 - b)) % 1048576 < pages := hi
    omega

theorem translate_eq (haddr : addr < wordSize) {q : ℕ} (hq : addr / pageSize = q) :
    Machine.translate sp addr = (sp q).map fun x => (x.1, x.2 * pageSize + addr % pageSize) := by
  rw [Machine.translate, Nat.mod_eq_of_lt haddr, hq]
  cases sp q <;> rfl

/-- What is mapped stays mapped beside the pages of a new frame. -/
theorem translate_addrspaceMap_of_some (frame : ℕ) {x : ℕ × ℕ}
    (hpages : addr / pageSize + pages ≤ pageCount)
    (hfree : ∀ p < pages, sp (addr / pageSize + p) = none) {a : ℕ}
    (h : Machine.translate sp a = some x) :
    Machine.translate (addrspaceMap sp frame pages addr) a = some x := by
  have hq : sp (a % wordSize / pageSize) ≠ none := by
    intro hnone
    rw [Machine.translate, hnone] at h
    cases h
  rw [Machine.translate, addrspaceMap_apply sp frame hpages, if_neg]
  · exact h
  · intro hin
    apply hq
    have := hfree (a % wordSize / pageSize - addr / pageSize) (by omega)
    rwa [Nat.add_sub_cancel' hin.1] at this

/-! ## Reading the image -/

theorem loadLE_eq {img : Image} (himage : ∀ i < img.size, m.loadByte (elf + i) = some (img.byte i))
    {off : ℕ} (hoff : off + k ≤ img.size) :
    m.loadLE k (elf + off) = some (readLE k img.byte off) := by
  induction k generalizing off with
  | zero => rfl
  | succ k ih =>
    have hrest : m.loadLE k (elf + off + 1) = some (readLE k img.byte (off + 1)) :=
      ih (show off + 1 + k ≤ img.size by omega)
    exact run_bind (himage off (by omega)) (run_bind hrest rfl)

/-- The page behind a size. -/
theorem lt_pagesFor (memsz : ℕ) : memsz ≤ pagesFor memsz * 4096 := by
  show memsz ≤ (memsz / 4096 + if memsz % 4096 > 0 then 1 else 0) * 4096
  split <;> omega

/-! ## Copying a segment -/

/-- The frame of a segment after `k` bytes of it were copied. -/
def copied (img : Image) (h : Phdr) (k : ℕ) (c : ℕ → UInt8) : ℕ → UInt8 := fun x =>
  if h.vaddr % pageSize ≤ x ∧ x < h.vaddr % pageSize + k then
    img.byte (h.offset + (x - h.vaddr % pageSize))
  else c x

/-- The machine while a segment is copied. -/
def copying (img : Image) (h : Phdr) (m : Machine) (k : ℕ) : Machine where
  frames := Function.update m.frames m.nextFrame (copied img h k (m.frames m.nextFrame))
  nextFrame := m.nextFrame + 1
  loader := addrspaceMap m.loader m.nextFrame (pagesFor h.memsz) databuf
  child := addrspaceMap m.child m.nextFrame (pagesFor h.memsz) (h.vaddr - h.vaddr % pageSize)

/-- The file part of a segment fits into its frame. -/
def Phdr.Fits (h : Phdr) : Prop :=
  h.filesz = 0 ∨ h.vaddr % pageSize + h.filesz ≤ pagesFor h.memsz * pageSize

section

variable (hready : Ready img elf m) (hi : i < img.phnum)

include hready hi

omit hi in
/-- The bytes of the image are in frames that are used. -/
theorem Ready.exists_translate {x : ℕ} (hx : x < img.size) :
    ∃ frame off, Machine.translate m.loader (elf + x) = some (frame, off) ∧ frame < m.nextFrame ∧
      m.frames frame off = img.byte x := by
  have himage := hready.image x hx
  simp only [Machine.loadByte, Option.bind_eq_bind, Option.bind_eq_some_iff] at himage
  obtain ⟨⟨frame, off⟩, htrans, hbyte⟩ := himage
  refine ⟨frame, off, htrans, ?_, Option.some.inj hbyte⟩
  rw [Machine.translate] at htrans
  simp only [Option.bind_eq_bind, Option.bind_eq_some_iff] at htrans
  obtain ⟨⟨frame', j⟩, hmap, hj⟩ := htrans
  cases hj
  exact hready.used _ _ _ hmap

/-- The image is in the memory while a segment is copied. -/
theorem copying_image (k : ℕ) : ∀ x < img.size,
    (copying img (img.phdr i) m k).loadByte (elf + x) = some (img.byte x) := by
  intro x hx
  obtain ⟨frame, off, htrans, hused, hbyte⟩ := hready.exists_translate hx
  have hkeep := translate_addrspaceMap_of_some m.nextFrame (Nat.le_of_lt (hready.window_le i hi))
    (fun p hp => hready.window i hi p (Nat.le_of_lt hp)) htrans
  refine run_bind hkeep ?_
  show some (Function.update m.frames m.nextFrame _ frame off) = _
  rw [Function.update_of_ne (Nat.ne_of_lt hused), hbyte]

/-- A byte of a segment is stored in its frame, unless it is behind the end of the frame. -/
theorem copying_store (hwf : img.Wf) (hk : k < (img.phdr i).filesz) :
    (copying img (img.phdr i) m k).storeByte (databuf + (k + (img.phdr i).vaddr % pageSize))
        (img.byte ((img.phdr i).offset + k)) =
      if k + (img.phdr i).vaddr % pageSize < pagesFor (img.phdr i).memsz * pageSize then
        some (copying img (img.phdr i) m (k + 1))
      else none := by
  have hmemsz := lt_pagesFor (img.phdr i).memsz
  have hfilesz := hwf.filesz_le i hi
  have hle := hready.window_le i hi
  have hwindow := hready.window i hi
  generalize hh : img.phdr i = h at *
  obtain ⟨x, hx⟩ : ∃ x, x = k + h.vaddr % pageSize := ⟨_, rfl⟩
  have hoff : h.vaddr % pageSize < 4096 := Nat.mod_lt _ (by decide)
  have hle' : 892928 + pagesFor h.memsz < 1048576 := hle
  have haddr : databuf + x < wordSize := by
    show 3657433088 + x < 4294967296
    omega
  have hpage : (databuf + x) / pageSize = databuf / pageSize + x / pageSize := by
    show (3657433088 + x) / 4096 = 892928 + x / 4096
    omega
  have hmod : (databuf + x) % pageSize = x % pageSize := by
    show (3657433088 + x) % 4096 = x % 4096
    omega
  have htrans : Machine.translate (copying img h m k).loader (databuf + x) =
      if x < pagesFor h.memsz * pageSize then some (m.nextFrame, x) else none := by
    rw [translate_eq haddr hpage, hmod]
    show Option.map _ (addrspaceMap m.loader m.nextFrame (pagesFor h.memsz) databuf _) = _
    rw [addrspaceMap_apply _ _ (Nat.le_of_lt hle)]
    have hdiv : x / pageSize = x / 4096 := rfl
    split
    · next hin =>
      have hback : x / pageSize * pageSize + x % pageSize = x := Nat.div_add_mod' x pageSize
      rw [if_pos (show x < pagesFor h.memsz * 4096 by omega), Nat.add_sub_cancel_left]
      simp only [Option.map_some, hback]
    · next hout =>
      rw [if_neg (show ¬x < pagesFor h.memsz * 4096 by omega), hwindow _ (by omega)]
      rfl
  rw [← hx, Machine.storeByte, htrans]
  split
  · have hframe :
        Function.update (copied img h k (m.frames m.nextFrame)) x (img.byte (h.offset + k)) =
        copied img h (k + 1) (m.frames m.nextFrame) := by
      funext c
      simp only [Function.update_apply, copied]
      split
      · next hc =>
        rw [if_pos ⟨by omega, by omega⟩, hc, hx, Nat.add_sub_cancel]
      · next hc =>
        have : h.vaddr % pageSize ≤ c ∧ c < h.vaddr % pageSize + k ↔
            h.vaddr % pageSize ≤ c ∧ c < h.vaddr % pageSize + (k + 1) := by omega
        simp only [this]
    simp [copying, hframe]
  · rfl

/-- The copying loop ends with all bytes in the frame, or with a page fault behind it. -/
theorem copyLoop_eq (hwf : img.Wf) {fuel : ℕ} (hk : k ≤ (img.phdr i).filesz)
    (hfuel : (img.phdr i).filesz - k < fuel) :
    ((img.phdr i).Fits → copyLoop (elf + img.phdrOffset i) (elf + (img.phdr i).offset)
        ((img.phdr i).vaddr % pageSize) fuel (copying img (img.phdr i) m k) k =
          some (copying img (img.phdr i) m (img.phdr i).filesz)) ∧
      (¬(img.phdr i).Fits →
        k + (img.phdr i).vaddr % pageSize ≤ pagesFor (img.phdr i).memsz * pageSize →
        copyLoop (elf + img.phdrOffset i) (elf + (img.phdr i).offset)
          ((img.phdr i).vaddr % pageSize) fuel (copying img (img.phdr i) m k) k = none) := by
  have hphdr := hwf.phdr_le i hi
  have hdata := hwf.data_le i hi
  have hfilesz (k : ℕ) : (copying img (img.phdr i) m k).loadLE 4 (elf + img.phdrOffset i + 16) =
      some (img.phdr i).filesz := by
    rw [Nat.add_assoc]
    exact loadLE_eq (copying_image hready hi k) (by omega)
  induction fuel generalizing k with
  | zero => omega
  | succ fuel ih =>
    rw [copyLoop, hfilesz]
    by_cases hlt : k < (img.phdr i).filesz
    · have hbyte := copying_image hready hi k ((img.phdr i).offset + k) (by omega)
      rw [← Nat.add_assoc] at hbyte
      have hstore := copying_store hready hi hwf hlt
      simp only [Option.bind_eq_bind, Option.bind_some, if_pos hlt, hbyte, hstore]
      split
      · next hin =>
        obtain ⟨hfit, hnot⟩ := ih (k := k + 1) hlt (by omega)
        exact ⟨hfit, fun hf _ => hnot hf (by omega)⟩
      · next hout =>
        refine ⟨fun hf => absurd hf ?_, fun _ _ => rfl⟩
        rintro (h | h) <;> omega
    · obtain rfl : k = (img.phdr i).filesz := by omega
      simp only [Option.bind_eq_bind, Option.bind_some, if_neg hlt]
      refine ⟨fun _ => rfl, fun hf hin => absurd ?_ hf⟩
      exact .inr (by omega)

/-- The machine after a segment was loaded. -/
def loaded (img : Image) (h : Phdr) (m : Machine) : Machine :=
  { copying img h m h.filesz with loader := m.loader }

omit hready hi in
/-- The frame is mapped before the first byte is copied. -/
theorem copying_zero (h : Phdr) : copying img h m 0 =
    { m with
      nextFrame := m.nextFrame + 1
      loader := addrspaceMap m.loader m.nextFrame (pagesFor h.memsz) databuf
      child := addrspaceMap m.child m.nextFrame (pagesFor h.memsz)
        (h.vaddr - h.vaddr % pageSize) } := by
  have hzero : copied img h 0 (m.frames m.nextFrame) = m.frames m.nextFrame := by
    funext c
    rw [copied, if_neg (by omega)]
  rw [copying, hzero, Function.update_eq_self]

theorem loadSegment_eq_copyLoop (hwf : img.Wf) :
    loadSegment unmap elf m i =
      (copyLoop (elf + img.phdrOffset i) (elf + (img.phdr i).offset) ((img.phdr i).vaddr % pageSize)
        (wordSize + 1) (copying img (img.phdr i) m 0) 0).map
          fun m' => { m' with loader := unmap m'.loader databuf } := by
  have hphdr := hwf.phdr_le i hi
  have hheader := hwf.header_le
  have hget : elfGetPhdr m elf i = some (elf + img.phdrOffset i) := by
    refine run_bind (loadLE_eq hready.image (by omega)) ?_
    refine run_bind (loadLE_eq hready.image (by omega)) ?_
    rw [Nat.add_assoc]
    rfl
  have hfield {off : ℕ} (hoff : off + 4 ≤ 32) : m.loadLE 4 (elf + img.phdrOffset i + off) =
      some (readLE 4 img.byte (img.phdrOffset i + off)) := by
    rw [Nat.add_assoc]
    exact loadLE_eq hready.image (by omega)
  rw [loadSegment, hget, copying_zero]
  simp only [Option.bind_eq_bind, Option.bind_some, hfield (show 4 + 4 ≤ 32 by decide),
    hfield (show 8 + 4 ≤ 32 by decide), hfield (show 20 + 4 ≤ 32 by decide)]
  exact Option.map_eq_bind.symm

/-- A segment is loaded when its file part fits into the frame, and else there is a page fault. -/
theorem loadSegment_eq (hundo : Undoes unmap) (hwf : img.Wf) :
    ((img.phdr i).Fits → loadSegment unmap elf m i = some (loaded img (img.phdr i) m)) ∧
      (¬(img.phdr i).Fits → loadSegment unmap elf m i = none) := by
  have hlt : (img.phdr i).filesz < wordSize := readLE_lt 4 _ _
  obtain ⟨hfit, hnot⟩ := copyLoop_eq hready hi hwf (Nat.zero_le _)
    (by omega : (img.phdr i).filesz - 0 < wordSize + 1)
  rw [loadSegment_eq_copyLoop hready hi hwf]
  constructor
  · intro h
    have hunmap : unmap (copying img (img.phdr i) m (img.phdr i).filesz).loader databuf = m.loader :=
      hundo _ _ _ _ (Nat.le_of_lt (hready.window_le i hi)) (hready.window i hi 0 (Nat.zero_le _))
        (fun p hp => hready.window i hi p (Nat.le_of_lt hp))
        (fun p j hp => Nat.lt_irrefl _ (hready.used _ _ _ hp))
    rw [hfit h, Option.map_some, hunmap]
    rfl
  · intro h
    have hfilesz : (img.phdr i).filesz ≠ 0 := fun h0 => h (.inl h0)
    have hle := hwf.filesz_le i hi
    have hmemsz := lt_pagesFor (img.phdr i).memsz
    have hmod : (img.phdr i).vaddr % pageSize < 4096 := Nat.mod_lt _ (by decide)
    rw [hnot h, Option.map_none]
    show 0 + (img.phdr i).vaddr % pageSize ≤ pagesFor (img.phdr i).memsz * 4096
    omega

omit hi in
theorem Ready.loaded (h : Phdr) : Ready img elf (loaded img h m) where
  image_le := hready.image_le
  image := by
    intro x hx
    obtain ⟨frame, off, htrans, hused, hbyte⟩ := hready.exists_translate hx
    refine run_bind htrans ?_
    show some (Function.update m.frames m.nextFrame _ frame off) = _
    rw [Function.update_of_ne (Nat.ne_of_lt hused), hbyte]
  used p frame j hp := Nat.lt_succ_of_lt (hready.used p frame j hp)
  window_le := hready.window_le
  window := hready.window

end

/-! ## All segments -/

/-- The machine after the first `n` segments were loaded. -/
def after (img : Image) (m : Machine) : ℕ → Machine
  | 0 => m
  | n + 1 => loaded img (img.phdr n) (after img m n)

theorem Ready.after (hready : Ready img elf m) (n : ℕ) : Ready img elf (after img m n) := by
  induction n with
  | zero => exact hready
  | succ n ih => exact ih.loaded _

theorem loadSegments_after (hready : Ready img elf m) (hundo : Undoes unmap) (hwf : img.Wf)
    {fuel : ℕ} (hi : i ≤ img.phnum) (hfuel : img.phnum - i < fuel)
    (hfits : ∀ j, i ≤ j → j < img.phnum → (img.phdr j).Fits) :
    loadSegments unmap elf fuel (after img m i) i = some (after img m img.phnum) := by
  have hheader := hwf.header_le
  have hphnum (i : ℕ) : (after img m i).loadLE 2 (elf + 44) = some img.phnum :=
    loadLE_eq (hready.after i).image (by omega)
  induction fuel generalizing i with
  | zero => omega
  | succ fuel ih =>
    refine run_bind (hphnum i) ?_
    split
    · next hlt =>
      have hseg := (loadSegment_eq (hready.after i) hlt hundo hwf).1 (hfits i (Nat.le_refl i) hlt)
      exact run_bind hseg (ih hlt (by omega) fun j hj => hfits j (by omega))
    · next hge =>
      obtain rfl : i = img.phnum := by omega
      rfl

/-- When the loop ends, the file parts of the segments fit into their frames. -/
theorem fits_of_loadSegments (hready : Ready img elf m) (hundo : Undoes unmap) (hwf : img.Wf)
    {fuel : ℕ} (h : loadSegments unmap elf fuel (after img m i) i = some m') :
    ∀ j, i ≤ j → j < img.phnum → (img.phdr j).Fits := by
  have hheader := hwf.header_le
  have hphnum (i : ℕ) : (after img m i).loadLE 2 (elf + 44) = some img.phnum :=
    loadLE_eq (hready.after i).image (by omega)
  induction fuel generalizing i with
  | zero => cases h
  | succ fuel ih =>
    intro j hj hjn
    rw [loadSegments, hphnum] at h
    simp only [Option.bind_eq_bind, Option.bind_some, if_pos (show i < img.phnum by omega)] at h
    obtain ⟨hfit, hnot⟩ := loadSegment_eq (hready.after i) (show i < img.phnum by omega) hundo hwf
    by_cases hi : (img.phdr i).Fits
    · rw [hfit hi] at h
      rcases Nat.eq_or_lt_of_le hj with rfl | hlt
      · exact hi
      · exact ih (i := i + 1) h j hlt hjn
    · rw [hnot hi] at h
      cases h

theorem nextFrame_after (n : ℕ) : (after img m n).nextFrame = m.nextFrame + n := by
  induction n with
  | zero => rfl
  | succ n ih => exact congrArg (· + 1) ih

/-- The frames from the next one on are not written. -/
theorem frames_after_of_le (hni : n ≤ i) :
    (after img m n).frames (m.nextFrame + i) = m.frames (m.nextFrame + i) := by
  induction n with
  | zero => rfl
  | succ n ih =>
    show Function.update (after img m n).frames (after img m n).nextFrame _ _ = _
    rw [nextFrame_after, Function.update_of_ne (by omega), ih (by omega)]

/-- The frame of a segment. -/
theorem frames_after (hin : i < n) : (after img m n).frames (m.nextFrame + i) =
    copied img (img.phdr i) (img.phdr i).filesz (m.frames (m.nextFrame + i)) := by
  induction n with
  | zero => omega
  | succ n ih =>
    show Function.update (after img m n).frames (after img m n).nextFrame _ _ = _
    rw [nextFrame_after]
    rcases Nat.eq_or_lt_of_le (Nat.le_of_lt_succ hin) with rfl | hlt
    · rw [Function.update_self, frames_after_of_le (Nat.le_refl i)]
    · rw [Function.update_of_ne (by omega), ih hlt]

/-- What a segment maps in the program. -/
theorem child_loaded (hrange : h.vaddr + h.memsz ≤ wordSize) (p : ℕ) :
    (loaded img h m).child p =
      if h.Covers p then some (m.nextFrame, p - h.vaddr / pageSize) else m.child p := by
  have hbase : (h.vaddr - h.vaddr % pageSize) / pageSize = h.vaddr / pageSize := by
    show (h.vaddr - h.vaddr % 4096) / 4096 = h.vaddr / 4096
    omega
  have hpages : h.vaddr / pageSize + pagesFor h.memsz ≤ pageCount := by
    have hrange' : h.vaddr + h.memsz ≤ 4294967296 := hrange
    show h.vaddr / 4096 + (h.memsz / 4096 + if h.memsz % 4096 > 0 then 1 else 0) ≤ 1048576
    split <;> omega
  rw [← hbase] at hpages
  have happly := addrspaceMap_apply m.child m.nextFrame hpages p
  rw [hbase] at happly
  exact happly

/-- A page that is in no frame of a segment is mapped as before. -/
theorem child_after_of_not_covers (hwf : img.Wf) (hn : n ≤ img.phnum)
    (h : ∀ j < n, ¬(img.phdr j).Covers p) : (after img m n).child p = m.child p := by
  induction n with
  | zero => rfl
  | succ n ih =>
    rw [after, child_loaded (hwf.range_le n hn), if_neg (h n (Nat.lt_succ_self n))]
    exact ih (Nat.le_of_lt hn) fun j hj => h j (Nat.lt_succ_of_lt hj)

/-- Else it is in the last one of these frames. -/
theorem child_after_of_covers (hwf : img.Wf) (hn : n ≤ img.phnum) (hj : j < n)
    (hcovers : (img.phdr j).Covers p)
    (hlast : ∀ j', j < j' → j' < n → ¬(img.phdr j').Covers p) :
    (after img m n).child p = some (m.nextFrame + j, p - (img.phdr j).vaddr / pageSize) := by
  induction n with
  | zero => omega
  | succ n ih =>
    rw [after, child_loaded (hwf.range_le n hn), nextFrame_after]
    rcases Nat.eq_or_lt_of_le (Nat.le_of_lt_succ hj) with rfl | hlt
    · rw [if_pos hcovers]
    · rw [if_neg (hlast n hlt (Nat.lt_succ_self n))]
      exact ih (Nat.le_of_lt hn) hlt fun j' h₁ h₂ => hlast j' h₁ (Nat.lt_succ_of_lt h₂)

theorem exists_last_covers (hj : j < n) (hcovers : (img.phdr j).Covers p) :
    ∃ j', j ≤ j' ∧ j' < n ∧ (img.phdr j').Covers p ∧
      ∀ j'', j' < j'' → j'' < n → ¬(img.phdr j'').Covers p := by
  induction n with
  | zero => omega
  | succ n ih =>
    by_cases hn : (img.phdr n).Covers p
    · exact ⟨n, Nat.le_of_lt_succ hj, Nat.lt_succ_self n, hn, fun j'' h₁ h₂ => by omega⟩
    · have hjn : j < n := by
        rcases Nat.eq_or_lt_of_le (Nat.le_of_lt_succ hj) with rfl | hlt
        · exact absurd hcovers hn
        · exact hlt
      obtain ⟨j', hjj', hj'n, hc, hlast⟩ := ih hjn
      refine ⟨j', hjj', Nat.lt_succ_of_lt hj'n, hc, fun j'' h₁ h₂ => ?_⟩
      rcases Nat.eq_or_lt_of_le (Nat.le_of_lt_succ h₂) with rfl | hlt
      · exact hn
      · exact hlast j'' h₁ hlt

/-- A byte of the program in a page whose last frame is the one of segment `j`. -/
theorem childByte_after (hwf : img.Wf) (hj : j < img.phnum) (haddr : addr < wordSize)
    (hcovers : (img.phdr j).Covers (addr / pageSize))
    (hlast : ∀ j', j < j' → j' < img.phnum → ¬(img.phdr j').Covers (addr / pageSize)) :
    (after img m img.phnum).childByte addr =
      some (copied img (img.phdr j) (img.phdr j).filesz (m.frames (m.nextFrame + j))
        (addr - (img.phdr j).vaddr / pageSize * pageSize)) := by
  have hchild := child_after_of_covers (m := m) hwf (Nat.le_refl _) hj hcovers hlast
  have hoff : (addr / pageSize - (img.phdr j).vaddr / pageSize) * pageSize + addr % pageSize =
      addr - (img.phdr j).vaddr / pageSize * pageSize := by
    have hle : (img.phdr j).vaddr / 4096 ≤ addr / 4096 := hcovers.1
    show (addr / 4096 - (img.phdr j).vaddr / 4096) * 4096 + addr % 4096 =
      addr - (img.phdr j).vaddr / 4096 * 4096
    omega
  have htrans : Machine.translate (after img m img.phnum).child addr = _ := translate_eq haddr rfl
  rw [hchild, Option.map_some, hoff] at htrans
  refine run_bind htrans ?_
  show some ((after img m img.phnum).frames (m.nextFrame + j) _) = _
  rw [frames_after hj]

/-! ## The images that arrive -/

/-- The pages of the file part of a segment are in its frame and in no frame of a later segment, and
each page of a segment is in the frame of some segment or was mapped before. -/
structure Image.Fitting (img : Image) (child : Space) : Prop where
  file : ∀ i < img.phnum, ∀ k < (img.phdr i).filesz,
    (img.phdr i).Covers (((img.phdr i).vaddr + k) / pageSize) ∧
      ∀ j, i < j → j < img.phnum → ¬(img.phdr j).Covers (((img.phdr i).vaddr + k) / pageSize)
  mem : ∀ i < img.phnum, ∀ addr, (img.phdr i).Contains addr →
    (∃ j < img.phnum, (img.phdr j).Covers (addr / pageSize)) ∨ (child (addr / pageSize)).isSome

/-- The machine with other contents of the frames that are not used yet. -/
def Machine.withFresh (m : Machine) (fresh : ℕ → ℕ → UInt8) : Machine :=
  { m with frames := fun frame => if frame < m.nextFrame then m.frames frame else fresh frame }

theorem withFresh_frames {fresh : ℕ → ℕ → UInt8} (hframe : m.nextFrame ≤ frame) :
    (m.withFresh fresh).frames frame = fresh frame := if_neg (Nat.not_lt_of_ge hframe)

theorem Ready.withFresh (hready : Ready img elf m) (fresh : ℕ → ℕ → UInt8) :
    Ready img elf (m.withFresh fresh) where
  image_le := hready.image_le
  image := by
    intro x hx
    obtain ⟨frame, off, htrans, hused, hbyte⟩ := hready.exists_translate hx
    refine run_bind htrans ?_
    show some ((if frame < m.nextFrame then m.frames frame else fresh frame) off) = _
    rw [if_pos hused, hbyte]
  used := hready.used
  window_le := hready.window_le
  window := hready.window

theorem phnum_lt (img : Image) : img.phnum < 2 ^ 16 := readLE_lt 2 _ _

/-- The file part of a segment fits into its frame exactly when the frame covers its pages. -/
theorem Phdr.fits_iff : h.Fits ↔ ∀ k < h.filesz, h.Covers ((h.vaddr + k) / pageSize) := by
  have hdiv (x : ℕ) : x / pageSize = x / 4096 := rfl
  have hmod : h.vaddr % pageSize = h.vaddr % 4096 := rfl
  have hsize : pagesFor h.memsz * pageSize = pagesFor h.memsz * 4096 := rfl
  simp only [Fits, Covers, hdiv, hmod, hsize]
  constructor
  · intro hfits k hk
    omega
  · intro hcovers
    by_cases h0 : h.filesz = 0
    · exact .inl h0
    · have := hcovers (h.filesz - 1) (by omega)
      omega

/-- The file part in the frame. -/
theorem copied_file {c : ℕ → UInt8} (hk : k < h.filesz) :
    copied img h h.filesz c (h.vaddr + k - h.vaddr / pageSize * pageSize) =
      img.byte (h.offset + k) := by
  have hoff : h.vaddr + k - h.vaddr / pageSize * pageSize = h.vaddr % pageSize + k := by
    show h.vaddr + k - h.vaddr / 4096 * 4096 = h.vaddr % 4096 + k
    omega
  rw [copied, hoff, if_pos ⟨by omega, by omega⟩, Nat.add_sub_cancel_left]

/-- Outside of a segment, its frame is not written. -/
theorem copied_of_not_contains {c : ℕ → UInt8} (hfilesz : h.filesz ≤ h.memsz)
    (hpage : h.vaddr / pageSize ≤ addr / pageSize) (haddr : ¬h.Contains addr) :
    copied img h h.filesz c (addr - h.vaddr / pageSize * pageSize) =
      c (addr - h.vaddr / pageSize * pageSize) := by
  rw [copied, if_neg]
  intro hin
  have hpage' : h.vaddr / 4096 ≤ addr / 4096 := hpage
  have hin' : h.vaddr % 4096 ≤ addr - h.vaddr / 4096 * 4096 ∧
    addr - h.vaddr / 4096 * 4096 < h.vaddr % 4096 + h.filesz := hin
  exact haddr ⟨by omega, by omega⟩

/-- A byte of the program in a page that a later segment took over. -/
theorem childByte_of_later (hwf : img.Wf) (hi : i < img.phnum) (hj : j < img.phnum) (hij : i < j)
    (haddr : (img.phdr i).Contains addr) (hcovers : (img.phdr j).Covers (addr / pageSize)) :
    ∃ frame off, m.nextFrame ≤ frame ∧
      (after img m img.phnum).childByte addr = some (m.frames frame off) := by
  obtain ⟨j', hjj', hj', hcovers', hlast⟩ := exists_last_covers hj hcovers
  have hout := hwf.disjoint i hi j' hj' (by omega) addr haddr
  have hlt : addr < wordSize := Nat.lt_of_lt_of_le haddr.2 (hwf.range_le i hi)
  have hbyte := childByte_after (m := m) hwf hj' hlt hcovers' hlast
  rw [copied_of_not_contains (hwf.filesz_le j' hj') hcovers'.1 hout] at hbyte
  exact ⟨m.nextFrame + j', _, Nat.le_add_right _ _, hbyte⟩

theorem exists_other_byte (b : UInt8) : ∃ b', b' ≠ b := by
  by_cases h : b = 0
  · exact ⟨1, by rw [h]; decide⟩
  · exact ⟨0, Ne.symm h⟩

/-- **The segments of an image arrive exactly when their frames hold them.** Whatever is in the
memory that the loader gets, the loop ends and every byte of every segment is mapped in the program,
with the bytes of the image where they belong, if and only if the pages of the file part of each
segment are in its frame and in none of a later segment, and all pages of a segment are in some
frame. -/
theorem segments_arrive_iff (hundo : Undoes unmap) (hwf : img.Wf) (hready : Ready img elf m) :
    (∀ fresh, ∃ m', elfLoadSegments unmap elf (m.withFresh fresh) = some m' ∧ img.Arrived m') ↔
      img.Fitting m.child := by
  have hphnum := phnum_lt img
  have hrun (fresh : ℕ → ℕ → UInt8) (hfits : ∀ j, 0 ≤ j → j < img.phnum → (img.phdr j).Fits) :
      elfLoadSegments unmap elf (m.withFresh fresh) =
        some (after img (m.withFresh fresh) img.phnum) :=
    loadSegments_after (hready.withFresh fresh) hundo hwf (Nat.zero_le _) (by omega) hfits
  constructor
  · intro harrive
    have hfits : ∀ j, 0 ≤ j → j < img.phnum → (img.phdr j).Fits := by
      obtain ⟨m', hm', -⟩ := harrive m.frames
      exact fits_of_loadSegments (hready.withFresh m.frames) hundo hwf hm'
    refine ⟨fun i hi k hk => ⟨Phdr.fits_iff.mp (hfits i (Nat.zero_le i) hi) k hk, ?_⟩, ?_⟩
    · intro j hij hj hcovers
      -- the byte would be one of a frame that the loader did not write
      obtain ⟨b, hb⟩ := exists_other_byte (img.byte ((img.phdr i).offset + k))
      obtain ⟨m', hm', harrived⟩ := harrive fun _ _ => b
      rw [hrun _ hfits] at hm'
      cases hm'
      have hcontains : (img.phdr i).Contains ((img.phdr i).vaddr + k) := by
        have := hwf.filesz_le i hi
        exact ⟨by omega, by omega⟩
      have hbyte := (harrived i hi).2 k hk
      obtain ⟨frame, off, hframe, hlater⟩ :=
        childByte_of_later (m := m.withFresh fun _ _ => b) hwf hi hj hij hcontains hcovers
      have hframe' : m.nextFrame ≤ frame := hframe
      rw [hlater, withFresh_frames hframe'] at hbyte
      exact hb (Option.some.inj hbyte)
    · intro i hi addr haddr
      obtain ⟨m', hm', harrived⟩ := harrive m.frames
      rw [hrun _ hfits] at hm'
      cases hm'
      have hmapped := (harrived i hi).1 addr haddr
      by_cases hcovers : ∃ j < img.phnum, (img.phdr j).Covers (addr / pageSize)
      · exact .inl hcovers
      · right
        rwa [child_after_of_not_covers hwf (Nat.le_refl _) fun j hj hc => hcovers ⟨j, hj, hc⟩]
          at hmapped
  · intro hfit fresh
    have hfits : ∀ j, 0 ≤ j → j < img.phnum → (img.phdr j).Fits := fun j _ hj =>
      Phdr.fits_iff.mpr fun k hk => (hfit.file j hj k hk).1
    refine ⟨_, hrun fresh hfits, fun i hi => ⟨fun addr haddr => ?_, fun k hk => ?_⟩⟩
    · by_cases hcovers : ∃ j < img.phnum, (img.phdr j).Covers (addr / pageSize)
      · obtain ⟨j, hj, hc⟩ := hcovers
        obtain ⟨j', -, hj', hc', hlast⟩ := exists_last_covers hj hc
        rw [child_after_of_covers hwf (Nat.le_refl _) hj' hc' hlast]
        rfl
      · rw [child_after_of_not_covers hwf (Nat.le_refl _) fun j hj hc => hcovers ⟨j, hj, hc⟩]
        exact (hfit.mem i hi addr haddr).resolve_left hcovers
    · obtain ⟨hcovers, hlast⟩ := hfit.file i hi k hk
      have hlt : (img.phdr i).vaddr + k < wordSize := by
        have h₁ := hwf.filesz_le i hi
        have h₂ := hwf.range_le i hi
        omega
      rw [childByte_after hwf hi hlt hcovers hlast, copied_file hk]

/-! ## A small image -/

/-- Unmap the frame that is mapped at an address. -/
def unmapFrame (sp : Space) (addr : ℕ) : Space :=
  match sp (addr / pageSize) with
  | none => sp
  | some (frame, _) => fun p => if (sp p).map Prod.fst = some frame then none else sp p

theorem undoes_unmapFrame : Undoes unmapFrame := by
  intro sp frame pages addr hpages hbase hfree hfresh
  have happly := addrspaceMap_apply sp frame hpages
  have hout {p : ℕ} (hp : ¬(addr / pageSize ≤ p ∧ p < addr / pageSize + pages)) :
      addrspaceMap sp frame pages addr p = sp p := (happly p).trans (if_neg hp)
  by_cases h0 : pages = 0
  · have hsp : addrspaceMap sp frame pages addr = sp := by
      funext p
      exact hout (by omega)
    rw [unmapFrame, hsp, hbase]
  · have hfirst : addrspaceMap sp frame pages addr (addr / pageSize) = some (frame, 0) := by
      rw [happly, if_pos ⟨Nat.le_refl _, by omega⟩, Nat.sub_self]
    rw [unmapFrame, hfirst]
    funext p
    show (if (addrspaceMap sp frame pages addr p).map Prod.fst = some frame then none else
      addrspaceMap sp frame pages addr p) = sp p
    by_cases hp : addr / pageSize ≤ p ∧ p < addr / pageSize + pages
    · have hnone := hfree (p - addr / pageSize) (by omega)
      rw [Nat.add_sub_cancel' hp.1] at hnone
      rw [(happly p).trans (if_pos hp), hnone, Option.map_some, if_pos rfl]
    · rw [hout hp, if_neg]
      intro heq
      obtain ⟨⟨frame', i⟩, hsome, rfl⟩ := Option.map_eq_some_iff.mp heq
      exact hfresh p i hsome

/-- An image with one segment, of four bytes in the file. -/
def smallImage (vaddr memsz : ℕ) : Image where
  byte := [(4, 28, 52), (2, 42, 32), (2, 44, 1), (4, 56, 84), (4, 60, vaddr), (4, 68, 4),
    (4, 72, memsz), (4, 84, 0x64636261)].foldr (fun (k, off, x) f => writeLE k f off x) fun _ => 0
  size := 88

/-- A loader with the image at an address, in frame 0. -/
def smallMachine (img : Image) : Machine where
  frames := fun _ => img.byte
  nextFrame := 1
  loader := fun p => if p = 256 then some (0, 0) else none
  child := fun _ => none

theorem smallMachine_used (img : Image) (p frame i : ℕ)
    (h : (smallMachine img).loader p = some (frame, i)) : frame < 1 := by
  simp only [smallMachine] at h
  split at h
  · cases h
    exact Nat.zero_lt_one
  · cases h

theorem smallImage_wf {vaddr memsz : ℕ} (hnum : (smallImage vaddr memsz).phnum = 1)
    (hoff : (smallImage vaddr memsz).phdrOffset 0 = 52)
    (hphdr : (smallImage vaddr memsz).phdr 0 = ⟨84, vaddr, 4, memsz⟩) (hmemsz : 4 ≤ memsz)
    (hrange : vaddr + memsz ≤ wordSize) : (smallImage vaddr memsz).Wf := by
  have hzero {i : ℕ} (hi : i < (smallImage vaddr memsz).phnum) : i = 0 := by omega
  refine ⟨(by decide : 52 ≤ 88), fun i hi => ?_, fun i hi => ?_, fun i hi => ?_, fun i hi => ?_,
    fun i hi j hj hij => by omega⟩
  · rw [hzero hi, hoff]
    exact (by decide : 52 + 32 ≤ 88)
  · rw [hzero hi, hphdr]
    exact hmemsz
  · rw [hzero hi, hphdr]
    exact (by decide : 84 + 4 ≤ 88)
  · rw [hzero hi, hphdr]
    exact hrange

/-- The small image is loaded when its segment is inside of a page. -/
theorem segments_arrive_iff_inside :
    (smallImage 0x1010 8).Fitting (smallMachine (smallImage 0x1010 8)).child ∧ ∀ fresh, ∃ m',
      elfLoadSegments unmapFrame 0x100000 ((smallMachine (smallImage 0x1010 8)).withFresh fresh) =
        some m' ∧ (smallImage 0x1010 8).Arrived m' := by
  have hnum : (smallImage 0x1010 8).phnum = 1 := by decide +kernel
  have hphdr : (smallImage 0x1010 8).phdr 0 = ⟨84, 0x1010, 4, 8⟩ := by decide +kernel
  have hwf := smallImage_wf hnum (by decide +kernel) hphdr (by decide) (by decide)
  have hready : Ready (smallImage 0x1010 8) 0x100000 (smallMachine (smallImage 0x1010 8)) :=
    { image_le := by decide
      image := by decide +kernel
      used := smallMachine_used _
      window_le := by decide +kernel
      window := by decide +kernel }
  have hcovers {addr : ℕ} (haddr : 0x1010 ≤ addr ∧ addr < 0x1018) :
      ((smallImage 0x1010 8).phdr 0).Covers (addr / pageSize) := by
    rw [hphdr]
    show 1 ≤ addr / 4096 ∧ addr / 4096 < 2
    omega
  have hfit : (smallImage 0x1010 8).Fitting (smallMachine (smallImage 0x1010 8)).child := by
    constructor
    · intro i hi k hk
      obtain rfl : i = 0 := by omega
      rw [hphdr] at hk
      have hk' : k < 4 := hk
      have haddr : 0x1010 ≤ ((smallImage 0x1010 8).phdr 0).vaddr + k ∧
          ((smallImage 0x1010 8).phdr 0).vaddr + k < 0x1018 := by
        rw [hphdr]
        show 0x1010 ≤ 0x1010 + k ∧ 0x1010 + k < 0x1018
        omega
      exact ⟨hcovers haddr, fun j hj hjn => by omega⟩
    · intro i hi addr haddr
      obtain rfl : i = 0 := by omega
      rw [hphdr] at haddr
      exact .inl ⟨0, by omega, hcovers haddr⟩
  exact ⟨hfit, (segments_arrive_iff undoes_unmapFrame hwf hready).mpr hfit⟩

/-- A segment of four bytes that goes over the end of a page is not loaded. -/
theorem segment_over_page_faults : ¬∀ (unmap : Space → ℕ → Space) (img : Image) (elf : ℕ)
    (m : Machine), Undoes unmap → img.Wf → Ready img elf m →
    ∃ m', elfLoadSegments unmap elf m = some m' ∧ img.Arrived m' := by
  intro h
  have hnum : (smallImage 0x1ffe 4).phnum = 1 := by decide +kernel
  have hwf : (smallImage 0x1ffe 4).Wf :=
    smallImage_wf hnum (by decide +kernel) (by decide +kernel) (by decide) (by decide)
  have hready : Ready (smallImage 0x1ffe 4) 0x100000 (smallMachine (smallImage 0x1ffe 4)) :=
    { image_le := by decide
      image := by decide +kernel
      used := smallMachine_used _
      window_le := by decide +kernel
      window := by decide +kernel }
  obtain ⟨m', hm', -⟩ := h unmapFrame _ _ _ undoes_unmapFrame hwf hready
  have hnone : (elfLoadSegments unmapFrame 0x100000
      (smallMachine (smallImage 0x1ffe 4))).isNone = true := by decide +kernel
  rw [hm'] at hnone
  cases hnone

end C4OS.Elf
