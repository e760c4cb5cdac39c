import C4OS.Ext2.Entries
import C4OS.Ext2.Listing
import C4OS.Foundations.Offsets

/-!
# Walks over the entries of a block

The loops of `handle_find_name` and `handle_list_dir` over the entries of a block go on by the sizes
that they find in it. Here they are given a limit below which they may read (`findBelow`,
`listBelow`); with the end of the page as the limit they are the loops of the server
(`findBelow_page`, `listBelow_page`). `entry_walks_iff` says for any bytes in the page when they
return with the end of the block as the limit: each entry that they come to has to lie in the block
as far as they look at it, and to lead on. So it is with the blocks of a directory
(`listingSound_of_blockEntries`), but an entry of size zero leads to itself.
-/

namespace C4OS.Ext2

open Foundations Ringbuffer Relation

variable {sb : Superblock} {d : Device} {name : List UInt8} {limit fuel i j n : ℕ}
  {ring : C4Ringbuf} {array : ℕ → UInt8}

/-! ## The loops with a limit -/

/-- A number in the page whose bytes are below a limit. -/
def Device.loadBelow (d : Device) (limit k off : ℕ) : Option ℕ :=
  if off + k ≤ limit then d.load k off else none

/-- The fields of the entry at an offset, below a limit. -/
def Device.loadDirentBelow (d : Device) (limit off : ℕ) : Option Dirent :=
  if off + 8 ≤ limit then d.loadDirent off else none

/-- The loop of `name_matches`. -/
def matchBelow (d : Device) (limit : ℕ) : ℕ → List UInt8 → Option Bool
  | _, [] => some true
  | off, c :: name => do
    let b ← d.loadBelow limit 1 off
    if b = c.toNat then matchBelow d limit (off + 1) name else return false

/-- `name_matches`, for the entry at an offset. -/
def nameMatchesBelow (d : Device) (limit off : ℕ) (name : List UInt8) : Option Bool := do
  let nameLength ← d.loadBelow limit 1 (off + 6)
  if nameLength ≠ name.length then return false else matchBelow d limit (off + 8) name

/-- The loop of `handle_find_name` over the entries of a block. -/
def findBelow (sb : Superblock) (d : Device) (limit : ℕ) (name : List UInt8) :
    ℕ → ℕ → Option (Option Dirent)
  | 0, _ => none
  | fuel + 1, i =>
    if i < ext2BlockSize sb then do
      if ← nameMatchesBelow d limit i name then
        let ent ← d.loadDirentBelow limit i
        return some ent
      else
        let size ← d.loadBelow limit 2 (i + 4)
        findBelow sb d limit name fuel (i + size)
    else
      return none

/-- One turn of the loop of `handle_list_dir`, which copies a name that ends below the limit. -/
def sendBelow (d : Device) (limit : ℕ) (ring : C4Ringbuf) (off : ℕ) (ent : Dirent)
    (name : ℕ → UInt8) : Option (C4Ringbuf × (ℕ → UInt8) × Bool) :=
  if off + 8 + copiedLength ent ≤ limit then sendDirent d ring off ent name else none

/-- The loop of `handle_list_dir`. -/
def listBelow (sb : Superblock) (d : Device) (limit : ℕ) :
    ℕ → C4Ringbuf → (ℕ → UInt8) → ℕ → ℕ → Option (C4Ringbuf × ℕ)
  | 0, _, _, _, _ => none
  | fuel + 1, ring, name, i, sent =>
    if i < ext2BlockSize sb then do
      let ent ← d.loadDirentBelow limit i
      let (ring, name, fits) ← sendBelow d limit ring i ent name
      listBelow sb d limit fuel ring name (i + ent.size) (if fits then sent + 1 else sent)
    else
      return (ring, sent)

theorem loadBelow_page (d : Device) (k off : ℕ) : d.loadBelow pageSize k off = d.load k off := by
  rw [Device.loadBelow, Device.load]
  split <;> rfl

/-- The fields of the entry at an offset of the page. -/
def pageDirent (d : Device) (i : ℕ) : Dirent :=
  ⟨readLE 4 d.buffer i, readLE 2 d.buffer (i + 4), readLE 1 d.buffer (i + 6),
    readLE 1 d.buffer (i + 7)⟩

theorem loadDirent_eq (h : i + 8 ≤ pageSize) : d.loadDirent i = some (pageDirent d i) := by
  have hload : ∀ {k off : ℕ}, off + k ≤ i + 8 → d.load k off = some (readLE k d.buffer off) :=
    fun hoff => if_pos (Nat.le_trans hoff h)
  exact run_bind (hload (by omega)) (run_bind (hload (by omega)) (run_bind (hload (by omega))
    (run_bind (hload (by omega)) rfl)))

theorem loadDirent_none (h : ¬ i + 8 ≤ pageSize) : d.loadDirent i = none := by
  have hload : d.load 1 (i + 7) = none := if_neg (by omega)
  rw [Device.loadDirent, hload]
  cases d.load 4 i with
  | none => rfl
  | some inode =>
    cases d.load 2 (i + 4) with
    | none => rfl
    | some size => cases d.load 1 (i + 6) <;> rfl

theorem loadDirentBelow_eq (hlimit : limit ≤ pageSize) (h : i + 8 ≤ limit) :
    d.loadDirentBelow limit i = some (pageDirent d i) := by
  rw [Device.loadDirentBelow, if_pos h, loadDirent_eq (Nat.le_trans h hlimit)]

theorem loadDirentBelow_page (d : Device) (off : ℕ) :
    d.loadDirentBelow pageSize off = d.loadDirent off := by
  rw [Device.loadDirentBelow]
  split
  · rfl
  · next h => exact (loadDirent_none h).symm

theorem nameMatchesBelow_page (d : Device) (off : ℕ) (name : List UInt8) :
    nameMatchesBelow d pageSize off name = nameMatches d off name := by
  have hloop : ∀ off, matchBelow d pageSize off name = matchLoop d off name := by
    induction name with
    | nil => exact fun off => rfl
    | cons c name ih =>
      intro off
      simp only [matchBelow, matchLoop, loadBelow_page, ih]
  simp only [nameMatchesBelow, nameMatches, loadBelow_page, hloop]

/-- **The loop of `handle_find_name`** is the one that may read up to the end of the page. -/
theorem findBelow_page (sb : Superblock) (d : Device) (name : List UInt8) (fuel i : ℕ) :
    findBelow sb d pageSize name fuel i = findInBlock sb d name fuel i := by
  induction fuel generalizing i with
  | zero => rfl
  | succ fuel ih =>
    simp only [findBelow, findInBlock, nameMatchesBelow_page, loadDirentBelow_page, loadBelow_page,
      ih]

theorem sendBelow_page (d : Device) (ring : C4Ringbuf) (off : ℕ) (ent : Dirent)
    (name : ℕ → UInt8) :
    sendBelow d pageSize ring off ent name = sendDirent d ring off ent name := by
  rw [sendBelow]
  split
  · rfl
  · next h =>
    rw [eq_comm, ← Option.not_isSome_iff_eq_none, Option.isSome_iff_exists]
    rintro ⟨r, hrun⟩
    exact h (name_of_sendDirent hrun)

/-- **The loop of `handle_list_dir`** is the one that may read up to the end of the page. -/
theorem listBelow_page (sb : Superblock) (d : Device) (fuel : ℕ) (ring : C4Ringbuf)
    (name : ℕ → UInt8) (i sent : ℕ) :
    listBelow sb d pageSize fuel ring name i sent = listLoop sb d fuel ring name i sent := by
  induction fuel generalizing ring name i sent with
  | zero => rfl
  | succ fuel ih => simp only [listBelow, listLoop, loadDirentBelow_page, sendBelow_page, ih]

/-! ## Names -/

/-- The bytes that are compared until two names differ. -/
theorem forall_take_cons {x c : UInt8} {xs : List UInt8} {off : ℕ} :
    (∀ k < (c :: name).length, (x :: xs).take k = (c :: name).take k → off + k < limit) ↔
      off < limit ∧ (x = c → ∀ k < name.length, xs.take k = name.take k → off + 1 + k < limit) := by
  constructor
  · intro h
    refine ⟨h 0 (Nat.succ_pos _) rfl, fun hx k hk heq => ?_⟩
    have hstep := h (k + 1) (Nat.succ_lt_succ hk)
    rw [List.take_succ_cons, List.take_succ_cons, hx, heq] at hstep
    have := hstep rfl
    omega
  · rintro ⟨h₀, h⟩ k hk heq
    cases k with
    | zero => exact h₀
    | succ k =>
      rw [List.take_succ_cons, List.take_succ_cons, List.cons.injEq] at heq
      have := h heq.1 k (Nat.lt_of_succ_lt_succ hk) heq.2
      omega

/-- The comparison with a name reads byte by byte until it finds a difference. -/
theorem matchBelow_iff (hlimit : limit ≤ pageSize) {off : ℕ} {same : Bool} :
    matchBelow d limit off name = some same ↔
      (∀ k < name.length, ((List.range name.length).map fun t => d.buffer (off + t)).take k =
        name.take k → off + k < limit) ∧
      (same = true ↔ (List.range name.length).map (fun t => d.buffer (off + t)) = name) := by
  induction name generalizing off with
  | nil => cases same <;> simp [matchBelow]
  | cons c name ih =>
    have hrange : (List.range (c :: name).length).map (fun t => d.buffer (off + t)) =
        d.buffer off :: (List.range name.length).map fun t => d.buffer (off + 1 + t) := by
      rw [List.length_cons, List.range_succ_eq_map, List.map_cons, List.map_map]
      congr 1
      exact List.map_congr_left fun t _ => congrArg d.buffer (by show off + (t + 1) = _; omega)
    rw [hrange, forall_take_cons, matchBelow, Device.loadBelow]
    by_cases hlt : off < limit
    · have hload : d.load 1 off = some (d.buffer off).toNat := by
        rw [Device.load, if_pos (by omega)]
        simp [readLE]
      rw [if_pos (Nat.succ_le_of_lt hlt), hload]
      simp only [Option.bind_eq_bind, Option.bind_some, UInt8.toNat_inj, List.cons.injEq]
      by_cases hbyte : d.buffer off = c
      · simp [hbyte, ih, hlt]
      · cases same <;> simp [hbyte, hlt]
    · rw [if_neg (by omega)]
      simp [hlt]

/-- The comparison with the name of an entry. -/
theorem nameMatchesBelow_iff (hlimit : limit ≤ pageSize) {same : Bool} :
    nameMatchesBelow d limit i name = some same ↔
      (i + 7 ≤ limit ∧ ((entryAt d.buffer i).name.length = name.length → ∀ k < name.length,
        (entryAt d.buffer i).name.take k = name.take k → i + 8 + k < limit)) ∧
      (same = true ↔ (entryAt d.buffer i).name = name) := by
  have hlen : (entryAt d.buffer i).name.length = readLE 1 d.buffer (i + 6) := by simp [entryAt]
  rw [nameMatchesBelow, Device.loadBelow]
  by_cases hlt : i + 7 ≤ limit
  · have hload : d.load 1 (i + 6) = some (readLE 1 d.buffer (i + 6)) :=
      if_pos (Nat.le_trans hlt hlimit)
    rw [if_pos (by omega), hload, hlen]
    simp only [Option.bind_eq_bind, Option.bind_some]
    by_cases hname : readLE 1 d.buffer (i + 6) = name.length
    · have hentry : (entryAt d.buffer i).name =
          (List.range name.length).map fun t => d.buffer (i + 8 + t) := by
        rw [entryAt, hname]
      rw [if_neg (not_not.2 hname), matchBelow_iff hlimit, hentry]
      simp [hlt, hname]
    · have hne : (entryAt d.buffer i).name ≠ name := fun heq => hname (hlen ▸ congrArg _ heq)
      rw [if_pos hname]
      cases same <;> simp [hlt, hname, hne]
  · rw [if_neg (by omega)]
    simp [hlt]

/-! ## Where the loops come to -/

/-- The offset behind an entry. -/
def nextOffset (d : Device) (i : ℕ) : ℕ := i + readLE 2 d.buffer (i + 4)

/-- The entry at an offset has the name. -/
def HasName (d : Device) (name : List UInt8) (i : ℕ) : Prop := (entryAt d.buffer i).name = name

/-- What a search looks at of an entry is in the block: the length of the name and the size, the
bytes of the name up to the first that differs, and the rest of the header when the name is that. -/
structure FindSound (sb : Superblock) (d : Device) (name : List UInt8) (i : ℕ) : Prop where
  header : i + 7 ≤ ext2BlockSize sb
  compared : (entryAt d.buffer i).name.length = name.length → ∀ k < name.length,
    (entryAt d.buffer i).name.take k = name.take k → i + 8 + k < ext2BlockSize sb
  found : HasName d name i → i + 8 ≤ ext2BlockSize sb

/-- What a listing looks at of an entry is in the block: the header, and the bytes of the name that
are copied. -/
def ListSound (sb : Superblock) (d : Device) (i : ℕ) : Prop :=
  i + 8 + min (readLE 1 d.buffer (i + 6)) (fsMaxNameLen - 1) ≤ ext2BlockSize sb

/-- The entries that a search comes to are in the block, and lead on. -/
def SearchSound (sb : Superblock) (d : Device) (name : List UInt8) : Prop :=
  ∀ i < ext2BlockSize sb,
    ReflTransGen (Turn (ext2BlockSize sb) (HasName d name) (nextOffset d)) 0 i →
    LeadsOn (HasName d name) (FindSound sb d name) (nextOffset d) i

/-- The entries that a listing comes to are in the block, and lead on. -/
def ListingSound (sb : Superblock) (d : Device) : Prop :=
  ∀ i < ext2BlockSize sb,
    ReflTransGen (Turn (ext2BlockSize sb) (fun _ => False) (nextOffset d)) 0 i →
    LeadsOn (fun _ => False) (ListSound sb d) (nextOffset d) i

/-- A turn of the search in a block. -/
theorem exists_findBelow_succ (h : sb.blockSize ≤ 2) (hlt : i < ext2BlockSize sb) :
    (∃ r, findBelow sb d (ext2BlockSize sb) name (fuel + 1) i = some r) ↔
      FindSound sb d name i ∧ (¬ HasName d name i →
        ∃ r, findBelow sb d (ext2BlockSize sb) name fuel (nextOffset d i) = some r) := by
  have hpage := ext2BlockSize_le h
  rw [findBelow, if_pos hlt]
  constructor
  · rintro ⟨r, hrun⟩
    obtain ⟨same, hname, hrun⟩ := Option.bind_eq_some_iff.1 hrun
    obtain ⟨⟨hheader, hcompared⟩, hsame⟩ := (nameMatchesBelow_iff hpage).1 hname
    cases same with
    | true =>
      obtain ⟨ent, hload, -⟩ := Option.bind_eq_some_iff.1 hrun
      refine ⟨⟨hheader, hcompared, fun _ => ?_⟩, fun hnot => absurd (hsame.1 rfl) hnot⟩
      by_contra hout
      cases hload.symm.trans (if_neg hout)
    | false =>
      have hnot : ¬ HasName d name i := fun heq => Bool.false_ne_true (hsame.2 heq)
      obtain ⟨size, hload, hrun⟩ := Option.bind_eq_some_iff.1 hrun
      have hsize : d.loadBelow (ext2BlockSize sb) 2 (i + 4) =
          some (readLE 2 d.buffer (i + 4)) := (if_pos (by omega)).trans (if_pos (by omega))
      obtain rfl := Option.some.inj (hload.symm.trans hsize)
      exact ⟨⟨hheader, hcompared, fun heq => absurd heq hnot⟩, fun _ => ⟨r, hrun⟩⟩
  · rintro ⟨⟨hheader, hcompared, hfound⟩, hnext⟩
    by_cases hname : HasName d name i
    · have hmatch := (nameMatchesBelow_iff hpage).2
        ⟨⟨hheader, hcompared⟩, iff_of_true (rfl : true = true) hname⟩
      have hload := loadDirentBelow_eq (d := d) hpage (hfound hname)
      exact ⟨_, run_bind hmatch ((if_pos rfl).trans (run_bind hload rfl))⟩
    · obtain ⟨r, hrun⟩ := hnext hname
      have hmatch := (nameMatchesBelow_iff hpage).2
        ⟨⟨hheader, hcompared⟩, iff_of_false Bool.false_ne_true hname⟩
      have hsize : d.loadBelow (ext2BlockSize sb) 2 (i + 4) =
          some (readLE 2 d.buffer (i + 4)) := (if_pos (by omega)).trans (if_pos (by omega))
      exact ⟨r, run_bind hmatch ((if_neg Bool.false_ne_true).trans (run_bind hsize hrun))⟩

/-- A turn of a listing that goes on. -/
theorem exists_listBelow_succ (h : sb.blockSize ≤ 2) (hlt : i < ext2BlockSize sb)
    (hsound : ListSound sb d i) (hnext : ∀ ring array sent, Wf n ring →
      ∃ r, listBelow sb d (ext2BlockSize sb) fuel ring array (nextOffset d i) sent = some r)
    (hring : Wf n ring) (array : ℕ → UInt8) (sent : ℕ) :
    ∃ r, listBelow sb d (ext2BlockSize sb) (fuel + 1) ring array i sent = some r := by
  have hpage := ext2BlockSize_le h
  have hle : i + 8 + min (readLE 1 d.buffer (i + 6)) (fsMaxNameLen - 1) ≤ ext2BlockSize sb := hsound
  have hload : d.loadDirentBelow (ext2BlockSize sb) i = some (pageDirent d i) :=
    loadDirentBelow_eq hpage (by omega)
  have hname : i + 8 + copiedLength (pageDirent d i) ≤ pageSize := Nat.le_trans hsound hpage
  obtain ⟨ring₁, array₁, fits, hsend, hring₁⟩ := exists_sendDirent (d := d) hring hname array
  obtain ⟨r, hrun⟩ := hnext ring₁ array₁ (if fits then sent + 1 else sent) hring₁
  exact ⟨r, (if_pos hlt).trans (run_bind hload (run_bind ((if_pos hsound).trans hsend) hrun))⟩

/-- What a turn of a listing that returned has looked at. -/
theorem sound_of_listBelow {sent : ℕ} {r : C4Ringbuf × ℕ} (h : sb.blockSize ≤ 2)
    (hlt : i < ext2BlockSize sb) (hring : Wf n ring)
    (hrun : listBelow sb d (ext2BlockSize sb) (fuel + 1) ring array i sent = some r) :
    ListSound sb d i ∧ ∃ ring' array' sent', Wf n ring' ∧
      listBelow sb d (ext2BlockSize sb) fuel ring' array' (nextOffset d i) sent' = some r := by
  have hpage := ext2BlockSize_le h
  rw [listBelow, if_pos hlt] at hrun
  obtain ⟨ent, hload, hrun⟩ := Option.bind_eq_some_iff.1 hrun
  obtain ⟨⟨ring₁, array₁, fits⟩, hsend, hrun⟩ := Option.bind_eq_some_iff.1 hrun
  by_cases hheader : i + 8 ≤ ext2BlockSize sb
  · rw [loadDirentBelow_eq hpage hheader] at hload
    obtain rfl := Option.some.inj hload
    rw [sendBelow] at hsend
    split at hsend
    · next hname =>
      obtain ⟨ring₂, array₂, fits₂, hsend₂, hring₂⟩ :=
        exists_sendDirent hring (Nat.le_trans hname hpage) array
      cases hsend.symm.trans hsend₂
      exact ⟨hname, ring₁, array₁, _, hring₂, hrun⟩
    · cases hsend
  · cases hload.symm.trans (if_neg hheader)

/-! ## Legal blocks -/

/-- The entries of a block that is as the format wants it are in the block and lead on. -/
theorem listingSound_of_blockEntries {es : List DirEntry}
    (hes : blockEntries (ext2BlockSize sb) d.buffer fuel 0 = some es) : ListingSound sb d := by
  intro i hi hreach
  have hrest : ∃ fuel es, blockEntries (ext2BlockSize sb) d.buffer fuel i = some es := by
    clear hi
    induction hreach with
    | refl => exact ⟨fuel, es, hes⟩
    | tail _ hstep ih =>
      obtain ⟨fuel, es, hes⟩ := ih
      obtain ⟨hlt, -, rfl⟩ := hstep
      cases fuel with
      | zero => cases hes
      | succ fuel =>
        rcases blockEntries_cons hes with ⟨rfl, -⟩ | ⟨-, -, -, rest, hrest, -⟩
        · exact absurd hlt (Nat.lt_irrefl _)
        · exact ⟨fuel, rest, hrest⟩
  obtain ⟨fuel, es, hes⟩ := hrest
  cases fuel with
  | zero => cases hes
  | succ fuel =>
    rcases blockEntries_cons hes with ⟨rfl, -⟩ | ⟨-, hname, hle, -⟩
    · exact absurd hi (Nat.lt_irrefl _)
    · refine ⟨?_, fun _ => ?_⟩
      · have hmin := Nat.min_le_left (readLE 1 d.buffer (i + 6)) (fsMaxNameLen - 1)
        show i + 8 + min _ _ ≤ _
        omega
      · show i < i + _
        omega

/-- A block that can be listed can be searched for any name. -/
theorem ListingSound.search (hl : ListingSound sb d) (name : List UInt8) :
    SearchSound sb d name := by
  intro i hi hreach
  have hturn : Turn (ext2BlockSize sb) (HasName d name) (nextOffset d) ≤
      Turn (ext2BlockSize sb) (fun _ => False) (nextOffset d) :=
    fun _ _ hstep => ⟨hstep.1, not_false, hstep.2.2⟩
  have hall := ReflTransGen.mono hturn _ _ hreach
  obtain ⟨hsound, hnext⟩ := hl i hi hall
  have hlen : (entryAt d.buffer i).name.length = readLE 1 d.buffer (i + 6) := by simp [entryAt]
  have hbyte : readLE 1 d.buffer (i + 6) < 256 := readLE_lt 1 _ _
  have hle : i + 8 + readLE 1 d.buffer (i + 6) ≤ ext2BlockSize sb := by
    have hmin : min (readLE 1 d.buffer (i + 6)) (fsMaxNameLen - 1) = readLE 1 d.buffer (i + 6) :=
      Nat.min_eq_left (by show _ ≤ 255; omega)
    rwa [ListSound, hmin] at hsound
  refine ⟨⟨by omega, fun heq k hk _ => ?_, fun _ => by omega⟩, fun _ => hnext not_false⟩
  rw [← heq, hlen] at hk
  omega

/-! ## The result -/

/-- The search in a block whose entries are sound returns. -/
theorem SearchSound.returns (hs : SearchSound sb d name) (h : sb.blockSize ≤ 2) :
    ∃ fuel r, findBelow sb d (ext2BlockSize sb) name fuel 0 = some r := by
  refine ⟨ext2BlockSize sb + 1, returns_of_sound (R := fun fuel i =>
    ∃ r, findBelow sb d (ext2BlockSize sb) name fuel i = some r) ?_ ?_ hs
    (Nat.lt_succ_self _) (Nat.succ_pos _)⟩
  · exact fun fuel i hge => ⟨none, if_neg (Nat.not_lt_of_le hge)⟩
  · exact fun fuel i hlt hi hnext => (exists_findBelow_succ h hlt).2 ⟨hi, hnext⟩

theorem searchSound_of_returns {r : Option Dirent} (h : sb.blockSize ≤ 2)
    (hrun : findBelow sb d (ext2BlockSize sb) name fuel 0 = some r) : SearchSound sb d name := by
  intro i hi hreach
  refine sound_of_returns (R := fun fuel i =>
    ∃ r, findBelow sb d (ext2BlockSize sb) name fuel i = some r)
    (fun i => Nat.le_add_right _ _) ?_ ?_ hreach ⟨r, hrun⟩ hi
  · rintro i ⟨r, hrun⟩
    cases hrun
  · exact fun fuel i hlt => (exists_findBelow_succ h hlt).1

/-- The listing of a block whose entries are sound returns. -/
theorem ListingSound.returns (hl : ListingSound sb d) (h : sb.blockSize ≤ 2) (hring : Wf n ring)
    (array : ℕ → UInt8) :
    ∃ fuel r, listBelow sb d (ext2BlockSize sb) fuel ring array 0 0 = some r := by
  refine ⟨ext2BlockSize sb + 1, returns_of_sound (R := fun fuel i => ∀ ring array sent,
    Wf n ring → ∃ r, listBelow sb d (ext2BlockSize sb) fuel ring array i sent = some r) ?_ ?_ hl
    (Nat.lt_succ_self _) (Nat.succ_pos _) ring array 0 hring⟩
  · exact fun fuel i hge ring array sent _ => ⟨(ring, sent), if_neg (Nat.not_lt_of_le hge)⟩
  · exact fun fuel i hlt hi hnext ring array sent hring =>
      exists_listBelow_succ h hlt hi (hnext not_false) hring array sent

theorem listingSound_of_returns {r : C4Ringbuf × ℕ} (h : sb.blockSize ≤ 2) (hring : Wf n ring)
    (hrun : listBelow sb d (ext2BlockSize sb) fuel ring array 0 0 = some r) :
    ListingSound sb d := by
  intro i hi hreach
  refine sound_of_returns (R := fun fuel i => ∃ ring array sent, Wf n ring ∧
    listBelow sb d (ext2BlockSize sb) fuel ring array i sent = some r)
    (fun i => Nat.le_add_right _ _) ?_ ?_ hreach ⟨ring, array, 0, hring, hrun⟩ hi
  · rintro i ⟨ring, array, sent, -, hrun⟩
    cases hrun
  · rintro fuel i hlt ⟨ring, array, sent, hring, hrun⟩
    obtain ⟨hi, hnext⟩ := sound_of_listBelow h hlt hring hrun
    exact ⟨hi, fun _ => hnext⟩

/-- **When the entry loops terminate and read inside of the block.** For any bytes in the page, for
every name and for any state of the ring. -/
theorem entry_walks_iff (h : sb.blockSize ≤ 2) (d : Device) (name : List UInt8)
    (hring : Wf n ring) (array : ℕ → UInt8) :
    ((∃ fuel r, findBelow sb d (ext2BlockSize sb) name fuel 0 = some r) ↔
        SearchSound sb d name) ∧
      ((∃ fuel r, listBelow sb d (ext2BlockSize sb) fuel ring array 0 0 = some r) ↔
        ListingSound sb d) := by
  refine ⟨⟨?_, fun hs => hs.returns h⟩, ⟨?_, fun hl => hl.returns h hring array⟩⟩
  · rintro ⟨fuel, r, hrun⟩
    exact searchSound_of_returns h hrun
  · rintro ⟨fuel, r, hrun⟩
    exact listingSound_of_returns h hring hrun

/-- The block of the directory of `dirDisk` with two entries is searched and listed. -/
theorem entry_walks_iff_two :
    (∃ fuel r, findBelow smallSuperblock ((System.connect dirDisk).dev.fetch smallSuperblock 6)
      (ext2BlockSize smallSuperblock) [0x2e, 0x2e] fuel 0 = some r) ∧
    ∃ fuel r, listBelow smallSuperblock ((System.connect dirDisk).dev.fetch smallSuperblock 6)
      (ext2BlockSize smallSuperblock) fuel (System.connect dirDisk).conn.ring (fun _ => 0) 0 0 =
        some r := by
  have hes : blockEntries (ext2BlockSize smallSuperblock)
      ((System.connect dirDisk).dev.fetch smallSuperblock 6).buffer 1025 0 =
        some [⟨1, [0x2e], 2⟩, ⟨1, [0x2e, 0x2e], 2⟩] := by
    decide +kernel
  have hl := listingSound_of_blockEntries hes
  have hblock : smallSuperblock.blockSize ≤ 2 := by decide
  obtain ⟨hfind, hlist⟩ := entry_walks_iff hblock
    ((System.connect dirDisk).dev.fetch smallSuperblock 6) [0x2e, 0x2e]
    (System.connect_holds dirDisk).1 fun _ => 0
  exact ⟨hfind.2 (hl.search _), hlist.2 hl⟩

/-- An entry of size zero leads to itself. -/
theorem entry_walks_zero : ¬ ∀ (sb : Superblock) (d : Device) (name : List UInt8) (ring : C4Ringbuf)
    (array : ℕ → UInt8), sb.blockSize ≤ 2 → Wf ringSize ring →
    (∃ fuel r, findBelow sb d (ext2BlockSize sb) name fuel 0 = some r) ∧
      ∃ fuel r, listBelow sb d (ext2BlockSize sb) fuel ring array 0 0 = some r := by
  intro hall
  have hring := (System.connect_holds fun _ => 0).1
  have hbs : 0 < ext2BlockSize smallSuperblock := by decide
  have hblock : smallSuperblock.blockSize ≤ 2 := by decide
  obtain ⟨-, fuel, r, hrun⟩ := hall smallSuperblock (System.connect fun _ => 0).dev [0x61] _
    (fun _ => 0) hblock hring
  have hsound := listingSound_of_returns hblock hring hrun
  exact absurd ((hsound 0 hbs .refl).2 not_false) (by decide)

end C4OS.Ext2
