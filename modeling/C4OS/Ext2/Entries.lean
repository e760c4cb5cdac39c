import C4OS.Ext2.Answers
import Mathlib.Logic.Relation

/-!
# Chains of entries

The handlers that go over the entries of a directory follow their sizes from one to the next, so
that they come to an end just when there is a chain from the first entry to the end of the block
(`listLoop_of_chain`, `chain_of_listLoop`), or to an entry with the name that is looked for
(`findInBlock_iff`, `findInDir_iff`). An entry of size zero leads to itself, and no chain goes on
from there.
-/

namespace C4OS.Ext2

open Foundations Ringbuffer Relation

variable {sb : Superblock} {d d₁ d' : Device} {e : Inode} {name : List UInt8} {i j fuel : ℕ}
  {ring : C4Ringbuf} {r : Option Dirent}

/-! ## Looking for a name -/

section Find

theorem loadDirent_congr (h : d₁.buffer = d.buffer) (off : ℕ) :
    d₁.loadDirent off = d.loadDirent off := by
  simp only [Device.loadDirent, Device.load_congr h]

theorem nameMatches_congr (h : d₁.buffer = d.buffer) (off : ℕ) (name : List UInt8) :
    nameMatches d₁ off name = nameMatches d off name := by
  have hloop : ∀ off, matchLoop d₁ off name = matchLoop d off name := by
    induction name with
    | nil => exact fun off => rfl
    | cons c name ih =>
      intro off
      simp only [matchLoop, Device.load_congr h, ih]
  simp only [nameMatches, Device.load_congr h, hloop]

theorem findInBlock_congr (h : d₁.buffer = d.buffer) (name : List UInt8) (fuel i : ℕ) :
    findInBlock sb d₁ name fuel i = findInBlock sb d name fuel i := by
  induction fuel generalizing i with
  | zero => rfl
  | succ fuel ih =>
    simp only [findInBlock, loadDirent_congr h, nameMatches_congr h, Device.load_congr h, ih]

/-- From an entry with another name to the next one. -/
def FindNext (sb : Superblock) (d : Device) (name : List UInt8) (i j : ℕ) : Prop :=
  i < ext2BlockSize sb ∧ nameMatches d i name = some false ∧
    ∃ size, d.load 2 (i + 4) = some size ∧ j = i + size

/-- Where the search ends: at an entry with the name, or behind the block. -/
def FindStops (sb : Superblock) (d : Device) (name : List UInt8) (j : ℕ) : Option Dirent → Prop
  | some ent => j < ext2BlockSize sb ∧ nameMatches d j name = some true ∧
      d.loadDirent j = some ent
  | none => ext2BlockSize sb ≤ j

/-- The entries of the block in the page lead to an entry with the name, or to the end. -/
def InBlock (sb : Superblock) (d : Device) (name : List UInt8) (r : Option Dirent) : Prop :=
  ∃ j, ReflTransGen (FindNext sb d name) 0 j ∧ FindStops sb d name j r

theorem findInBlock_of_chain (hchain : ReflTransGen (FindNext sb d name) i j)
    (hstop : FindStops sb d name j r) (hfuel : ext2BlockSize sb < fuel + i) (hpos : 0 < fuel) :
    findInBlock sb d name fuel i = some r := by
  induction hchain using ReflTransGen.head_induction_on generalizing fuel with
  | refl =>
    obtain ⟨fuel, rfl⟩ := Nat.exists_eq_succ_of_ne_zero (Nat.ne_of_gt hpos)
    rw [findInBlock]
    cases r with
    | none => exact if_neg (Nat.not_lt_of_le hstop)
    | some ent =>
      obtain ⟨hlt, hname, hload⟩ := hstop
      rw [if_pos hlt]
      exact run_bind hname ((if_pos rfl).trans (run_bind hload rfl))
  | head hnext _ ih =>
    obtain ⟨hlt, hname, size, hload, rfl⟩ := hnext
    rcases Nat.eq_zero_or_pos size with rfl | hsize
    · exact ih hfuel hpos
    · obtain ⟨fuel, rfl⟩ := Nat.exists_eq_succ_of_ne_zero (Nat.ne_of_gt hpos)
      rw [findInBlock, if_pos hlt]
      refine run_bind hname ((if_neg (by decide)).trans (run_bind hload ?_))
      exact ih (by omega) (by omega)

theorem chain_of_findInBlock (hrun : findInBlock sb d name fuel i = some r) :
    ∃ j, ReflTransGen (FindNext sb d name) i j ∧ FindStops sb d name j r := by
  induction fuel generalizing i with
  | zero => cases hrun
  | succ fuel ih =>
    rw [findInBlock] at hrun
    split at hrun
    · next hlt =>
      obtain ⟨same, hname, hrun⟩ := Option.bind_eq_some_iff.1 hrun
      cases same with
      | true =>
        obtain ⟨ent, hload, hrun⟩ := Option.bind_eq_some_iff.1 hrun
        obtain rfl := Option.some.inj hrun
        exact ⟨i, .refl, hlt, hname, hload⟩
      | false =>
        obtain ⟨size, hload, hrun⟩ := Option.bind_eq_some_iff.1 hrun
        obtain ⟨j, hchain, hstop⟩ := ih hrun
        exact ⟨j, .head ⟨hlt, hname, size, hload, rfl⟩ hchain, hstop⟩
    · next hge =>
      obtain rfl := Option.some.inj hrun
      exact ⟨i, .refl, Nat.le_of_not_lt hge⟩

/-- **The search in a block.** -/
theorem findInBlock_iff :
    findInBlock sb d name (ext2BlockSize sb + 1) 0 = some r ↔ InBlock sb d name r := by
  constructor
  · exact chain_of_findInBlock
  · rintro ⟨j, hchain, hstop⟩
    exact findInBlock_of_chain hchain hstop (Nat.lt_succ_self _) (Nat.succ_pos _)

theorem mul_blockSize_lt (h : Geometry sb) (hj : j ≤ ext2PointersPerBlock sb + 12) :
    j * ext2BlockSize sb < wordSize := by
  have hj' : j ≤ ext2BlockSize sb / 4 + 12 := hj
  show _ < 2 ^ 32
  rcases ext2BlockSize_eq h.blockSize with hs | hs | hs <;> rw [hs] at hj' ⊢ <;> omega

/-- A block of a directory that is looked through, without success. -/
def Passed (sb : Superblock) (d : Device) (e : Inode) (name : List UInt8) (j : ℕ) : Prop :=
  j * ext2BlockSize sb < e.lowerSize ∧ Mapped sb d.disk e j ∧
    InBlock sb (filePage sb d e j) name none

/-- Where the search in a directory ends: behind it, or in a block with an entry. -/
def LookupStops (sb : Superblock) (d : Device) (e : Inode) (name : List UInt8) (j : ℕ) : Prop :=
  e.lowerSize ≤ j * ext2BlockSize sb ∨ j * ext2BlockSize sb < e.lowerSize ∧
    Mapped sb d.disk e j ∧ ∃ ent, InBlock sb (filePage sb d e j) name (some ent)

/-- The search in a directory ends. -/
def LookupEnds (sb : Superblock) (d : Device) (e : Inode) (name : List UInt8) : Prop :=
  ∃ j, (∀ k < j, Passed sb d e name k) ∧ LookupStops sb d e name j

/-- What the search has found when it ends at a block. -/
def LookupFound (sb : Superblock) (d : Device) (e : Inode) (name : List UInt8) (j : ℕ) :
    Option Dirent → Prop
  | none => e.lowerSize ≤ j * ext2BlockSize sb
  | some ent => j * ext2BlockSize sb < e.lowerSize ∧ Mapped sb d.disk e j ∧
      InBlock sb (filePage sb d e j) name (some ent)

/-- What the search in a directory finds. -/
def LookupFinds (sb : Superblock) (d : Device) (e : Inode) (name : List UInt8)
    (r : Option Dirent) : Prop :=
  ∃ j, (∀ k < j, Passed sb d e name k) ∧ LookupFound sb d e name j r

theorem lookupEnds_iff : LookupEnds sb d e name ↔ ∃ r, LookupFinds sb d e name r := by
  constructor
  · rintro ⟨j, hpassed, hend | ⟨hin, hm, ent, hent⟩⟩
    · exact ⟨none, j, hpassed, hend⟩
    · exact ⟨some ent, j, hpassed, hin, hm, hent⟩
  · rintro ⟨r, j, hpassed, hfound⟩
    cases r with
    | none => exact ⟨j, hpassed, .inl hfound⟩
    | some ent =>
      obtain ⟨hin, hm, hent⟩ := hfound
      exact ⟨j, hpassed, .inr ⟨hin, hm, ent, hent⟩⟩

/-- The block that the search reads. -/
theorem findInDir_read (h : Geometry sb) (hd : d.Working) (hr : d.Reads sb d₁)
    (hm : Mapped sb d.disk e j) :
    ∃ d₂, ext2InodeReadBlock sb d₁ e j = some (d₂, true) ∧ d.Reads sb d₂ ∧
      d₂.buffer = (filePage sb d e j).buffer := by
  rw [← hr.same.1] at hm
  obtain ⟨d₂, hrun, hr₂, hbuffer⟩ := ext2InodeReadBlock_mapped h (hr.working hd) hm
  refine ⟨d₂, hrun, ⟨hr.same.trans hr₂.same, fun c hc => ?_⟩, ?_⟩
  · rw [hr₂.rest c hc, hr.rest c hc]
  · rw [hbuffer, filePage, hr.fetch_buffer, hr.same.1]
    rfl

theorem findInDir_of_found (h : Geometry sb) (hd : d.Working)
    (hi : i ≤ ext2PointersPerBlock sb + 12) (hij : i ≤ j) (hfuel : j < fuel + i)
    (hpassed : ∀ k, i ≤ k → k < j → Passed sb d e name k) (hfound : LookupFound sb d e name j r)
    (hr : d.Reads sb d₁) :
    ∃ d', findInDir sb e name fuel d₁ i = some (d', r) := by
  induction fuel generalizing i d₁ with
  | zero => omega
  | succ fuel ih =>
    have hmod : i * ext2BlockSize sb % wordSize = i * ext2BlockSize sb :=
      Nat.mod_eq_of_lt (mul_blockSize_lt h hi)
    rw [findInDir, hmod]
    rcases Nat.eq_or_lt_of_le hij with rfl | hlt
    · cases r with
      | none => exact ⟨d₁, if_neg (Nat.not_lt_of_le hfound)⟩
      | some ent =>
        obtain ⟨hin, hm, hent⟩ := hfound
        obtain ⟨d₂, hread, -, hbuffer⟩ := findInDir_read h hd hr hm
        have hfind := (findInBlock_congr hbuffer _ _ _).trans (findInBlock_iff.2 hent)
        refine ⟨d₂, (if_pos hin).trans (run_bind hread ?_)⟩
        simp only [Bool.not_true, Bool.false_eq_true, if_false]
        exact run_bind hfind rfl
    · obtain ⟨hin, hm, hnone⟩ := hpassed i (Nat.le_refl i) hlt
      obtain ⟨d₂, hread, hr₂, hbuffer⟩ := findInDir_read h hd hr hm
      have hfind := (findInBlock_congr hbuffer _ _ _).trans (findInBlock_iff.2 hnone)
      obtain ⟨d', hrun⟩ := ih (i := i + 1) hm.lt (by omega) (by omega)
        (fun k hk => hpassed k (by omega)) hr₂
      refine ⟨d', (if_pos hin).trans (run_bind hread ?_)⟩
      simp only [Bool.not_true, Bool.false_eq_true, if_false]
      exact run_bind hfind hrun

theorem found_of_findInDir (h : Geometry sb) (hd : d.Working)
    (hi : i ≤ ext2PointersPerBlock sb + 12) (hr : d.Reads sb d₁)
    (hrun : findInDir sb e name fuel d₁ i = some (d', r)) :
    d.Reads sb d' ∧ ∃ j, i ≤ j ∧ (∀ k, i ≤ k → k < j → Passed sb d e name k) ∧
      LookupFound sb d e name j r := by
  induction fuel generalizing i d₁ with
  | zero => cases hrun
  | succ fuel ih =>
    have hmod : i * ext2BlockSize sb % wordSize = i * ext2BlockSize sb :=
      Nat.mod_eq_of_lt (mul_blockSize_lt h hi)
    rw [findInDir, hmod] at hrun
    split at hrun
    · next hin =>
      obtain ⟨⟨d₂, ok⟩, hread, hrun⟩ := Option.bind_eq_some_iff.1 hrun
      cases ok with
      | false => cases hrun
      | true =>
        have hm : Mapped sb d.disk e i := by
          by_contra hm
          rw [← hr.same.1] at hm
          exact ext2InodeReadBlock_not_mapped h (hr.working hd) hm hread
        obtain ⟨d₃, hread₃, hr₃, hbuffer⟩ := findInDir_read h hd hr hm
        cases hread.symm.trans hread₃
        obtain ⟨r', hfind, hrun⟩ := Option.bind_eq_some_iff.1 hrun
        have hin' := findInBlock_iff.1 ((findInBlock_congr hbuffer _ _ _).symm.trans hfind)
        cases r' with
        | some ent =>
          cases hrun
          refine ⟨hr₃, i, Nat.le_refl i, fun k hk hk' => ?_, hin, hm, hin'⟩
          omega
        | none =>
          obtain ⟨hr', j, hij, hpassed, hstop⟩ := ih hm.lt hr₃ hrun
          refine ⟨hr', j, by omega, fun k hk hk' => ?_, hstop⟩
          rcases Nat.eq_or_lt_of_le hk with rfl | hlt
          · exact ⟨hin, hm, hin'⟩
          · exact hpassed k hlt hk'
    · next hge =>
      cases hrun
      refine ⟨hr, i, Nat.le_refl i, fun k hk hk' => ?_, Nat.le_of_not_lt hge⟩
      omega

/-- **The search in a directory.** -/
theorem exists_findInDir_eq_iff (h : Geometry sb) (hd : d.Working) :
    (∃ d', findInDir sb e name (e.lowerSize / ext2BlockSize sb + 2) d 0 = some (d', r)) ↔
      LookupFinds sb d e name r := by
  constructor
  · rintro ⟨d', hrun⟩
    obtain ⟨-, j, -, hpassed, hfound⟩ := found_of_findInDir h hd (Nat.zero_le _) (.refl sb d) hrun
    exact ⟨j, fun k => hpassed k (Nat.zero_le k), hfound⟩
  · rintro ⟨j, hpassed, hfound⟩
    have hfuel : j < e.lowerSize / ext2BlockSize sb + 2 + 0 := by
      cases j with
      | zero => exact Nat.succ_pos _
      | succ j =>
        have hpos : 0 < ext2BlockSize sb := Nat.lt_of_lt_of_le (by decide) h.blockSize_le.1
        have hle : j ≤ e.lowerSize / ext2BlockSize sb :=
          (Nat.le_div_iff_mul_le hpos).2 (Nat.le_of_lt (hpassed j (Nat.lt_succ_self j)).1)
        omega
    exact findInDir_of_found h hd (Nat.zero_le _) (Nat.zero_le j) hfuel
      (fun k _ => hpassed k) hfound (.refl sb d)

/-- When the search in a directory ends. -/
theorem exists_findInDir_iff (h : Geometry sb) (hd : d.Working) :
    (∃ d' r, findInDir sb e name (e.lowerSize / ext2BlockSize sb + 2) d 0 = some (d', r)) ↔
      LookupEnds sb d e name := by
  rw [lookupEnds_iff, exists_comm]
  exact exists_congr fun r => exists_findInDir_eq_iff h hd

end Find

/-! ## Listing a block -/

section List

variable {n off sent : ℕ} {array : ℕ → UInt8} {ent : Dirent}

/-- A client or a handler that puts bytes into the ring. -/
theorem exists_write (hring : Wf n ring) (bytes : List UInt8) :
    ∃ ring' k, c4RingbufWrite ring bytes = some (ring', k) ∧ Wf n ring' := by
  obtain ⟨ring', hrun, hring', -⟩ := Holds.write_take ⟨hring, rfl⟩ bytes
  exact ⟨ring', _, hrun, hring'⟩

theorem wf_of_write {ring' : C4Ringbuf} {k : ℕ} {bytes : List UInt8} (hring : Wf n ring)
    (hrun : c4RingbufWrite ring bytes = some (ring', k)) : Wf n ring' := by
  obtain ⟨ring₁, k₁, hrun₁, hring₁⟩ := exists_write hring bytes
  cases hrun.symm.trans hrun₁
  exact hring₁

theorem wf_of_read {ring' : C4Ringbuf} {k : ℕ} {bytes : List UInt8} (hring : Wf n ring)
    (hrun : c4RingbufRead ring k = some (ring', bytes)) : Wf n ring' := by
  obtain ⟨ring₁, hrun₁, hring₁, -⟩ := Holds.read ⟨hring, rfl⟩ k
  cases hrun.symm.trans hrun₁
  exact hring₁.1

/-- The bytes of a name that are copied. -/
def copiedLength (ent : Dirent) : ℕ := min ent.nameLength (fsMaxNameLen - 1)

/-- An entry whose name is in the page is put into the ring or left out. -/
theorem exists_sendDirent (hring : Wf n ring) (hname : off + 8 + copiedLength ent ≤ pageSize)
    (array : ℕ → UInt8) :
    ∃ ring' array' fits, sendDirent d ring off ent array = some (ring', array', fits) ∧
      Wf n ring' := by
  have hload : d.loadBytes (off + 8) (copiedLength ent) = some
      ((List.range (copiedLength ent)).map fun i => d.buffer (off + 8 + i)) := if_pos hname
  have hcopy : ∃ array', copyName d off ent array = some array' := ⟨_, run_bind hload rfl⟩
  obtain ⟨array', hcopy⟩ := hcopy
  have hcan := hring.canWrite_eq fsDirentSize
  by_cases hfits : fsDirentSize < n - ring.used
  · obtain ⟨ring', k, hwrite, hring'⟩ := exists_write hring
      (fsDirentBytes array' ent.nameLength ent.inode (translateType ent.type).toNat)
    rw [decide_eq_true hfits] at hcan
    refine ⟨ring', array', true, run_bind hcopy (run_bind hcan ?_), hring'⟩
    exact (if_pos rfl).trans (run_bind hwrite rfl)
  · rw [decide_eq_false hfits] at hcan
    refine ⟨ring, array', false, run_bind hcopy (run_bind hcan ?_), hring⟩
    exact if_neg (by decide)

/-- The name of an entry that is copied is in the page. -/
theorem name_of_sendDirent {r : C4Ringbuf × (ℕ → UInt8) × Bool}
    (hrun : sendDirent d ring off ent array = some r) :
    off + 8 + copiedLength ent ≤ pageSize := by
  obtain ⟨array', hcopy, -⟩ := Option.bind_eq_some_iff.1 hrun
  obtain ⟨bytes, hload, -⟩ := Option.bind_eq_some_iff.1 hcopy
  by_contra hout
  cases hload.symm.trans (if_neg hout)

/-- From an entry with its name in the page to the next one. -/
def ListNext (sb : Superblock) (d : Device) (i j : ℕ) : Prop :=
  i < ext2BlockSize sb ∧ ∃ ent, d.loadDirent i = some ent ∧
    i + 8 + copiedLength ent ≤ pageSize ∧ j = i + ent.size

/-- The entries of the block in the page lead to its end. -/
def Listable (sb : Superblock) (d : Device) : Prop :=
  ∃ j, ReflTransGen (ListNext sb d) 0 j ∧ ext2BlockSize sb ≤ j

theorem listNext_congr (h : d₁.buffer = d.buffer) : ListNext sb d₁ = ListNext sb d := by
  funext i j
  rw [ListNext, ListNext, loadDirent_congr h]

theorem listable_congr (h : d₁.buffer = d.buffer) : Listable sb d₁ ↔ Listable sb d := by
  rw [Listable, Listable, listNext_congr h]

theorem listLoop_of_chain (hchain : ReflTransGen (ListNext sb d) i j)
    (hend : ext2BlockSize sb ≤ j) (hfuel : ext2BlockSize sb < fuel + i) (hpos : 0 < fuel)
    (hring : Wf n ring) (array : ℕ → UInt8) (sent : ℕ) :
    ∃ ring' sent', listLoop sb d fuel ring array i sent = some (ring', sent') ∧ Wf n ring' := by
  induction hchain using ReflTransGen.head_induction_on generalizing fuel ring array sent with
  | refl =>
    obtain ⟨fuel, rfl⟩ := Nat.exists_eq_succ_of_ne_zero (Nat.ne_of_gt hpos)
    exact ⟨ring, sent, if_neg (Nat.not_lt_of_le hend), hring⟩
  | @head i _ hnext _ ih =>
    obtain ⟨hlt, ent, hload, hname, rfl⟩ := hnext
    rcases Nat.eq_zero_or_pos ent.size with hzero | hsize
    · rw [hzero, Nat.add_zero] at ih
      exact ih hfuel hpos hring array sent
    · obtain ⟨fuel, rfl⟩ := Nat.exists_eq_succ_of_ne_zero (Nat.ne_of_gt hpos)
      obtain ⟨ring₁, array₁, fits, hsend, hring₁⟩ :=
        exists_sendDirent (d := d) hring hname array
      have hfuel' : ext2BlockSize sb < fuel + (i + ent.size) := by omega
      obtain ⟨ring', sent', hrun, hring'⟩ := ih hfuel' (by omega) hring₁ array₁
        (if fits then sent + 1 else sent)
      refine ⟨ring', sent', (if_pos hlt).trans (run_bind hload (run_bind hsend hrun)), hring'⟩

theorem chain_of_listLoop {r : C4Ringbuf × ℕ}
    (hrun : listLoop sb d fuel ring array i sent = some r) :
    ∃ j, ReflTransGen (ListNext sb d) i j ∧ ext2BlockSize sb ≤ j := by
  induction fuel generalizing ring array i sent with
  | zero => cases hrun
  | succ fuel ih =>
    rw [listLoop] at hrun
    split at hrun
    · next hlt =>
      obtain ⟨ent, hload, hrun⟩ := Option.bind_eq_some_iff.1 hrun
      obtain ⟨⟨ring₁, array₁, fits⟩, hsend, hrun⟩ := Option.bind_eq_some_iff.1 hrun
      obtain ⟨j, hchain, hend⟩ := ih hrun
      exact ⟨j, .head ⟨hlt, ent, hload, name_of_sendDirent hsend, rfl⟩ hchain, hend⟩
    · next hge => exact ⟨i, .refl, Nat.le_of_not_lt hge⟩

/-- **The entries of a block are sent** if and only if they lead to its end. -/
theorem exists_listLoop_iff (hring : Wf n ring) (array : ℕ → UInt8) :
    (∃ r, listLoop sb d (ext2BlockSize sb + 1) ring array 0 0 = some r) ↔ Listable sb d := by
  constructor
  · rintro ⟨r, hrun⟩
    exact chain_of_listLoop hrun
  · rintro ⟨j, hchain, hend⟩
    obtain ⟨ring', sent', hrun, -⟩ := listLoop_of_chain hchain hend (Nat.lt_succ_self _)
      (Nat.succ_pos _) hring array 0
    exact ⟨_, hrun⟩

/-- A listing leaves the ring as it should be. -/
theorem wf_of_listLoop {r : C4Ringbuf × ℕ} (hring : Wf n ring)
    (hrun : listLoop sb d fuel ring array i sent = some r) : Wf n r.1 := by
  induction fuel generalizing ring array i sent with
  | zero => cases hrun
  | succ fuel ih =>
    rw [listLoop] at hrun
    split at hrun
    · obtain ⟨ent, -, hrun⟩ := Option.bind_eq_some_iff.1 hrun
      obtain ⟨⟨ring₁, array₁, fits⟩, hsend, hrun⟩ := Option.bind_eq_some_iff.1 hrun
      obtain ⟨ring₂, array₂, fits₂, hsend₂, hring₂⟩ :=
        exists_sendDirent hring (name_of_sendDirent hsend) array
      cases hsend.symm.trans hsend₂
      exact ih hring₂ hrun
    · cases hrun
      exact hring

end List

end C4OS.Ext2
