import C4OS.C4alloc.Runs

/-!
# Sizes of allocations

`c4a_alloc` adds the size of a node to the size of the request, and `calloc` multiplies the number
of members with their size, both in words of 32 bits. A request whose sum wraps around gets a block
that is too small, where a request that large has to be refused (`c4aAlloc_of_wraps`). The same
happens to a product that wraps around to a small number.

`alloc_sizes_iff` says for which sizes the functions do what they are for, in every heap that
requests without such a sum lead to.
-/

namespace C4OS.C4alloc

open Foundations Relation

/-! ## The functions of `stdlib.c` and `string.c` -/

/-- Assign a byte. -/
def Mem.store (m : Mem) (a : Ptr) (x : UInt8) : Option Mem :=
  if a ≠ 0 ∧ m.mapped a.toNat = true then
    some { m with byte := Function.update m.byte a.toNat x }
  else
    none

/-- The loop of `memset`, with the turns that are left. -/
def memsetLoop (dest : Ptr) (c : UInt8) : ℕ → UInt32 → Mem → Option Mem
  | 0, _, m => some m
  | k + 1, i, m => do
    let m ← m.store (dest + i) c
    memsetLoop dest c k (i + 1) m

/-- `memset`. -/
def memset (m : Mem) (s : Ptr) (c : UInt8) (n : UInt32) : Option Mem := memsetLoop s c n.toNat 0 m

/-- `malloc`. -/
def malloc (s : State) (size : UInt32) : Option (Ptr × State) := c4aAlloc s size

/-- `calloc`. -/
def calloc (s : State) (members size : UInt32) : Option (Ptr × State) := do
  let (ret, s) ← malloc s (members * size)
  if ret ≠ 0 then do
    let m ← memset s.mem ret 0 (members * size)
    return (ret, ⟨s.heap, m⟩)
  else
    return (ret, s)

/-! ## Clearing memory -/

section Memset

variable {m : Mem} {dest : Ptr} {c : UInt8} {k : ℕ} {i : UInt32}

theorem toNat_index (h : dest.toNat + i.toNat < 2 ^ 32) :
    (dest + i).toNat = dest.toNat + i.toNat := by
  rw [UInt32.toNat_add]
  exact Nat.mod_eq_of_lt h

theorem toNat_next (h : i.toNat + 1 < 2 ^ 32) : (i + 1).toNat = i.toNat + 1 := by
  rw [UInt32.toNat_add, UInt32.toNat_one]
  exact Nat.mod_eq_of_lt h

/-- The bytes are set, and the others stay. -/
theorem memsetLoop_eq (hpos : 0 < dest.toNat) (hfits : dest.toNat + i.toNat + k ≤ 2 ^ 32)
    (hmap : ∀ a, dest.toNat + i.toNat ≤ a → a < dest.toNat + i.toNat + k → m.mapped a = true) :
    ∃ m', memsetLoop dest c k i m = some m' ∧ m'.mapped = m.mapped ∧
      ∀ a, m'.byte a =
        if dest.toNat + i.toNat ≤ a ∧ a < dest.toNat + i.toNat + k then c else m.byte a := by
  induction k generalizing i m with
  | zero =>
    refine ⟨m, rfl, rfl, fun a => ?_⟩
    rw [if_neg (by omega)]
  | succ k ih =>
    have haddr : (dest + i).toNat = dest.toNat + i.toNat := toNat_index (by omega)
    have hnext := toNat_next (i := i) (by omega)
    have hne : dest + i ≠ 0 := by
      rw [ne_eq, ← UInt32.toNat_inj, haddr, UInt32.toNat_zero]
      omega
    have hstore : m.store (dest + i) c =
        some { m with byte := Function.update m.byte (dest.toNat + i.toNat) c } := by
      rw [Mem.store, haddr]
      exact if_pos ⟨hne, hmap _ (by omega) (by omega)⟩
    obtain ⟨m', hrun, hmapped, hbyte⟩ := ih (i := i + 1)
      (m := { m with byte := Function.update m.byte (dest.toNat + i.toNat) c }) (by omega)
      fun a h₁ h₂ => hmap a (by omega) (by omega)
    refine ⟨m', run_bind hstore hrun, hmapped, fun a => ?_⟩
    rw [hbyte, hnext]
    show (if _ then c else Function.update m.byte (dest.toNat + i.toNat) c a) = _
    by_cases ha : a = dest.toNat + i.toNat
    · rw [if_neg (by omega), if_pos (by omega), ha]
      exact Function.update_self ..
    · rw [Function.update_of_ne ha]
      split
      · rw [if_pos (by omega)]
      · rw [if_neg (by omega)]

/-- Setting bytes beyond the end of the address space meets the null pointer. -/
theorem memsetLoop_eq_none (hlt : dest.toNat + i.toNat < 2 ^ 32)
    (hover : 2 ^ 32 < dest.toNat + i.toNat + k) (hturns : i.toNat + k < 2 ^ 32) :
    memsetLoop dest c k i m = none := by
  induction k generalizing i m with
  | zero => omega
  | succ k ih =>
    have hnext := toNat_next (i := i) (by omega)
    rw [memsetLoop]
    by_cases hend : dest.toNat + i.toNat + 1 < 2 ^ 32
    · cases m.store (dest + i) c with
      | none => rfl
      | some m' => exact ih (i := i + 1) (by omega) (by omega) (by omega)
    · -- the next byte is at the null pointer
      cases m.store (dest + i) c with
      | none => rfl
      | some m' =>
        have hnull : dest + (i + 1) = 0 := by
          rw [← UInt32.toNat_inj, UInt32.toNat_add, hnext, UInt32.toNat_zero]
          omega
        show memsetLoop dest c k (i + 1) m' = none
        cases k with
        | zero => omega
        | succ k =>
          rw [memsetLoop, hnull, Mem.store, if_neg (by simp)]
          rfl

end Memset

variable {s s' : State} {n i k : ℕ} {a p : Ptr} {C F : ℕ → List Ptr} {loose : Ptr → Prop}
  {U : Ptr → ℕ → Prop} {size : UInt32}

/-! ## Whose node is returned -/

theorem bucketPop_ptr (h : c4aBucketPop s i = some (a, s')) (hi : i ≤ c4aMaxBuckets) :
    a = s.heap.buckets i := by
  rw [c4aBucketPop, Heap.bucket_eq hi, Option.bind_eq_bind, Option.bind_some] at h
  split at h
  · obtain ⟨s₁, -, h⟩ := Option.bind_eq_some_iff.1 h
    exact (congrArg Prod.fst (Option.some.inj h)).symm
  · exact (congrArg Prod.fst (Option.some.inj h)).symm

/-- A node that is put into a bucket is its first one. -/
theorem bucketInsert_head (h : c4aBucketInsert s i a = some s') (hi : i ≤ c4aMaxBuckets) :
    s'.heap.buckets i = a ∧ a ≠ 0 := by
  rw [c4aBucketInsert, Heap.bucket_eq hi, Heap.setBucket_eq hi, Option.bind_eq_bind,
    Option.bind_some] at h
  obtain ⟨m₁, -, h⟩ := Option.bind_eq_some_iff.1 h
  obtain ⟨m₂, hmodify, h⟩ := Option.bind_eq_some_iff.1 h
  obtain rfl := Option.some.inj h
  refine ⟨if_pos rfl, ?_⟩
  rintro rfl
  rw [Mem.modify, if_neg (by simp [Mem.accessible])] at hmodify
  cases hmodify

/-- However far the first node of a bucket is split down, it is the one that is returned. -/
theorem getNodeSpillover_ptr (h : getNodeSpillover s i k = some (a, s')) (hi : i ≤ c4aMaxBuckets)
    (hk : k ≤ c4aMaxBuckets) : a = s.heap.buckets k ∧ a ≠ 0 := by
  obtain ⟨s₁, hspill, h⟩ := Option.bind_eq_some_iff.1 h
  obtain ⟨⟨node, s₂⟩, hpop, hspill⟩ := Option.bind_eq_some_iff.1 hspill
  obtain ⟨s₃, -, hinsert⟩ := Option.bind_eq_some_iff.1 hspill
  obtain ⟨⟨ret, s₄⟩, hpop', h⟩ := Option.bind_eq_some_iff.1 h
  obtain ⟨s₅, -, h⟩ := Option.bind_eq_some_iff.1 h
  obtain ⟨hhead, hne⟩ := bucketInsert_head hinsert hi
  have hret : ret = node := (bucketPop_ptr hpop' hi).trans hhead
  have ha : ret = a := congrArg Prod.fst (Option.some.inj h)
  rw [← ha, hret]
  exact ⟨bucketPop_ptr hpop hk, hne⟩

namespace Inv

theorem first_block (h : Inv s n C F loose U) (hi : i ≤ c4aMaxBuckets)
    (hne : s.heap.buckets i ≠ 0) : Block n C (s.heap.buckets i) := by
  rw [h.lists.head i hi] at hne ⊢
  cases hF : F i with
  | nil =>
    rw [hF] at hne
    exact absurd rfl hne
  | cons a l =>
    apply h.lists.block_of_mem hi
    rw [hF]
    exact List.mem_cons_self

/-- `c4a_get_node_from_bucket` returns a block of the heap or of the new chunk, for each bucket. -/
theorem getNode_block (h : Inv s n C F (fun _ => False) U) (hi : i ≤ c4aMaxBuckets)
    (hrun : c4aGetNodeFromBucket s i = some (a, s')) :
    ∃ s₁ n₁ C₁, Phys s₁ n₁ C₁ ∧ Block n₁ C₁ a := by
  by_cases hF : F i = []
  · rw [h.getNode_nil hi hF] at hrun
    obtain ⟨⟨k, s₁⟩, hfind, hspill⟩ := Option.bind_eq_some_iff.1 hrun
    rw [c4aFindUpwardsBucket] at hfind
    cases hloop : findLoop s.heap (c4aMaxBuckets + 1 - (i + 1)) (i + 1) with
    | some j =>
      rw [hloop] at hfind
      obtain ⟨rfl, rfl⟩ := Prod.mk.inj (Option.some.inj hfind)
      obtain ⟨h₁, h₂, -, -⟩ := findLoop_some hloop
      obtain ⟨rfl, hne⟩ := getNodeSpillover_ptr hspill hi (by omega)
      exact ⟨s, n, C, h.phys, h.first_block (by omega) hne⟩
    | none =>
      rw [hloop] at hfind
      by_cases hroom : 0 < s.heap.start.toNat ∧ s.heap.start.toNat + 16384 * (n + 1) < 2 ^ 32
      · obtain ⟨t, s₂, hgrow, -, -, hinv⟩ := h.grow hroom.1 hroom.2 fun _ => id
        rw [hgrow] at hfind
        obtain ⟨rfl, rfl⟩ := Prod.mk.inj (Option.some.inj hfind)
        obtain ⟨rfl, hne⟩ := getNodeSpillover_ptr hspill hi (Nat.le_refl _)
        exact ⟨s₂, n + 1, _, hinv.phys, hinv.first_block (Nat.le_refl _) hne⟩
      · have hblocked := h.getNode_blocked hi ?_ hroom
        · rw [h.getNode_nil hi hF] at hblocked
          rw [hblocked] at hrun
          cases hrun
        · intro j hij hj
          by_cases he : j = i
          · rw [he, hF]
          · exact h.list_eq_nil hj (findLoop_none hloop (by omega) (by omega))
  · obtain ⟨b, l, hF⟩ := List.exists_cons_of_ne_nil hF
    obtain ⟨s₁, nxt, prv, hpop, -, -, -, -, -, hinv⟩ := h.pop_cons hi hF
    have hB := (hinv.loose_free b (.inr rfl)).1
    have hget : c4aGetNodeFromBucket s i = some (b, s₁) := by
      refine run_bind hpop ?_
      exact if_neg (hinv.phys.ne_zero hB)
    rw [hget] at hrun
    obtain ⟨rfl, rfl⟩ := Prod.mk.inj (Option.some.inj hrun)
    exact ⟨s₁, n, C, hinv.phys, hB⟩

end Inv

/-! ## Requests that wrap around -/

/-- The sum of a request that wraps around is less than the size of a node. -/
theorem allocIndex_of_wraps (hwrap : 2 ^ 32 ≤ size.toNat + 20) : allocIndex size ≤ 5 := by
  have hall : ∀ k < 20, allocIndex (UInt32.ofNat (4294967276 + k)) ≤ 5 := by decide +kernel
  have hlt := size.toNat_lt
  have hsize : size = UInt32.ofNat (4294967276 + (size.toNat - 4294967276)) := by
    rw [Nat.add_sub_cancel' (by omega), UInt32.ofNat_toNat]
  rw [hsize]
  exact hall _ (by omega)

/-- A request that wraps around is not refused. -/
theorem c4aAlloc_of_wraps (h : Inv s n C F (fun _ => False) U) (hwrap : 2 ^ 32 ≤ size.toNat + 20)
    (hrun : c4aAlloc s size = some (p, s')) : 20 < p.toNat := by
  have hindex := allocIndex_of_wraps hwrap
  have hle : allocIndex size ≤ c4aMaxBuckets := Nat.le_trans hindex (by decide)
  rw [c4aAlloc, if_neg (Nat.not_lt_of_le hle)] at hrun
  obtain ⟨⟨a, s₁⟩, hget, hrun⟩ := Option.bind_eq_some_iff.1 hrun
  obtain ⟨m, -, hrun⟩ := Option.bind_eq_some_iff.1 hrun
  obtain ⟨rfl, -⟩ := Prod.mk.inj (Option.some.inj hrun)
  obtain ⟨s₂, n₂, C₂, hphys, hblock⟩ := h.getNode_block hle hget
  rw [toNat_payload hphys hblock]
  have hne : a.toNat ≠ 0 := by
    rw [ne_eq, ← UInt32.toNat_zero, UInt32.toNat_inj]
    exact hphys.ne_zero hblock
  omega

/-! ## The result -/

/-- `c4a_alloc` refuses exactly the requests that do not fit into a chunk with their node, and else
returns a payload that is large enough. -/
def AllocOk (s : State) (size : UInt32) : Prop :=
  ∃ p s', c4aAlloc s size = some (p, s') ∧ (p ≠ 0 ↔ size.toNat + nodeSize ≤ 2 ^ c4aMaxBuckets) ∧
    (p ≠ 0 → size.toNat ≤ payloadSize s'.mem p)

/-- `calloc` returns the null pointer, or memory for all members that is zero. -/
def CallocOk (s : State) (members size : UInt32) : Prop :=
  ∃ p s', calloc s members size = some (p, s') ∧
    (p ≠ 0 → members.toNat * size.toNat ≤ payloadSize s'.mem p ∧
      ∀ c, p.toNat ≤ c → c < p.toNat + members.toNat * size.toNat → s'.mem.byte c = 0)

/-- There is a free block for a request, or room for another chunk. -/
def Supplied (s : State) (size : ℕ) : Prop :=
  (∃ j ≤ c4aMaxBuckets, size + nodeSize ≤ 2 ^ j ∧ s.heap.buckets j ≠ 0) ∨
    0 < s.heap.start.toNat ∧ s.heap.start.toNat + (s.heap.pages.toNat + 4) * 4096 < 2 ^ 32

/-- A request for which there is a block. -/
theorem alloc_of_supplied (h : Inv s n C F (fun _ => False) U)
    (hfit : size.toNat + 20 ≤ 2 ^ 14) (hsupply : Supplied s size.toNat) :
    ∃ a s' n' C' F' U', c4aAlloc s size = some (a + UInt32.ofNat nodeSize, s') ∧
      Inv s' n' C' F' (fun _ => False) U' ∧ Block n' C' a ∧
      size.toNat + 20 ≤ s'.mem.size a := by
  have hsize : size.toNat + 20 < 2 ^ 32 := Nat.lt_of_le_of_lt hfit (by decide)
  rcases h.alloc hsize with
    ⟨-, hbig⟩ | ⟨a, s', n', C', F', hrun, -, -, -, hinv, -⟩ | ⟨-, hempty, hno⟩
  · omega
  · obtain ⟨hB, -, hbk⟩ := (hinv.used a _).1 (.inr ⟨rfl, rfl⟩)
    refine ⟨a, s', n', C', F', _, hrun, hinv, hB, ?_⟩
    rw [Mem.size, hbk]
    exact (allocIndex_le_iff hsize).1 (Nat.le_refl _)
  · exfalso
    rcases hsupply with ⟨j, hj, hfree, hne⟩ | hroom
    · rw [h.lists.head j hj, hempty j ((allocIndex_le_iff hsize).2 hfree) hj] at hne
      exact hne rfl
    · have hpages := h.phys.pages
      exact hno (by omega)

/-- A request that fits and has no block. -/
theorem alloc_of_not_supplied (h : Inv s n C F (fun _ => False) U)
    (hfit : size.toNat + 20 ≤ 2 ^ 14) (hsupply : ¬ Supplied s size.toNat) :
    c4aAlloc s size = none := by
  have hsize : size.toNat + 20 < 2 ^ 32 := Nat.lt_of_le_of_lt hfit (by decide)
  have hle : allocIndex size ≤ c4aMaxBuckets := (allocIndex_le_iff hsize).2 hfit
  obtain ⟨hfree, hroom⟩ := not_or.1 hsupply
  have hpages := h.phys.pages
  have hblocked := h.getNode_blocked hle ?_ (by omega)
  · rw [c4aAlloc, if_neg (Nat.not_lt_of_le hle), hblocked]
    rfl
  · intro j hij hj
    apply h.list_eq_nil hj
    by_contra hne
    exact hfree ⟨j, hj, (allocIndex_le_iff hsize).1 hij, hne⟩

/-- A request that does not fit. -/
theorem alloc_of_large (hsize : size.toNat + 20 < 2 ^ 32) (hbig : 2 ^ 14 < size.toNat + 20) :
    c4aAlloc s size = some (0, s) := by
  refine if_pos (Nat.lt_of_not_le fun hle => ?_)
  have hfit : size.toNat + 20 ≤ 2 ^ 14 := (allocIndex_le_iff hsize).1 hle
  omega

/-- A payload of the heap. -/
theorem payload_ne_zero (hP : Phys s n C) (ha : Block n C a) : a + UInt32.ofNat nodeSize ≠ 0 := by
  rw [ne_eq, ← UInt32.toNat_inj, toNat_payload hP ha, UInt32.toNat_zero]
  omega

/-- `c4a_alloc` does what it is for just when the sum does not wrap around. -/
theorem allocOk_iff (h : Inv s n C F (fun _ => False) U) : AllocOk s size ↔
    size.toNat + nodeSize < 2 ^ 32 ∧
      (size.toNat + nodeSize ≤ 2 ^ c4aMaxBuckets → Supplied s size.toNat) := by
  show _ ↔ size.toNat + 20 < 2 ^ 32 ∧ (size.toNat + 20 ≤ 2 ^ 14 → _)
  constructor
  · rintro ⟨p, s', hrun, hiff, -⟩
    constructor
    · by_contra hwrap
      have hp := c4aAlloc_of_wraps h (Nat.le_of_not_lt hwrap) hrun
      have hne : p ≠ 0 := by
        rintro rfl
        rw [UInt32.toNat_zero] at hp
        omega
      have hfit : size.toNat + 20 ≤ 2 ^ 14 := hiff.1 hne
      omega
    · intro hfit
      by_contra hsupply
      rw [alloc_of_not_supplied h hfit hsupply] at hrun
      cases hrun
  · rintro ⟨hsize, hsupply⟩
    rcases Nat.lt_or_ge (2 ^ 14) (size.toNat + 20) with hbig | hfit
    · refine ⟨0, s, alloc_of_large hsize hbig, ?_, fun hne => absurd rfl hne⟩
      exact ⟨fun hne => absurd rfl hne, fun hfit => absurd hfit (Nat.not_le_of_lt hbig)⟩
    · obtain ⟨a, s', n', C', F', U', hrun, hinv, hB, hle⟩ :=
        alloc_of_supplied h hfit (hsupply hfit)
      refine ⟨_, s', hrun, ⟨fun _ => hfit, fun _ => payload_ne_zero hinv.phys hB⟩, fun _ => ?_⟩
      rw [payloadSize_eq]
      omega

/-- A payload is cleared. -/
theorem memset_payload {w : UInt32} (hP : Phys s n C) (hB : Block n C a)
    (hroom : w.toNat + 20 ≤ s.mem.size a) :
    ∃ m', memset s.mem (a + UInt32.ofNat nodeSize) 0 w = some m' ∧
      payloadSize m' (a + UInt32.ofNat nodeSize) =
        payloadSize s.mem (a + UInt32.ofNat nodeSize) ∧
      ∀ c, a.toNat + 20 ≤ c → c < a.toNat + 20 + w.toNat → m'.byte c = 0 := by
  have hp := toNat_payload hP hB
  have hbounds := hP.block_bounds hB
  have hfits := hP.fits
  have hfit : (a + UInt32.ofNat nodeSize).toNat + (0 : UInt32).toNat + w.toNat ≤ 2 ^ 32 := by
    rw [UInt32.toNat_zero]
    omega
  have hmap : ∀ c, (a + UInt32.ofNat nodeSize).toNat + (0 : UInt32).toNat ≤ c →
      c < (a + UInt32.ofNat nodeSize).toNat + (0 : UInt32).toNat + w.toNat →
      s.mem.mapped c = true := by
    rw [UInt32.toNat_zero]
    exact fun c h₁ h₂ => hP.mapped_block hB (by omega) (by omega)
  obtain ⟨m', hrun, -, hbyte⟩ := memsetLoop_eq (c := 0) (by omega) hfit hmap
  rw [UInt32.toNat_zero, hp, Nat.add_zero] at hbyte
  refine ⟨m', hrun, ?_, fun c h₁ h₂ => ?_⟩
  · have hnode : m'.node a = s.mem.node a := by
      apply Mem.node_congr
      intro i hi
      rw [hbyte, if_neg (by omega)]
    rw [payloadSize_eq, payloadSize_eq, Mem.size, Mem.size, hnode]
  · rw [hbyte, if_pos ⟨h₁, h₂⟩]

section Calloc

variable {members : UInt32}

theorem toNat_product (members size : UInt32) :
    (members * size).toNat = members.toNat * size.toNat % 2 ^ 32 :=
  UInt32.toNat_mul ..

/-- `calloc` with a block for the product. -/
theorem calloc_of_supplied (h : Inv s n C F (fun _ => False) U)
    (hfit : (members * size).toNat + 20 ≤ 2 ^ 14) (hsupply : Supplied s (members * size).toNat) :
    ∃ p s', calloc s members size = some (p, s') ∧ p ≠ 0 ∧
      (members * size).toNat ≤ payloadSize s'.mem p ∧ payloadSize s'.mem p + 20 ≤ 2 ^ 14 ∧
      ∀ c, p.toNat ≤ c → c < p.toNat + (members * size).toNat → s'.mem.byte c = 0 := by
  obtain ⟨a, s', n', C', F', U', hrun, hinv, hB, hle⟩ := alloc_of_supplied h hfit hsupply
  obtain ⟨m', hset, hpayload, hzero⟩ := memset_payload hinv.phys hB hle
  have hne := payload_ne_zero hinv.phys hB
  have hsize : s'.mem.size a ≤ 2 ^ 14 :=
    Nat.pow_le_pow_right (by decide) (hinv.phys.bucket_le hB)
  refine ⟨_, ⟨s'.heap, m'⟩, run_bind hrun ?_, hne, ?_⟩
  · show (if _ then _ else _) = _
    rw [if_pos hne, hset]
    rfl
  · rw [toNat_payload hinv.phys hB, hpayload, payloadSize_eq]
    exact ⟨by omega, by omega, hzero⟩

/-- `calloc` of a product that wraps around in the sum runs out of the address space. -/
theorem calloc_of_wraps (h : Inv s n C F (fun _ => False) U)
    (hwrap : 2 ^ 32 ≤ (members * size).toNat + 20) : calloc s members size = none := by
  cases hrun : c4aAlloc s (members * size) with
  | none =>
    rw [calloc, malloc, hrun]
    rfl
  | some x =>
    obtain ⟨p, s'⟩ := x
    have hp := c4aAlloc_of_wraps h hwrap hrun
    have hne : p ≠ 0 := by
      rintro rfl
      rw [UInt32.toNat_zero] at hp
      omega
    have hlt := p.toNat_lt
    have hlt' := (members * size).toNat_lt
    have hset : memset s'.mem p 0 (members * size) = none := by
      apply memsetLoop_eq_none <;> rw [UInt32.toNat_zero] <;> omega
    rw [calloc, malloc, hrun]
    show (if _ then _ else _) = _
    rw [if_pos hne, hset]
    rfl

/-- `calloc` does what it is for just when the product fits or its sum is refused. -/
theorem callocOk_iff (h : Inv s n C F (fun _ => False) U) : CallocOk s members size ↔
    (members.toNat * size.toNat + nodeSize ≤ 2 ^ c4aMaxBuckets ∧
      Supplied s (members.toNat * size.toNat)) ∨
    2 ^ c4aMaxBuckets < (members.toNat * size.toNat + nodeSize) % 2 ^ 32 := by
  show _ ↔ (_ + 20 ≤ 2 ^ 14 ∧ _) ∨ 2 ^ 14 < (_ + 20) % 2 ^ 32
  have hw := toNat_product members size
  generalize hP : members.toNat * size.toNat = P at *
  constructor
  · rintro ⟨p, s', hrun, hok⟩
    by_contra hneg
    obtain ⟨hfit, hrefused⟩ := not_or.1 hneg
    rcases Nat.lt_or_ge ((members * size).toNat + 20) (2 ^ 32) with hsum | hwrap
    · have hsmall : (members * size).toNat + 20 ≤ 2 ^ 14 := by omega
      by_cases hsupply : Supplied s (members * size).toNat
      · obtain ⟨p', s'', hrun', hne, -, hlarge, -⟩ := calloc_of_supplied h hsmall hsupply
        rw [hrun] at hrun'
        obtain ⟨rfl, rfl⟩ := Prod.mk.inj (Option.some.inj hrun')
        have hle := (hok hne).1
        rw [hP] at hle
        have hsame : (members * size).toNat = P := by omega
        exact hfit ⟨by omega, hsame ▸ hsupply⟩
      · have hnone := alloc_of_not_supplied h hsmall hsupply
        rw [calloc, malloc, hnone] at hrun
        cases hrun
    · rw [calloc_of_wraps h hwrap] at hrun
      cases hrun
  · rintro (⟨hfit, hsupply⟩ | hrefused)
    · have hsame : (members * size).toNat = P := by omega
      have hword : (members * size).toNat + 20 ≤ 2 ^ 14 := by omega
      obtain ⟨p, s', hrun, -, hle, -, hzero⟩ := calloc_of_supplied h hword (hsame ▸ hsupply)
      rw [hsame] at hle hzero
      refine ⟨p, s', hrun, fun _ => ?_⟩
      rw [hP]
      exact ⟨hle, hzero⟩
    · have hnull : c4aAlloc s (members * size) = some (0, s) :=
        alloc_of_large (by omega) (by omega)
      refine ⟨0, s, run_bind hnull rfl, fun hne => absurd rfl hne⟩

end Calloc

/-- **Sizes of allocations.** In every heap that a program leads to, `c4a_alloc` refuses just the
requests that are too large and returns enough for the others, if and only if the sum with the size
of a node does not wrap around; and `calloc` returns nothing or enough and cleared memory, if and
only if the product fits into a block or its sum in a word is refused. -/
theorem alloc_sizes_iff (m : Mem) (location : Ptr) {x : Program}
    (hrun : ReflTransGen Step ⟨c4aHeapInit m location, []⟩ x) :
    (∀ size, AllocOk x.state size ↔ size.toNat + nodeSize < 2 ^ 32 ∧
      (size.toNat + nodeSize ≤ 2 ^ c4aMaxBuckets → Supplied x.state size.toNat)) ∧
    ∀ members size, CallocOk x.state members size ↔
      (members.toNat * size.toNat + nodeSize ≤ 2 ^ c4aMaxBuckets ∧
        Supplied x.state (members.toNat * size.toNat)) ∨
      2 ^ c4aMaxBuckets < (members.toNat * size.toNat + nodeSize) % 2 ^ 32 := by
  obtain ⟨-, n, C, F, U, hinv, -⟩ := Good.of_run m location hrun
  exact ⟨fun size => allocOk_iff hinv, fun members size => callocOk_iff hinv⟩

/-- The heap of a process, at its start. -/
def startHeap : State := c4aHeapInit ⟨fun _ => 0, fun _ => false⟩ 0xe0000000

theorem startHeap_supplied (size : ℕ) : Supplied startHeap size := .inr (by decide)

/-- At the start, 100 bytes can be had, and three members of 7 bytes. -/
theorem alloc_sizes_iff_start : AllocOk startHeap 100 ∧ CallocOk startHeap 3 7 := by
  obtain ⟨halloc, hcalloc⟩ := alloc_sizes_iff ⟨fun _ => 0, fun _ => false⟩ 0xe0000000 .refl
  constructor
  · exact (halloc 100).2 ⟨by decide, fun _ => startHeap_supplied _⟩
  · exact (hcalloc 3 7).2 (.inl ⟨by decide, startHeap_supplied _⟩)

/-- The largest request gets 12 bytes, and so do 65536 members of 65536 bytes. -/
theorem alloc_sizes_wrap :
    (∃ s', c4aAlloc startHeap 0xffffffff = some (0xe0000014, s') ∧
      payloadSize s'.mem 0xe0000014 = 12) ∧
    (∃ s', calloc startHeap 0x10000 0x10000 = some (0xe0000014, s') ∧
      payloadSize s'.mem 0xe0000014 = 12) ∧
    ¬ AllocOk startHeap 0xffffffff ∧ ¬ CallocOk startHeap 0x10000 0x10000 := by
  have halloc : (c4aAlloc startHeap 0xffffffff).map (fun x => (x.1, payloadSize x.2.mem x.1)) =
      some (0xe0000014, 12) := by decide +kernel
  have hcalloc : (calloc startHeap 0x10000 0x10000).map
      (fun x => (x.1, payloadSize x.2.mem x.1)) = some (0xe0000014, 12) := by decide +kernel
  obtain ⟨⟨p, s₁⟩, hrun₁, heq₁⟩ := Option.map_eq_some_iff.1 halloc
  obtain ⟨rfl, hsize₁⟩ := Prod.mk.inj heq₁
  obtain ⟨⟨q, s₂⟩, hrun₂, heq₂⟩ := Option.map_eq_some_iff.1 hcalloc
  obtain ⟨rfl, hsize₂⟩ := Prod.mk.inj heq₂
  refine ⟨⟨s₁, hrun₁, hsize₁⟩, ⟨s₂, hrun₂, hsize₂⟩, ?_, ?_⟩
  · rintro ⟨p, s', hrun, hiff, -⟩
    rw [hrun₁] at hrun
    obtain ⟨rfl, rfl⟩ := Prod.mk.inj (Option.some.inj hrun)
    exact absurd (hiff.1 (by decide)) (by decide)
  · rintro ⟨p, s', hrun, hok⟩
    rw [hrun₂] at hrun
    obtain ⟨rfl, rfl⟩ := Prod.mk.inj (Option.some.inj hrun)
    have hle := (hok (by decide)).1
    rw [hsize₂] at hle
    exact absurd hle (by decide)

end C4OS.C4alloc
