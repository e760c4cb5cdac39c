import C4OS.C4alloc.Free
import Mathlib.Data.List.Nodup
import Mathlib.Logic.Relation

/-!
# Runs of the heap

A program that uses a heap (`Step`): it allocates and frees, and between the calls it writes to the
payloads it has. `live` lists the pointers that were returned and are not freed yet, each with the
size that was asked for. `HeapOk` is what holds after every operation, and `heap_ok_of_run` proves
it for all runs on a heap at any address, together with the progress of the next operation: a free
always returns, and an allocation does as long as one more chunk fits between the heap and the end
of the address space.

A run never leaves the address space. Where no further chunk fits, the functions read the null
pointer, so that the operation has no result; the same happens on a heap at the null pointer.
-/

namespace C4OS.C4alloc

open Foundations Relation

/-- The size of the payload at a pointer. -/
def payloadSize (m : Mem) (p : Ptr) : ℕ := m.size (p - UInt32.ofNat nodeSize) - nodeSize

/-- The heap and the pointers in use. -/
structure Program where
  state : State
  live : List (Ptr × UInt32)

/-- A step of the program. -/
inductive Step : Program → Program → Prop
  | alloc {s s' : State} {live : List (Ptr × UInt32)} {size p : UInt32}
      (hsize : size.toNat < 2 ^ 32 - nodeSize) (hrun : c4aAlloc s size = some (p, s')) :
      Step ⟨s, live⟩ ⟨s', if p = 0 then live else (p, size) :: live⟩
  | free {s s' : State} {live : List (Ptr × UInt32)} {size p : UInt32}
      (hlive : (p, size) ∈ live) (hrun : c4aFree s p = some s') :
      Step ⟨s, live⟩ ⟨s', live.erase (p, size)⟩
  | write {s : State} {live : List (Ptr × UInt32)} {size p : UInt32} {c : ℕ} (x : UInt8)
      (hlive : (p, size) ∈ live) (hc : p.toNat ≤ c) (hc' : c < p.toNat + payloadSize s.mem p) :
      Step ⟨s, live⟩ ⟨⟨s.heap, { s.mem with byte := Function.update s.mem.byte c x }⟩, live⟩

/-- The state of a heap between two operations, with its chunks and its lists. -/
structure HeapOk (s : State) (live : List (Ptr × UInt32)) (n : ℕ) (C F : ℕ → List Ptr) : Prop where
  pages : s.heap.pages.toNat = 4 * n
  tiles : ∀ k < n, Tiles UInt32.toNat s.mem.size (s.heap.start.toNat + 16384 * k) (C k)
    (s.heap.start.toNat + 16384 * (k + 1))
  physLinks : ∀ k < n,
    Seg (fun a => (s.mem.node a).physNext) (fun a => (s.mem.node a).physPrev) 0 (C k) 0
  bucket : ∀ a, Block n C a →
    5 ≤ (s.mem.node a).bucket.toNat ∧ (s.mem.node a).bucket.toNat ≤ c4aMaxBuckets
  lists : ∀ i ≤ c4aMaxBuckets, s.heap.buckets i = (F i).headD 0 ∧ (F i).Nodup ∧
    Seg (fun a => (s.mem.node a).next) (fun a => (s.mem.node a).previous) 0 (F i) 0 ∧
    ∀ a, a ∈ F i ↔ Block n C a ∧
      (s.mem.node a).status = c4aStatusFree ∧ (s.mem.node a).bucket.toNat = i
  used : ∀ a, Block n C a → ((s.mem.node a).status = c4aStatusUsed ↔
    ∃ size, (a + UInt32.ofNat nodeSize, size) ∈ live)
  live_block : ∀ p size, (p, size) ∈ live → ∃ a, Block n C a ∧ p = a + UInt32.ofNat nodeSize
  disjoint : live.Pairwise fun x y => x.1.toNat + payloadSize s.mem x.1 ≤ y.1.toNat ∨
    y.1.toNat + payloadSize s.mem y.1 ≤ x.1.toNat
  inside : ∀ p size, (p, size) ∈ live → ∃ k < n, s.heap.start.toNat + 16384 * k ≤ p.toNat ∧
    p.toNat + payloadSize s.mem p ≤ s.heap.start.toNat + 16384 * (k + 1)
  mapped : ∀ c, s.heap.start.toNat ≤ c → c < s.heap.start.toNat + 16384 * n →
    s.mem.mapped c = true
  headers : ∀ p size, (p, size) ∈ live → ∀ a, Block n C a →
    a.toNat + nodeSize ≤ p.toNat ∨ p.toNat + payloadSize s.mem p ≤ a.toNat
  large : ∀ p size, (p, size) ∈ live → size.toNat ≤ payloadSize s.mem p

/-- The next operation returns. -/
structure Progress (s : State) (live : List (Ptr × UInt32)) : Prop where
  alloc : ∀ size : UInt32, size.toNat < 2 ^ 32 - nodeSize → 0 < s.heap.start.toNat →
    s.heap.start.toNat + (s.heap.pages.toNat + 4) * 4096 < 2 ^ 32 →
    ∃ p s', c4aAlloc s size = some (p, s')
  free : ∀ p size, (p, size) ∈ live → ∃ s', c4aFree s p = some s'

/-- The used blocks are those of the pointers in use. -/
structure Live (U : Ptr → ℕ → Prop) (live : List (Ptr × UInt32)) : Prop where
  nodup : (live.map Prod.fst).Nodup
  used_of_mem : ∀ p size, (p, size) ∈ live →
    ∃ a i, U a i ∧ p = a + UInt32.ofNat nodeSize ∧ size.toNat + 20 ≤ 2 ^ i
  mem_of_used : ∀ a i, U a i → ∃ size, (a + UInt32.ofNat nodeSize, size) ∈ live

variable {s s' : State} {n i : ℕ} {a b p : Ptr} {C F : ℕ → List Ptr} {U : Ptr → ℕ → Prop}
  {live : List (Ptr × UInt32)}

theorem adjusted_lt {size : UInt32} (h : size.toNat < 2 ^ 32 - nodeSize) :
    size.toNat + 20 < 2 ^ 32 := by
  have h' : size.toNat < 2 ^ 32 - 20 := h
  omega

theorem toNat_payload (hP : Phys s n C) (ha : Block n C a) :
    (a + UInt32.ofNat nodeSize).toNat = a.toNat + 20 := by
  have h₁ := hP.block_bounds ha
  have h₂ := hP.le_size ha
  have h₃ := hP.fits
  rw [UInt32.toNat_add]
  exact Nat.mod_eq_of_lt (by show a.toNat + 20 < 2 ^ 32; omega)

theorem payload_node : a + UInt32.ofNat nodeSize - UInt32.ofNat nodeSize = a :=
  UInt32.add_sub_cancel a _

theorem payloadSize_eq {m : Mem} : payloadSize m (a + UInt32.ofNat nodeSize) = m.size a - 20 := by
  rw [payloadSize, payload_node]

/-! ## What a program may rely on -/

theorem Inv.heapOk (h : Inv s n C F (fun _ => False) U) (hlive : Live U live) :
    HeapOk s live n C F := by
  have hP := h.phys
  have hmem : ∀ p size, (p, size) ∈ live → ∃ a i, U a i ∧ Block n C a ∧
      p = a + UInt32.ofNat nodeSize ∧ p.toNat = a.toNat + 20 ∧
      payloadSize s.mem p = s.mem.size a - 20 ∧ 32 ≤ s.mem.size a := by
    intro p size hp
    obtain ⟨a, i, hU, rfl, -⟩ := hlive.used_of_mem p size hp
    have hB := ((h.used a i).1 hU).1
    exact ⟨a, i, hU, hB, rfl, toNat_payload hP hB, payloadSize_eq, hP.le_size hB⟩
  refine ⟨hP.pages, hP.tiles, hP.links, fun a ha => ⟨hP.five_le a ha, hP.bucket_le ha⟩,
    fun i hi => ⟨h.lists.head i hi, h.lists.nodup i hi, h.lists.links i hi, fun a => ?_⟩,
    fun a ha => ⟨fun hst => ?_, ?_⟩, fun p size hp => ?_, ?_, fun p size hp => ?_, hP.mapped,
    fun p size hp b hb => ?_, fun p size hp => ?_⟩
  · rw [h.lists.mem_iff i hi]
    simp
  · exact hlive.mem_of_used a _ ((h.used a _).2 ⟨ha, hst, rfl⟩)
  · rintro ⟨size, hmem'⟩
    obtain ⟨b, i, hU, hab, -⟩ := hlive.used_of_mem _ _ hmem'
    rw [(UInt32.add_left_inj _).1 hab]
    exact ((h.used b i).1 hU).2.1
  · obtain ⟨a, -, -, hB, hpa, -⟩ := hmem p size hp
    exact ⟨a, hB, hpa⟩
  · refine (List.pairwise_map.1 hlive.nodup).imp_of_mem fun {x y} hx hy hne => ?_
    obtain ⟨a, -, -, hBa, hxa, h₁, h₂, h₃⟩ := hmem x.1 x.2 hx
    obtain ⟨b, -, -, hBb, hyb, h₄, h₅, h₆⟩ := hmem y.1 y.2 hy
    have := hP.disjoint hBa hBb fun hab => hne (by rw [hxa, hyb, hab])
    omega
  · obtain ⟨a, -, -, ⟨k, hk, hak⟩, -, h₁, h₂, h₃⟩ := hmem p size hp
    have := hP.bounds hk hak
    exact ⟨k, hk, by omega, by omega⟩
  · obtain ⟨a, -, -, hB, -, h₁, h₂, h₃⟩ := hmem p size hp
    show b.toNat + 20 ≤ _ ∨ _
    by_cases hab : a = b
    · rw [← hab]
      omega
    · have := hP.disjoint hB hb hab
      have := hP.le_size hb
      omega
  · obtain ⟨a, i, hU, rfl, hsize⟩ := hlive.used_of_mem p size hp
    have := ((h.used a i).1 hU).2.2
    rw [payloadSize_eq, Mem.size, this]
    omega

theorem Inv.progress (h : Inv s n C F (fun _ => False) U) (hlive : Live U live) :
    Progress s live where
  alloc size hsize hpos hroom := by
    have hsize' := adjusted_lt hsize
    have hroom' : s.heap.start.toNat + 16384 * (n + 1) < 2 ^ 32 := by
      have hpages := h.phys.pages
      omega
    rcases h.alloc hsize' with ⟨hrun, -⟩ | ⟨a, s', -, -, -, hrun, -⟩ | ⟨-, -, hno⟩
    · exact ⟨0, s, hrun⟩
    · exact ⟨_, s', hrun⟩
    · exact absurd ⟨hpos, hroom'⟩ hno
  free p size hp := by
    obtain ⟨a, i, hU, rfl, -⟩ := hlive.used_of_mem p size hp
    obtain ⟨s', -, -, hrun, -⟩ := h.free hU payload_node
    exact ⟨s', hrun⟩

/-! ## The steps -/

/-- The heap keeps its invariant, for some chunks, lists and used blocks. -/
def Good (location : Ptr) (x : Program) : Prop :=
  x.state.heap.start = location ∧
    ∃ n C F U, Inv x.state n C F (fun _ => False) U ∧ Live U x.live

theorem Live.alloc {size : UInt32} (h : Live U live) (ha : ∀ j, ¬ U a j)
    (hsize : size.toNat + 20 ≤ 2 ^ i) :
    Live (fun b j => U b j ∨ b = a ∧ i = j) ((a + UInt32.ofNat nodeSize, size) :: live) where
  nodup := by
    refine List.nodup_cons.2 ⟨fun hmem => ?_, h.nodup⟩
    obtain ⟨⟨p, sz⟩, hp, he⟩ := List.mem_map.1 hmem
    obtain ⟨b, j, hU, hpb, -⟩ := h.used_of_mem p sz hp
    rw [show p = a + UInt32.ofNat nodeSize from he] at hpb
    exact ha j ((UInt32.add_left_inj _).1 hpb ▸ hU)
  used_of_mem p sz hp := by
    rcases List.mem_cons.1 hp with he | hp
    · obtain ⟨rfl, rfl⟩ := Prod.mk.inj he
      exact ⟨a, i, .inr ⟨rfl, rfl⟩, rfl, hsize⟩
    · obtain ⟨b, j, hU, hpb, hle⟩ := h.used_of_mem p sz hp
      exact ⟨b, j, .inl hU, hpb, hle⟩
  mem_of_used b j hU := by
    rcases hU with hU | ⟨rfl, -⟩
    · obtain ⟨sz, hp⟩ := h.mem_of_used b j hU
      exact ⟨sz, List.mem_cons_of_mem _ hp⟩
    · exact ⟨size, List.mem_cons_self⟩

theorem Live.free {size : UInt32} (h : Live U live)
    (hp : (a + UInt32.ofNat nodeSize, size) ∈ live) :
    Live (fun b j => U b j ∧ b ≠ a) (live.erase (a + UInt32.ofNat nodeSize, size)) := by
  have hnd : live.Nodup := List.Nodup.of_map _ h.nodup
  have hfst : ∀ p sz, (p, sz) ∈ live.erase (a + UInt32.ofNat nodeSize, size) →
      p ≠ a + UInt32.ofNat nodeSize := by
    rintro p sz hmem rfl
    obtain ⟨hne, hmem'⟩ := hnd.mem_erase_iff.1 hmem
    exact hne (List.inj_on_of_nodup_map h.nodup hmem' hp rfl)
  refine ⟨?_, fun p sz hmem => ?_, fun b j hU => ?_⟩
  · exact h.nodup.sublist (List.erase_sublist.map Prod.fst)
  · obtain ⟨b, j, hU, hpb, hle⟩ := h.used_of_mem p sz (List.mem_of_mem_erase hmem)
    exact ⟨b, j, ⟨hU, fun he => hfst p sz hmem (he ▸ hpb)⟩, hpb, hle⟩
  · obtain ⟨sz, hmem⟩ := h.mem_of_used b j hU.1
    refine ⟨sz, hnd.mem_erase_iff.2 ⟨fun he => ?_, hmem⟩⟩
    exact hU.2 ((UInt32.add_left_inj _).1 (Prod.mk.inj he).1)

/-- A write to the payload of a used block changes no node. -/
theorem Inv.write {c : ℕ} {x : UInt8} (h : Inv s n C F (fun _ => False) U) (ha : Block n C a)
    (hc : a.toNat + 20 ≤ c) (hc' : c < a.toNat + s.mem.size a) :
    Inv ⟨s.heap, { s.mem with byte := Function.update s.mem.byte c x }⟩ n C F
      (fun _ => False) U ∧
    ∀ j < n, rows { s.mem with byte := Function.update s.mem.byte c x } C j = rows s.mem C j := by
  have hP := h.phys
  have hnode : ∀ b, Block n C b →
      Mem.node { s.mem with byte := Function.update s.mem.byte c x } b = s.mem.node b := by
    intro b hb
    refine Mem.node_congr fun i hi => Function.update_of_ne ?_ _ _
    have h₁ := hP.le_size hb
    by_cases hab : a = b
    · rw [← hab]
      omega
    · have := hP.disjoint ha hb hab
      omega
  have hrel : Relinked s ⟨s.heap, { s.mem with byte := Function.update s.mem.byte c x }⟩ (Block n C)
      (fun b => (s.mem.node b).next) (fun b => (s.mem.node b).previous) := ⟨rfl, rfl, rfl, hnode⟩
  refine ⟨h.relinked hrel (h.lists.frame rfl (fun b => ?_) fun b hb _ _ => ?_) fun _ => False.elim,
    fun j hj => List.map_congr_left fun b hb => hrel.cell ⟨j, hj, hb⟩⟩
  · exact and_congr_right fun hb => by simp only [hnode b hb]
  · simp only [hnode b hb, and_self]

/-- An allocation of the program returns the null pointer, or a new block. -/
theorem Inv.step_alloc {size : UInt32} (h : Inv s n C F (fun _ => False) U) (hlive : Live U live)
    (hsize : size.toNat < 2 ^ 32 - nodeSize) (hrun : c4aAlloc s size = some (p, s')) :
    (p = 0 ∧ s' = s) ∨ ∃ a n' C' F', p = a + UInt32.ofNat nodeSize ∧ p ≠ 0 ∧
      s'.heap.start = s.heap.start ∧
      (∀ q : Ptr, q ≠ a → q.toNat % 32 = s.heap.start.toNat % 32 →
        (s.mem.node q).status = c4aStatusFree → (s'.mem.node q).status = c4aStatusFree) ∧
      Inv s' n' C' F' (fun _ => False) (fun b j => U b j ∨ b = a ∧ allocIndex size = j) ∧
      Live (fun b j => U b j ∨ b = a ∧ allocIndex size = j) ((p, size) :: live) ∧
      AllocRows n (rows s.mem C) (allocIndex size) n' (rows s'.mem C') := by
  have hsize' := adjusted_lt hsize
  rcases h.alloc hsize' with
    ⟨hrun', -⟩ | ⟨a, s₁, n', C', F', hrun', hst, hnew, hkeep, hinv, hrows⟩ | ⟨hrun', -⟩
  · rw [hrun] at hrun'
    obtain ⟨rfl, rfl⟩ := Prod.mk.inj (Option.some.inj hrun')
    exact .inl ⟨rfl, rfl⟩
  · rw [hrun] at hrun'
    obtain ⟨rfl, rfl⟩ := Prod.mk.inj (Option.some.inj hrun')
    have hB := ((hinv.used a _).1 (.inr ⟨rfl, rfl⟩)).1
    have hne : a + UInt32.ofNat nodeSize ≠ 0 := by
      rw [ne_eq, ← UInt32.toNat_inj, toNat_payload hinv.phys hB, UInt32.toNat_zero]
      omega
    refine .inr ⟨a, n', C', F', rfl, hne, hst, hkeep, hinv, hlive.alloc hnew ?_, hrows⟩
    exact (allocIndex_le_iff hsize').1 (Nat.le_refl _)
  · rw [hrun] at hrun'
    cases hrun'

/-- A free of the program. -/
theorem Inv.step_free {size : UInt32} (h : Inv s n C F (fun _ => False) U) (hlive : Live U live)
    (hmem : (p, size) ∈ live) (hrun : c4aFree s p = some s') :
    ∃ a i C' F', U a i ∧ p = a + UInt32.ofNat nodeSize ∧ KeepsFree s s' ∧
      (s'.mem.node a).status = c4aStatusFree ∧
      Inv s' n C' F' (fun _ => False) (fun b j => U b j ∧ b ≠ a) ∧
      Live (fun b j => U b j ∧ b ≠ a) (live.erase (p, size)) ∧
      FreeRows n (rows s.mem C) (rows s'.mem C') := by
  obtain ⟨a, i, hU, rfl, -⟩ := hlive.used_of_mem p size hmem
  obtain ⟨s₁, C', F', hrun', hfree, hself, hinv, hrows⟩ := h.free hU payload_node
  rw [hrun] at hrun'
  obtain rfl := Option.some.inj hrun'
  exact ⟨a, i, C', F', hU, rfl, hfree, hself, hinv, hlive.free hmem, hrows⟩

/-- A write of the program. -/
theorem Inv.step_write {size : UInt32} {c : ℕ} {x : UInt8}
    (h : Inv s n C F (fun _ => False) U) (hlive : Live U live) (hmem : (p, size) ∈ live)
    (hc : p.toNat ≤ c) (hc' : c < p.toNat + payloadSize s.mem p) :
    (∃ a i, U a i ∧ a.toNat + 20 ≤ c ∧ c < a.toNat + 2 ^ i) ∧
    Inv ⟨s.heap, { s.mem with byte := Function.update s.mem.byte c x }⟩ n C F
      (fun _ => False) U ∧
    ∀ j < n, rows { s.mem with byte := Function.update s.mem.byte c x } C j = rows s.mem C j := by
  obtain ⟨a, i, hU, rfl, -⟩ := hlive.used_of_mem p size hmem
  obtain ⟨hB, -, hbk⟩ := (h.used a i).1 hU
  rw [toNat_payload h.phys hB] at hc hc'
  rw [payloadSize_eq] at hc'
  have hle : 32 ≤ s.mem.size a := h.phys.le_size hB
  have hlt : c < a.toNat + s.mem.size a := by omega
  refine ⟨⟨a, i, hU, hc, ?_⟩, h.write hB hc hlt⟩
  rwa [Mem.size, hbk] at hlt

/-- A step of the program keeps the invariant of the heap, and does to the chunks what an operation
does to rows of cells. -/
theorem Inv.step {x y : Program} (hinv : Inv x.state n C F (fun _ => False) U)
    (hlive : Live U x.live) (hstep : Step x y) :
    y.state.heap.start = x.state.heap.start ∧ ∃ n' C' F' U',
      Inv y.state n' C' F' (fun _ => False) U' ∧ Live U' y.live ∧
      RowsStep n (rows x.state.mem C) n' (rows y.state.mem C') := by
  cases hstep with
  | @alloc s s' live size p hsize hrun =>
    rcases hinv.step_alloc hlive hsize hrun with
      ⟨rfl, rfl⟩ | ⟨a, n', C', F', rfl, hne, hst, -, hinv', hlive', hrows⟩
    · exact ⟨rfl, n, C, F, U, hinv, hlive, .stay fun _ _ => rfl⟩
    · simp only [if_neg hne]
      exact ⟨hst, n', C', F', _, hinv', hlive', .alloc hrows⟩
  | @free s s' live size p hmem hrun =>
    obtain ⟨a, i, C', F', -, -, hfree, -, hinv', hlive', hrows⟩ := hinv.step_free hlive hmem hrun
    exact ⟨hfree.start, n, C', F', _, hinv', hlive', .free hrows⟩
  | @write s live size p c x hmem hc hc' =>
    obtain ⟨-, hinv', hrows⟩ := hinv.step_write (x := x) hlive hmem hc hc'
    exact ⟨rfl, n, C, F, U, hinv', hlive, .stay hrows⟩

theorem Good.step {location : Ptr} {x y : Program} (h : Good location x) (hstep : Step x y) :
    Good location y := by
  obtain ⟨hstart, n, C, F, U, hinv, hlive⟩ := h
  obtain ⟨hst, n', C', F', U', hinv', hlive', -⟩ := hinv.step hlive hstep
  exact ⟨hst.trans hstart, n', C', F', U', hinv', hlive'⟩

theorem good_init (m : Mem) (location : Ptr) : Good location ⟨c4aHeapInit m location, []⟩ := by
  have hblock : ∀ a, ¬ Block 0 (fun _ => []) a := fun a ⟨k, hk, _⟩ => absurd hk (Nat.not_lt_zero k)
  refine ⟨rfl, 0, fun _ => [], fun _ => [], fun _ _ => False, ⟨?_, ?_, ?_, ?_, ?_⟩, ?_⟩
  · refine ⟨rfl, .inl rfl, Nat.le_of_lt location.toNat_lt, fun c h₁ h₂ => ?_, ?_, ?_, ?_⟩
    · exact absurd h₂ (Nat.not_lt_of_le h₁)
    · exact fun k hk => absurd hk (Nat.not_lt_zero k)
    · exact fun k hk => absurd hk (Nat.not_lt_zero k)
    · exact fun a ha => (hblock a ha).elim
  · refine ⟨fun i _ => rfl, fun i _ => trivial, fun i _ => List.nodup_nil, fun i _ a => ?_⟩
    exact ⟨fun h => (List.not_mem_nil h).elim, fun h => (hblock a h.1).elim⟩
  · exact fun _ => False.elim
  · exact fun a ha => (hblock a ha).elim
  · exact fun a i => ⟨False.elim, fun h => hblock a h.1⟩
  · exact ⟨List.nodup_nil, fun _ _ h => (List.not_mem_nil h).elim, fun _ _ => False.elim⟩

theorem Good.of_run (m : Mem) (location : Ptr) {x : Program}
    (hrun : ReflTransGen Step ⟨c4aHeapInit m location, []⟩ x) : Good location x := by
  induction hrun with
  | refl => exact good_init m location
  | tail _ hstep ih => exact ih.step hstep

/-- **The heap in every run.** After every step of a program on a heap at any address the chunks are
tiled by their blocks, each list has the free blocks of its bucket, the used blocks are those of the
pointers in use, and the payloads at these pointers are disjoint and large enough; and the next
operation returns. -/
theorem heap_ok_of_run (m : Mem) (location : Ptr) {x : Program}
    (hrun : ReflTransGen Step ⟨c4aHeapInit m location, []⟩ x) :
    x.state.heap.start = location ∧ (∃ n C F, HeapOk x.state x.live n C F) ∧
      Progress x.state x.live := by
  obtain ⟨hstart, n, C, F, U, hinv, hlive⟩ := Good.of_run m location hrun
  exact ⟨hstart, ⟨n, C, F, hinv.heapOk hlive⟩, hinv.progress hlive⟩

theorem heap_ok_of_run_first_alloc :
    ∃ s', c4aAlloc (c4aHeapInit ⟨fun _ => 0, fun _ => false⟩ 0x10000) 12 = some (0x10014, s') ∧
      (∃ n C F, HeapOk s' [(0x10014, 12)] n C F) ∧ Progress s' [(0x10014, 12)] := by
  have hptr : (c4aAlloc (c4aHeapInit ⟨fun _ => 0, fun _ => false⟩ 0x10000) 12).map Prod.fst =
      some 0x10014 := by decide +kernel
  obtain ⟨⟨p, s'⟩, hrun, hp⟩ := Option.map_eq_some_iff.1 hptr
  obtain rfl : p = 0x10014 := hp
  exact ⟨s', hrun, (heap_ok_of_run _ 0x10000 (.single (.alloc (by decide) hrun))).2⟩

end C4OS.C4alloc
