import C4OS.C4alloc.Nodes
import C4OS.C4alloc.Rows
import C4OS.Foundations.Links
import C4OS.Foundations.Tiling

/-!
# The layout of a heap

The two structures that the nodes of a heap are in. `Phys s n C` says that the `n` chunks of the
heap are tiled by their blocks, chunk `k` by those in `C k`, and that these blocks are linked in
both directions by `phys_next` and `phys_prev`. `Lists s B loose F` says that the list of bucket `i`
is `F i`, linked in both directions by `next` and `previous`, and that it has the free blocks of the
bucket. A block is *loose* between the moment it is taken from its list and the moment it is used or
put back; no block is loose between two calls of the interface.

The changes a function makes to the links of a list are stated with `Relinked`, which leaves all
other fields of the blocks as they are.
-/

namespace C4OS.C4alloc

open Foundations

/-- The size of a block, its node included. -/
def Mem.size (m : Mem) (a : Ptr) : ℕ := 2 ^ (m.node a).bucket.toNat

/-- The cell of a block. -/
def Mem.cell (m : Mem) (a : Ptr) : Cell :=
  ⟨(m.node a).bucket.toNat, decide ((m.node a).status = c4aStatusFree)⟩

/-- The chunks as rows of cells. -/
def rows (m : Mem) (C : ℕ → List Ptr) (k : ℕ) : List Cell := (C k).map m.cell

/-- The blocks of the first `n` chunks. -/
def Block (n : ℕ) (C : ℕ → List Ptr) (a : Ptr) : Prop := ∃ k < n, a ∈ C k

/-- The blocks of a heap with `n` chunks. -/
structure Phys (s : State) (n : ℕ) (C : ℕ → List Ptr) : Prop where
  pages : s.heap.pages.toNat = 4 * n
  start_pos : n = 0 ∨ 0 < s.heap.start.toNat
  fits : s.heap.start.toNat + 16384 * n ≤ 2 ^ 32
  mapped : ∀ c, s.heap.start.toNat ≤ c → c < s.heap.start.toNat + 16384 * n → s.mem.mapped c = true
  tiles : ∀ k < n, Tiles UInt32.toNat s.mem.size (s.heap.start.toNat + 16384 * k) (C k)
    (s.heap.start.toNat + 16384 * (k + 1))
  links : ∀ k < n,
    Seg (fun a => (s.mem.node a).physNext) (fun a => (s.mem.node a).physPrev) 0 (C k) 0
  five_le : ∀ a, Block n C a → 5 ≤ (s.mem.node a).bucket.toNat

/-- The lists of free blocks. -/
structure Lists (s : State) (B loose : Ptr → Prop) (F : ℕ → List Ptr) : Prop where
  head : ∀ i ≤ c4aMaxBuckets, s.heap.buckets i = (F i).headD 0
  links : ∀ i ≤ c4aMaxBuckets,
    Seg (fun a => (s.mem.node a).next) (fun a => (s.mem.node a).previous) 0 (F i) 0
  nodup : ∀ i ≤ c4aMaxBuckets, (F i).Nodup
  mem_iff : ∀ i ≤ c4aMaxBuckets, ∀ a, a ∈ F i ↔ B a ∧ ¬ loose a ∧
    (s.mem.node a).status = c4aStatusFree ∧ (s.mem.node a).bucket.toNat = i

variable {s s' : State} {m : Mem} {n i : ℕ} {a b t : Ptr} {C F : ℕ → List Ptr}
  {B loose : Ptr → Prop}

theorem two_pow_bucket {b : ℕ} (h : 5 ≤ b) : 32 ≤ 2 ^ b :=
  Nat.pow_le_pow_right (i := 5) Nat.two_pos h

/-! ## Blocks -/

namespace Phys

/-- A block is inside its chunk. -/
theorem bounds (h : Phys s n C) {k : ℕ} (hk : k < n) (ha : a ∈ C k) :
    s.heap.start.toNat + 16384 * k ≤ a.toNat ∧
      a.toNat + s.mem.size a ≤ s.heap.start.toNat + 16384 * (k + 1) := by
  obtain ⟨h₁, h₂, -⟩ := (h.tiles k hk).bounds ha
  exact ⟨h₁, h₂⟩

theorem le_size (h : Phys s n C) (ha : Block n C a) : 32 ≤ s.mem.size a :=
  two_pow_bucket (h.five_le a ha)

theorem bucket_le (h : Phys s n C) (ha : Block n C a) :
    (s.mem.node a).bucket.toNat ≤ c4aMaxBuckets := by
  obtain ⟨k, hk, hak⟩ := ha
  have hb := h.bounds hk hak
  have hsize : s.mem.size a ≤ 2 ^ c4aMaxBuckets := by
    show _ ≤ 16384
    omega
  exact (Nat.pow_le_pow_iff_right (by decide)).1 hsize

/-- Blocks do not overlap. -/
theorem disjoint (h : Phys s n C) (ha : Block n C a) (hb : Block n C b) (hne : a ≠ b) :
    a.toNat + s.mem.size a ≤ b.toNat ∨ b.toNat + s.mem.size b ≤ a.toNat := by
  obtain ⟨k, hk, hak⟩ := ha
  obtain ⟨j, hj, hbj⟩ := hb
  have h₁ := h.bounds hk hak
  have h₂ := h.bounds hj hbj
  rcases Nat.lt_trichotomy k j with hkj | rfl | hjk
  · omega
  · exact (h.tiles k hk).disjoint hak hbj hne
  · omega

theorem block_bounds (h : Phys s n C) (ha : Block n C a) :
    s.heap.start.toNat ≤ a.toNat ∧ a.toNat + s.mem.size a ≤ s.heap.start.toNat + 16384 * n := by
  obtain ⟨k, hk, hak⟩ := ha
  have := h.bounds hk hak
  omega

theorem mapped_block (h : Phys s n C) (ha : Block n C a) {c : ℕ} (h₁ : a.toNat ≤ c)
    (h₂ : c < a.toNat + s.mem.size a) : s.mem.mapped c = true := by
  have := h.block_bounds ha
  exact h.mapped c (by omega) (by omega)

/-- The blocks lie on a grid, since their sizes are multiples of its distance. -/
theorem grid (h : Phys s n C) (ha : Block n C a) :
    a.toNat % 32 = s.heap.start.toNat % 32 := by
  obtain ⟨k, hk, hak⟩ := ha
  have hsize : ∀ b ∈ C k, 32 ∣ s.mem.size b := fun b hb =>
    Nat.pow_dvd_pow 2 (h.five_le b ⟨k, hk, hb⟩)
  have hmod := (h.tiles k hk).mod_eq hsize hak
  omega

theorem ne_zero (h : Phys s n C) (ha : Block n C a) : a ≠ 0 := by
  rintro rfl
  have hb := h.block_bounds ha
  obtain ⟨k, hk, -⟩ := ha
  have := h.start_pos
  rw [UInt32.toNat_zero] at hb
  omega

/-- There is room for a node at every place of a block that is not too close to its end. -/
theorem accessible (h : Phys s n C) (ha : Block n C a) (h₁ : a.toNat ≤ t.toNat)
    (h₂ : t.toNat + 20 ≤ a.toNat + s.mem.size a) : s.mem.accessible t = true := by
  simp only [Mem.accessible, Bool.and_eq_true, bne_iff_ne, List.all_eq_true, List.mem_range]
  refine ⟨?_, fun i (hi : i < 20) => h.mapped_block ha (by omega) (by omega)⟩
  rintro rfl
  refine h.ne_zero ha (UInt32.toNat_inj.1 ?_)
  rw [UInt32.toNat_zero] at h₁ ⊢
  omega

theorem nodes (h : Phys s n C) : Nodes s.mem (Block n C) where
  accessible a ha := by
    have hsize := h.le_size ha
    exact h.accessible ha (Nat.le_refl _) (by omega)
  apart a b ha hb hne := by
    have h₁ := h.disjoint ha hb hne
    have h₂ := h.le_size ha
    have h₃ := h.le_size hb
    omega

/-- The physical layout depends on the buckets and the physical links of the blocks alone. -/
theorem frame (h : Phys s n C) (hstart : s'.heap.start = s.heap.start)
    (hpages : s'.heap.pages = s.heap.pages) (hmap : s'.mem.mapped = s.mem.mapped)
    (hnode : ∀ a, Block n C a → (s'.mem.node a).bucket = (s.mem.node a).bucket ∧
      (s'.mem.node a).physNext = (s.mem.node a).physNext ∧
      (s'.mem.node a).physPrev = (s.mem.node a).physPrev) : Phys s' n C where
  pages := by rw [hpages, h.pages]
  start_pos := by rw [hstart]; exact h.start_pos
  fits := by rw [hstart]; exact h.fits
  mapped := by rw [hstart, hmap]; exact h.mapped
  tiles k hk := by
    rw [hstart]
    refine (h.tiles k hk).congr (List.map_congr_left fun a ha => ?_)
    rw [Mem.size, Mem.size, (hnode a ⟨k, hk, ha⟩).1]
  links k hk := (h.links k hk).congr (fun a ha => (hnode a ⟨k, hk, ha⟩).2.1)
    fun a ha => (hnode a ⟨k, hk, ha⟩).2.2
  five_le a ha := by rw [(hnode a ha).1]; exact h.five_le a ha

/-- A block is in one chunk only. -/
theorem eq_of_mem (h : Phys s n C) {j k : ℕ} (hj : j < n) (hk : k < n) (haj : a ∈ C j)
    (hak : a ∈ C k) : j = k := by
  have h₁ := h.bounds hj haj
  have h₂ := h.bounds hk hak
  have h₃ := h.le_size ⟨j, hj, haj⟩
  omega

/-- The blocks of one chunk change. -/
theorem setChunk (h : Phys s n C) {k : ℕ} (hk : k < n) {l : List Ptr} (hheap : s'.heap = s.heap)
    (hmap : s'.mem.mapped = s.mem.mapped)
    (htiles : Tiles UInt32.toNat s'.mem.size (s.heap.start.toNat + 16384 * k) l
      (s.heap.start.toNat + 16384 * (k + 1)))
    (hlinks : Seg (fun a => (s'.mem.node a).physNext) (fun a => (s'.mem.node a).physPrev) 0 l 0)
    (hfive : ∀ a ∈ l, 5 ≤ (s'.mem.node a).bucket.toNat)
    (hnode : ∀ a, Block n C a → a ∉ C k → (s'.mem.node a).bucket = (s.mem.node a).bucket ∧
      (s'.mem.node a).physNext = (s.mem.node a).physNext ∧
      (s'.mem.node a).physPrev = (s.mem.node a).physPrev) :
    Phys s' n (fun j => if j = k then l else C j) := by
  have hother : ∀ j < n, j ≠ k → ∀ a ∈ C j, (s'.mem.node a).bucket = (s.mem.node a).bucket ∧
      (s'.mem.node a).physNext = (s.mem.node a).physNext ∧
      (s'.mem.node a).physPrev = (s.mem.node a).physPrev := fun j hj hjk a ha =>
    hnode a ⟨j, hj, ha⟩ fun hak => hjk (h.eq_of_mem hj hk ha hak)
  refine ⟨hheap ▸ h.pages, hheap ▸ h.start_pos, hheap ▸ h.fits, ?_, fun j hj => ?_, fun j hj => ?_,
    fun a ha => ?_⟩
  · rw [hheap, hmap]
    exact h.mapped
  · rw [hheap]
    split
    · next hjk => exact hjk ▸ htiles
    · next hjk =>
      refine (h.tiles j hj).congr (List.map_congr_left fun a ha => ?_)
      rw [Mem.size, Mem.size, (hother j hj hjk a ha).1]
  · split
    · exact hlinks
    · next hjk =>
      exact (h.links j hj).congr (fun a ha => (hother j hj hjk a ha).2.1)
        fun a ha => (hother j hj hjk a ha).2.2
  · obtain ⟨j, hj, haj⟩ := ha
    simp only at haj
    split at haj
    · exact hfive a haj
    · next hjk =>
      rw [(hother j hj hjk a haj).1]
      exact h.five_le a ⟨j, hj, haj⟩

end Phys

/-! ## Lists -/

namespace Lists

theorem block_of_mem (h : Lists s B loose F) (hi : i ≤ c4aMaxBuckets) (ha : a ∈ F i) : B a :=
  ((h.mem_iff i hi a).1 ha).1

/-- A block is in one list only. -/
theorem eq_of_mem (h : Lists s B loose F) {j : ℕ} (hi : i ≤ c4aMaxBuckets) (hj : j ≤ c4aMaxBuckets)
    (hai : a ∈ F i) (haj : a ∈ F j) : i = j := by
  rw [← ((h.mem_iff i hi a).1 hai).2.2.2, ((h.mem_iff j hj a).1 haj).2.2.2]

theorem zero_notMem (h : Lists s B loose F) (hN : Nodes s.mem B) (hi : i ≤ c4aMaxBuckets) :
    0 ∉ F i := fun h₀ => hN.ne_zero (h.block_of_mem hi h₀) rfl

/-- The lists depend on the links and buckets of the blocks in them alone. -/
theorem frame {B' loose' : Ptr → Prop} (h : Lists s B loose F)
    (hheap : s'.heap.buckets = s.heap.buckets)
    (hfree : ∀ a, B' a ∧ ¬ loose' a ∧ (s'.mem.node a).status = c4aStatusFree ↔
      B a ∧ ¬ loose a ∧ (s.mem.node a).status = c4aStatusFree)
    (hnode : ∀ a, B a → ¬ loose a → (s.mem.node a).status = c4aStatusFree →
      (s'.mem.node a).bucket = (s.mem.node a).bucket ∧
      (s'.mem.node a).next = (s.mem.node a).next ∧
      (s'.mem.node a).previous = (s.mem.node a).previous) : Lists s' B' loose' F := by
  have hmem : ∀ i ≤ c4aMaxBuckets, ∀ a ∈ F i, (s'.mem.node a).bucket = (s.mem.node a).bucket ∧
      (s'.mem.node a).next = (s.mem.node a).next ∧
      (s'.mem.node a).previous = (s.mem.node a).previous := fun i hi a ha => by
    obtain ⟨h₁, h₂, h₃, -⟩ := (h.mem_iff i hi a).1 ha
    exact hnode a h₁ h₂ h₃
  refine ⟨fun i hi => hheap ▸ h.head i hi, fun i hi => ?_, h.nodup, fun i hi a => ?_⟩
  · exact (h.links i hi).congr (fun a ha => (hmem i hi a ha).2.1) fun a ha => (hmem i hi a ha).2.2
  · rw [h.mem_iff i hi]
    constructor
    · rintro ⟨h₁, h₂, h₃, h₄⟩
      obtain ⟨h₅, h₆, h₇⟩ := (hfree a).2 ⟨h₁, h₂, h₃⟩
      exact ⟨h₅, h₆, h₇, (hnode a h₁ h₂ h₃).1 ▸ h₄⟩
    · rintro ⟨h₁, h₂, h₃, h₄⟩
      obtain ⟨h₅, h₆, h₇⟩ := (hfree a).1 ⟨h₁, h₂, h₃⟩
      exact ⟨h₅, h₆, h₇, (hnode a h₅ h₆ h₇).1 ▸ h₄⟩

end Lists

/-- Only the lists differ: the other fields of the blocks, the chunks and the memory that is mapped
are the same. -/
structure Relinked (s s' : State) (B : Ptr → Prop) (nxt prv : Ptr → Ptr) : Prop where
  start : s'.heap.start = s.heap.start
  pages : s'.heap.pages = s.heap.pages
  mapped : s'.mem.mapped = s.mem.mapped
  node : ∀ a, B a → s'.mem.node a = { s.mem.node a with next := nxt a, previous := prv a }

/-- The heap stays at its address, and the free nodes on its grid stay free. -/
structure KeepsFree (s s' : State) : Prop where
  start : s'.heap.start = s.heap.start
  free : StaysFree (s.heap.start.toNat % 32) s.mem s'.mem

theorem KeepsFree.refl (s : State) : KeepsFree s s := ⟨rfl, .refl _ _⟩

theorem KeepsFree.trans {s'' : State} (h₁ : KeepsFree s s') (h₂ : KeepsFree s' s'') :
    KeepsFree s s'' :=
  ⟨h₂.start.trans h₁.start, h₁.free.trans (h₁.start ▸ h₂.free)⟩

theorem Relinked.cell {nxt prv : Ptr → Ptr} (h : Relinked s s' B nxt prv) (ha : B a) :
    s'.mem.cell a = s.mem.cell a := by
  rw [Mem.cell, h.node a ha]
  rfl

theorem Relinked.phys {nxt prv : Ptr → Ptr} (h : Relinked s s' (Block n C) nxt prv)
    (hP : Phys s n C) : Phys s' n C := by
  refine hP.frame h.start h.pages h.mapped fun a ha => ?_
  rw [h.node a ha]
  exact ⟨rfl, rfl, rfl⟩

end C4OS.C4alloc
