import C4OS.C4alloc.Runs

/-!
# Coalescing

Which blocks are joined in a run of the heap. The rows of the chunks are separated in every run
(`Good.separated_of_run`), so that `c4a_can_coalesce` is false for every block and the one behind it
(`no_mergeable_neighbours`).

A chunk need not come together again when all of its blocks are freed. `c4a_can_coalesce` compares
no more than the buckets of two neighbours, and joins the second half of a block with the first half
of the next one just as well: of four quarters of a chunk, the two in the middle may be joined
first, and the outer two are then left alone (`quarters_not_whole`). It does come together when no
step of the run starts from a heap in which such blocks have been joined, which is to say that every
block starts at a multiple of its size (`chunks_whole_of_aligned_run`).
-/

namespace C4OS.C4alloc

open Foundations Relation

variable {s : State} {n : ℕ} {C F : ℕ → List Ptr} {U : Ptr → ℕ → Prop} {x : Program}
  {live : List (Ptr × UInt32)}

/-! ## Neighbours -/

/-- The heap in a run, with the rows of its chunks separated. -/
theorem separated_of_run {m : Mem} {location : Ptr}
    (hrun : ReflTransGen Step ⟨c4aHeapInit m location, []⟩ x) :
    ∃ n C F U, Inv x.state n C F (fun _ => False) U ∧ Live U x.live ∧
      ∀ k < n, Separated (rows x.state.mem C k) := by
  induction hrun with
  | refl =>
    obtain ⟨-, n, C, F, U, hinv, hlive⟩ := good_init m location
    have hn : n = 0 := by
      have hpages := hinv.phys.pages
      have h₀ : (c4aHeapInit m location).heap.pages.toNat = 0 := rfl
      simp only [h₀] at hpages
      omega
    exact ⟨n, C, F, U, hinv, hlive, fun k hk => absurd hk (by omega)⟩
  | tail _ hstep ih =>
    obtain ⟨n, C, F, U, hinv, hlive, hsep⟩ := ih
    obtain ⟨-, n', C', F', U', hinv', hlive', hrows⟩ := hinv.step hlive hstep
    exact ⟨n', C', F', U', hinv', hlive', hrows.separated hsep⟩

/-- **No neighbours that could be joined are left behind.** In every state of a run no two blocks
next to each other in a chunk are both free and in the same bucket, and `c4a_can_coalesce` is false
for every block and the one that `phys_next` leads to. -/
theorem no_mergeable_neighbours (m : Mem) (location : Ptr) {x : Program}
    (hrun : ReflTransGen Step ⟨c4aHeapInit m location, []⟩ x) :
    ∃ n C F, HeapOk x.state x.live n C F ∧
      (∀ k < n, ∀ xs a b ys, C k = xs ++ a :: b :: ys →
        ¬ ((x.state.mem.node a).status = c4aStatusFree ∧
          (x.state.mem.node b).status = c4aStatusFree ∧
          (x.state.mem.node a).bucket = (x.state.mem.node b).bucket)) ∧
      ∀ k < n, ∀ a ∈ C k,
        c4aCanCoalesce x.state.mem a (x.state.mem.node a).physNext = some false := by
  obtain ⟨n, C, F, U, hinv, hlive, hsep⟩ := separated_of_run hrun
  have hpair : ∀ k < n, ∀ xs a b ys, C k = xs ++ a :: b :: ys →
      ¬ ((x.state.mem.node a).status = c4aStatusFree ∧
        (x.state.mem.node b).status = c4aStatusFree ∧
        (x.state.mem.node a).bucket = (x.state.mem.node b).bucket) := by
    rintro k hk xs a b ys hC ⟨ha, hb, hbk⟩
    have hrow := hsep k hk
    rw [Separated, rows, hC, List.map_append, List.map_cons, List.map_cons,
      List.isChain_append, List.isChain_cons_cons] at hrow
    refine hrow.2.1.1 (decide_eq_true ha) (decide_eq_true hb) ?_
    exact congrArg UInt16.toNat hbk
  refine ⟨n, C, F, hinv.heapOk hlive, hpair, fun k hk a ha => ?_⟩
  by_cases h₀ : (x.state.mem.node a).physNext = 0
  · rw [c4aCanCoalesce, if_pos (.inr h₀)]
  · obtain ⟨xs, ys, hC⟩ := (hinv.phys.links k hk).exists_behind ha h₀
    rw [hinv.c4aCanCoalesce_eq ⟨k, hk, ha⟩ ⟨k, hk, by rw [hC]; simp⟩,
      decide_eq_false (hpair k hk xs a _ ys hC)]

theorem no_mergeable_neighbours_first_alloc :
    ∃ s', c4aAlloc (c4aHeapInit ⟨fun _ => 0, fun _ => false⟩ 0x10000) 12 = some (0x10014, s') ∧
      ∃ n C F, HeapOk s' [(0x10014, 12)] n C F ∧
        ∀ k < n, ∀ a ∈ C k, c4aCanCoalesce s'.mem a (s'.mem.node a).physNext = some false := by
  have hptr : (c4aAlloc (c4aHeapInit ⟨fun _ => 0, fun _ => false⟩ 0x10000) 12).map Prod.fst =
      some 0x10014 := by decide +kernel
  obtain ⟨⟨p, s'⟩, hrun, hp⟩ := Option.map_eq_some_iff.1 hptr
  obtain rfl : p = 0x10014 := hp
  obtain ⟨n, C, F, hok, -, hcan⟩ :=
    no_mergeable_neighbours _ 0x10000 (.single (.alloc (by decide) hrun))
  exact ⟨s', hrun, n, C, F, hok, hcan⟩

/-! ## Whole chunks -/

/-- Every chunk is one free block of the highest bucket, and if there is a chunk, every request that
a chunk is large enough for is met without a new one. -/
def ChunksWhole (s : State) (live : List (Ptr × UInt32)) : Prop :=
  ∃ n C F, HeapOk s live n C F ∧
    (∀ k < n, ∃ a, C k = [a] ∧ (s.mem.node a).status = c4aStatusFree ∧
      (s.mem.node a).bucket.toNat = c4aMaxBuckets) ∧
    (0 < n → ∀ size : UInt32, size.toNat + nodeSize ≤ 2 ^ c4aMaxBuckets →
      ∃ p s', c4aAlloc s size = some (p, s') ∧ p ≠ 0 ∧ s'.heap.pages = s.heap.pages)

/-- Every block of the heap starts at a multiple of its size in its chunk. -/
def BlocksAligned (x : Program) : Prop :=
  ∀ n C F, HeapOk x.state x.live n C F → ∀ k < n, ∀ a ∈ C k,
    x.state.mem.size a ∣ a.toNat - (x.state.heap.start.toNat + 16384 * k)

/-- A step from a heap whose blocks start at multiples of their sizes. -/
def AlignedStep (x y : Program) : Prop := BlocksAligned x ∧ Step x y

/-- The buckets of the blocks that tile a chunk. -/
theorem Tiles.aligned {m : Mem} {base o e : ℕ} {l : List Ptr}
    (h : Tiles UInt32.toNat m.size (base + o) l e) (hal : ∀ a ∈ l, m.size a ∣ a.toNat - base) :
    Aligned o (buckets (l.map m.cell)) ∧ base + o + extent (buckets (l.map m.cell)) = e := by
  induction l generalizing o with
  | nil => exact ⟨trivial, h⟩
  | cons a l ih =>
    obtain ⟨ha, -, hl⟩ := h
    have hdvd := hal a List.mem_cons_self
    rw [ha, Nat.add_sub_cancel_left] at hdvd
    rw [Nat.add_assoc] at hl
    obtain ⟨h₁, h₂⟩ := ih hl fun b hb => hal b (List.mem_cons_of_mem _ hb)
    refine ⟨⟨hdvd, h₁⟩, ?_⟩
    have hext : extent (buckets ((a :: l).map m.cell)) =
        m.size a + extent (buckets (l.map m.cell)) := extent_cons _ _
    rw [hext]
    omega

/-- A heap in which every row is one free cell of the highest bucket. -/
theorem Inv.chunksWhole (h : Inv s n C F (fun _ => False) U) (hlive : Live U live)
    (hrows : ∀ k < n, rows s.mem C k = [⟨c4aMaxBuckets, true⟩]) : ChunksWhole s live := by
  refine ⟨n, C, F, h.heapOk hlive, fun k hk => ?_, fun hn size hsize => ?_⟩
  · obtain ⟨a, hC, hcell⟩ := List.map_eq_singleton_iff.1 (hrows k hk)
    exact ⟨a, hC, of_decide_eq_true (congrArg Cell.free hcell), congrArg Cell.bucket hcell⟩
  · have hsize' : size.toNat + 20 ≤ 16384 := hsize
    have hlt : size.toNat + 20 < 2 ^ 32 := by omega
    have hle : allocIndex size ≤ c4aMaxBuckets := (allocIndex_le_iff hlt).2 hsize'
    have hmem : ⟨c4aMaxBuckets, true⟩ ∈ rows s.mem C 0 := by
      rw [hrows 0 hn]
      exact List.mem_singleton_self _
    rcases h.alloc hlt with
      ⟨-, hbig⟩ | ⟨a, s', n', C', F', hrun, -, -, -, hinv', hrows'⟩ | ⟨-, he, -⟩
    · exact absurd hbig (Nat.not_lt_of_le hsize')
    · have hB := ((hinv'.used a _).1 (.inr ⟨rfl, rfl⟩)).1
      refine ⟨_, s', hrun, ?_, ?_⟩
      · rw [ne_eq, ← UInt32.toNat_inj, toNat_payload hinv'.phys hB, UInt32.toNat_zero]
        omega
      · rw [← UInt32.toNat_inj, hinv'.phys.pages, h.phys.pages]
        cases hrows' with
        | carve => rfl
        | grow hnone => exact absurd (hnone 0 hn _ hmem rfl) (Nat.not_lt_of_le hle)
    · exact absurd (he _ hle (Nat.le_refl _)) (h.exists_mem_list hn hmem rfl)

/-- Without pointers in use all cells are free. -/
theorem Inv.allFree {k : ℕ} (h : Inv s n C F (fun _ => False) U) (hlive : Live U [])
    (hk : k < n) : AllFree (rows s.mem C k) := by
  intro c hc
  obtain ⟨a, ha, rfl⟩ := List.mem_map.1 hc
  have hB : Block n C a := ⟨k, hk, ha⟩
  rcases h.status a hB with hfree | hused
  · exact decide_eq_true hfree
  · obtain ⟨size, hmem⟩ := hlive.mem_of_used a _ ((h.used a _).2 ⟨hB, hused, rfl⟩)
    exact absurd hmem List.not_mem_nil

/-- **The chunks come together again in aligned runs.** When every step of a run starts from a heap
in which each block starts at a multiple of its size, and all pointers are freed at the end, every
chunk is one free block of the highest bucket. -/
theorem chunks_whole_of_aligned_run (m : Mem) (location : Ptr) {x : Program}
    (hrun : ReflTransGen AlignedStep ⟨c4aHeapInit m location, []⟩ x) (hlive : x.live = []) :
    ChunksWhole x.state [] := by
  cases hrun with
  | refl =>
    obtain ⟨n, C, F, U, hinv, hU, -⟩ :=
      separated_of_run (.refl (a := (⟨c4aHeapInit m location, []⟩ : Program)))
    refine hinv.chunksWhole hU fun k hk => absurd hk ?_
    have hpages : 0 = 4 * n := hinv.phys.pages
    omega
  | @tail y _ hrun hstep =>
    obtain ⟨hal, hstep⟩ := hstep
    obtain ⟨n, C, F, U, hinv, hU, hsep⟩ := separated_of_run
      (ReflTransGen.mono (fun _ _ h => h.2) _ _ hrun)
    obtain ⟨-, n', C', F', U', hinv', hU', hrows⟩ := hinv.step hU hstep
    rw [hlive] at hU'
    have halign : ∀ k < n, Aligned 0 (buckets (rows y.state.mem C k)) ∧
        extent (buckets (rows y.state.mem C k)) = 2 ^ c4aMaxBuckets := by
      intro k hk
      have htiles : Tiles UInt32.toNat y.state.mem.size
          (y.state.heap.start.toNat + 16384 * k + 0) (C k) _ := hinv.phys.tiles k hk
      obtain ⟨h₁, h₂⟩ := Tiles.aligned htiles (hal n C F (hinv.heapOk hU) k hk)
      have hext : extent (buckets (rows y.state.mem C k)) = 16384 := by
        rw [rows]
        omega
      exact ⟨h₁, hext⟩
    refine hinv'.chunksWhole hU' (hrows.eq_singleton hsep (fun k hk => (halign k hk).1)
      (fun k hk => (halign k hk).2) fun k hk => hinv'.allFree hU' hk)

/-- One chunk, with blocks at these places that start at multiples of their sizes. -/
def AlignedBlocks (s : State) (l : List Ptr) : Prop :=
  s.heap.pages.toNat = 4 ∧
    Tiles UInt32.toNat s.mem.size s.heap.start.toNat l (s.heap.start.toNat + 16384) ∧
    ∀ a ∈ l, s.mem.size a ∣ a.toNat - s.heap.start.toNat

instance (s : State) (l : List Ptr) : Decidable (AlignedBlocks s l) :=
  -- over the list, not over all words
  have : Decidable (∀ a ∈ l, s.mem.size a ∣ a.toNat - s.heap.start.toNat) :=
    List.decidableBAll _ l
  inferInstanceAs (Decidable (_ ∧ _ ∧ _))

theorem AlignedBlocks.blocksAligned {s : State} {l : List Ptr} (h : AlignedBlocks s l)
    (live : List (Ptr × UInt32)) : BlocksAligned ⟨s, live⟩ := by
  obtain ⟨hpages, htiles, hdvd⟩ := h
  intro n C F hok k hk a ha
  obtain rfl : k = 0 := by
    have := hok.pages
    simp only at this
    omega
  have hC : C 0 = l := (hok.tiles 0 hk).unique htiles fun _ _ => UInt32.toNat_inj.1
  rw [hC] at ha
  exact hdvd a ha

/-- A quarter, a half and a quarter of a chunk are allocated, and freed from the half on. -/
def halves : Option (List Ptr × List State) := do
  let (p₀, s₁) ← c4aAlloc (c4aHeapInit ⟨fun _ => 0, fun _ => false⟩ 0x10000) 4076
  let (p₁, s₂) ← c4aAlloc s₁ 8172
  let (p₂, s₃) ← c4aAlloc s₂ 4076
  let s₄ ← c4aFree s₃ p₁
  let s₅ ← c4aFree s₄ p₀
  let s₆ ← c4aFree s₅ p₂
  return ([p₀, p₁, p₂], [s₁, s₂, s₃, s₄, s₅, s₆])

theorem halves_eq : halves.map (fun r =>
    (r.1, r.2.dropLast.all fun s => decide (AlignedBlocks s [0x10000, 0x11000, 0x12000]))) =
      some ([0x10014, 0x12014, 0x11014], true) := by decide +kernel

/-- The blocks of this run come together, the two quarters first. -/
theorem chunks_whole_of_aligned_run_halves : ∃ ps ss s, halves = some (ps, ss ++ [s]) ∧
    ps = [0x10014, 0x12014, 0x11014] ∧ ChunksWhole s [] := by
  obtain ⟨⟨ps, ss⟩, hrun, he⟩ := Option.map_eq_some_iff.1 halves_eq
  have hrun' := hrun
  simp only [halves, Option.bind_eq_bind, Option.bind_eq_some_iff, Option.pure_def,
    Option.some.injEq, Prod.mk.injEq, Prod.exists] at hrun
  obtain ⟨p₀, s₁, h₁, p₁, s₂, h₂, p₂, s₃, h₃, s₄, h₄, s₅, h₅, s₆, h₆, rfl, rfl⟩ := hrun
  obtain ⟨hps, hal⟩ := Prod.mk.inj he
  simp only [List.cons.injEq, and_true] at hps
  obtain ⟨rfl, rfl, rfl⟩ := hps
  have hal : ∀ s ∈ [s₁, s₂, s₃, s₄, s₅], AlignedBlocks s [0x10000, 0x11000, 0x12000] :=
    fun s hs => of_decide_eq_true (List.all_eq_true.1 hal s hs)
  have hinit : BlocksAligned ⟨c4aHeapInit ⟨fun _ => 0, fun _ => false⟩ 0x10000, []⟩ := by
    intro n C F h k hk
    have hn : 0 = 4 * n := h.pages
    omega
  have hsteps : ReflTransGen AlignedStep ⟨c4aHeapInit ⟨fun _ => 0, fun _ => false⟩ 0x10000, []⟩
      ⟨s₆, []⟩ := by
    refine .head ⟨hinit, .alloc (by decide) h₁⟩ <|
      .head ⟨(hal s₁ (by simp)).blocksAligned _, .alloc (by decide) h₂⟩ <|
      .head ⟨(hal s₂ (by simp)).blocksAligned _, .alloc (by decide) h₃⟩ <|
      .head ⟨(hal s₃ (by simp)).blocksAligned _, .free (?_ : (_, (8172 : UInt32)) ∈ _) h₄⟩ <|
      .head ⟨(hal s₄ (by simp)).blocksAligned _, .free (?_ : (_, (4076 : UInt32)) ∈ _) h₅⟩ <|
      .head ⟨(hal s₅ (by simp)).blocksAligned _, .free (?_ : (_, (4076 : UInt32)) ∈ _) h₆⟩ ?_
    · decide
    · decide
    · decide
    · exact .refl
  exact ⟨_, [s₁, s₂, s₃, s₄, s₅], s₆, hrun', rfl,
    chunks_whole_of_aligned_run _ 0x10000 hsteps rfl⟩

/-- Four quarters of a chunk are allocated, and the two in the middle are freed first. -/
def quarters : Option (List Ptr × State) := do
  let (p₀, s) ← c4aAlloc (c4aHeapInit ⟨fun _ => 0, fun _ => false⟩ 0x10000) 4076
  let (p₁, s) ← c4aAlloc s 4076
  let (p₂, s) ← c4aAlloc s 4076
  let (p₃, s) ← c4aAlloc s 4076
  let s ← c4aFree s p₁
  let s ← c4aFree s p₂
  let s ← c4aFree s p₀
  let s ← c4aFree s p₃
  return ([p₀, p₁, p₂, p₃], s)

theorem quarters_eq : quarters.map
    (fun r => (r.1, r.2.heap.start, r.2.heap.pages, (r.2.mem.node 0x10000).bucket)) =
      some ([0x10014, 0x11014, 0x12014, 0x13014], 0x10000, 4, 12) := by decide +kernel

/-- In this run the blocks in the middle are joined with each other, and the chunk does not come
together. -/
theorem quarters_not_whole :
    ¬ ∀ (m : Mem) (location : Ptr) (x : Program),
      ReflTransGen Step ⟨c4aHeapInit m location, []⟩ x → x.live = [] →
      ChunksWhole x.state x.live := by
  intro hwhole
  obtain ⟨⟨l, s⟩, hrun, he⟩ := Option.map_eq_some_iff.1 quarters_eq
  simp only [Prod.mk.injEq] at he
  obtain ⟨rfl, hstart, hpages, hbk⟩ := he
  simp only [quarters, Option.bind_eq_bind, Option.bind_eq_some_iff, Option.pure_def,
    Option.some.injEq, Prod.mk.injEq, Prod.exists, List.cons.injEq, and_true] at hrun
  obtain ⟨_, s₁, h₁, _, s₂, h₂, _, s₃, h₃, _, s₄, h₄, s₅, h₅, s₆, h₆, s₇, h₇, s₈, h₈,
    ⟨rfl, rfl, rfl, rfl⟩, rfl⟩ := hrun
  have hsize : (4076 : UInt32).toNat < 2 ^ 32 - nodeSize := by decide
  have hsteps : ReflTransGen Step ⟨c4aHeapInit ⟨fun _ => 0, fun _ => false⟩ 0x10000, []⟩
      ⟨s₈, []⟩ := by
    refine .head (.alloc hsize h₁) <| .head (.alloc hsize h₂) <| .head (.alloc hsize h₃) <|
      .head (.alloc hsize h₄) <| .head (.free (?_ : (_, (4076 : UInt32)) ∈ _) h₅) <|
      .head (.free (?_ : (_, (4076 : UInt32)) ∈ _) h₆) <|
      .head (.free (?_ : (_, (4076 : UInt32)) ∈ _) h₇) <|
      .head (.free (?_ : (_, (4076 : UInt32)) ∈ _) h₈) ?_
    · decide
    · decide
    · decide
    · decide
    · exact .refl
  -- the block at the start of the chunk is a quarter of it
  obtain ⟨n, C, F, hok, hone, -⟩ := hwhole _ _ _ hsteps rfl
  have hn : 4 = 4 * n := by
    rw [← hok.pages, hpages]
    rfl
  obtain ⟨a, hC, -, hbka⟩ := hone 0 (by omega)
  have htiles := hok.tiles 0 (by omega)
  rw [hC, tiles_cons, hstart] at htiles
  obtain rfl : a = 0x10000 := UInt32.toNat_inj.1 htiles.1
  rw [hbk] at hbka
  exact absurd hbka (by decide)

end C4OS.C4alloc
