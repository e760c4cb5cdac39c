import C4OS.C4alloc.Blocks
import Mathlib.Data.Nat.Log

/-!
# Allocation

`c4a_alloc` and the functions it calls. A request takes a block from the list of its bucket, or one
from a higher bucket that `c4a_bucket_spillover` splits down to the right size, or a new chunk
(`Inv.grow`). In each case the block that `c4a_get_node_from_bucket` returns is loose and of the
right bucket (`Inv.getNode`), and it is the only loose one.

A heap that cannot grow any further below the end of the address space has no block to return: then
the functions read the null pointer, as they do in a heap that starts there.
-/

namespace C4OS.C4alloc

open Foundations

variable {s s' : State} {m : Mem} {n i : ℕ} {a b t : Ptr} {C F F' : ℕ → List Ptr}
  {loose loose' : Ptr → Prop} {U : Ptr → ℕ → Prop}

namespace Inv

theorem congr_loose (h : Inv s n C F loose U) (hl : ∀ b, loose' b ↔ loose b) :
    Inv s n C F loose' U := by
  obtain rfl : loose' = loose := funext fun b => propext (hl b)
  exact h

/-! ## Popping -/

theorem pop_nil (h : Inv s n C F loose U) (hi : i ≤ c4aMaxBuckets) (hF : F i = []) :
    c4aBucketPop s i = some (0, s) := by
  have hhead : s.heap.buckets i = 0 := by rw [h.lists.head i hi, hF, List.headD_nil]
  refine run_bind (Heap.bucket_eq hi) ?_
  rw [hhead]
  rfl

/-- The first block of a list becomes loose. -/
theorem pop_cons (h : Inv s n C F loose U) (hi : i ≤ c4aMaxBuckets) {l : List Ptr}
    (hF : F i = a :: l) :
    ∃ s' nxt prv, c4aBucketPop s i = some (a, s') ∧ Relinked s s' (Block n C) nxt prv ∧
      nxt a = 0 ∧ prv a = 0 ∧ (s'.mem.node a).bucket.toNat = i ∧ KeepsFree s s' ∧
      Inv s' n C (fun j => (F j).erase a) (fun b => loose b ∨ b = a) U := by
  have ha : a ∈ F i := by simp [hF]
  obtain ⟨hB, -, -, hbk⟩ := (h.lists.mem_iff i hi a).1 ha
  have hhead : s.heap.buckets i = a := by rw [h.lists.head i hi, hF, List.headD_cons]
  obtain ⟨s', nxt, prv, hrun, hrel, hn, hp, -, hfree, hinv⟩ := h.unlink_free hi ha
  refine ⟨s', nxt, prv, run_bind (Heap.bucket_eq hi) ?_, hrel, hn, hp, ?_, hfree, hinv⟩
  · rw [hhead, if_pos (h.phys.ne_zero hB)]
    exact run_bind hrun rfl
  · rw [hrel.node a hB, hbk]

/-! ## Growing -/

/-- The node of a new chunk. -/
abbrev freshNode : Node := ⟨0, 0, 0, 0, c4aStatusFree, UInt16.ofNat c4aMaxBuckets⟩

theorem toNat_grow {h : Heap} (hpages : h.pages.toNat = 4 * n) :
    (h.start + h.pages * pageSize).toNat = (h.start.toNat + 16384 * n) % 2 ^ 32 := by
  rw [UInt32.toNat_add, UInt32.toNat_mul, hpages]
  show (h.start.toNat + 4 * n * 4096 % 2 ^ 32) % 2 ^ 32 = _
  omega

theorem toNat_pages {h : Heap} (hpages : h.pages.toNat = 4 * n) (hn : 16384 * n < 2 ^ 32) :
    (h.pages + chunkPages).toNat = 4 * (n + 1) := by
  rw [UInt32.toNat_add, hpages]
  show (4 * n + 4) % 2 ^ 32 = _
  omega

theorem requestPagesMap_mapped {c : ℕ} : (m.requestPagesMap t chunkPages).mapped c = true ↔
    m.mapped c = true ∨ t.toNat ≤ c ∧ c < t.toNat + 16384 := by
  show (m.mapped c || decide (t.toNat ≤ c ∧ c < t.toNat + 16384)) = true ↔ _
  simp

/-- The blocks with a new chunk. -/
theorem block_grow :
    Block (n + 1) (fun j => if j = n then [t] else C j) b ↔ Block n C b ∨ b = t := by
  constructor
  · rintro ⟨j, hj, hb⟩
    simp only at hb
    split at hb
    · exact .inr (List.mem_singleton.1 hb)
    · exact .inl ⟨j, by omega, hb⟩
  · rintro (⟨j, hj, hb⟩ | rfl)
    · refine ⟨j, by omega, ?_⟩
      simp only [if_neg (by omega : j ≠ n), hb]
    · exact ⟨n, by omega, by simp⟩

/-- The nodes of the heap and the new one, before it is written. -/
theorem nodes_grow (hP : Phys s n C) (hpos : 0 < s.heap.start.toNat)
    (ht : t.toNat = s.heap.start.toNat + 16384 * n) :
    Nodes (s.mem.requestPagesMap t chunkPages)
      (Block (n + 1) fun j => if j = n then [t] else C j) := by
  have hacc : ∀ b, Block n C b → (s.mem.requestPagesMap t chunkPages).accessible b = true := by
    intro b hb
    have := hP.nodes.accessible b hb
    simp only [Mem.accessible, Bool.and_eq_true, List.all_eq_true, List.mem_range] at this ⊢
    exact ⟨this.1, fun i hi => requestPagesMap_mapped.2 (.inl (this.2 i hi))⟩
  refine (Nodes.insert ⟨hacc, hP.nodes.apart⟩ ?_ fun b hb => ?_).subset fun b => block_grow.1
  · simp only [Mem.accessible, Bool.and_eq_true, bne_iff_ne, List.all_eq_true, List.mem_range]
    refine ⟨?_, fun i (hi : i < 20) => requestPagesMap_mapped.2 (.inr (by omega))⟩
    rintro rfl
    rw [UInt32.toNat_zero] at ht
    omega
  · have h₁ := hP.block_bounds hb
    have h₂ := hP.le_size hb
    omega

/-- The chunks with a new one. -/
theorem phys_grow (hP : Phys s n C) (hpos : 0 < s.heap.start.toNat)
    (hroom : s.heap.start.toNat + 16384 * (n + 1) < 2 ^ 32)
    (ht : t.toNat = s.heap.start.toNat + 16384 * n)
    (hmap : ∀ c, m.mapped c = true ↔
      s.mem.mapped c = true ∨ t.toNat ≤ c ∧ c < t.toNat + 16384)
    (hnode_t : m.node t = freshNode) (hkeep : ∀ b, Block n C b → m.node b = s.mem.node b) :
    Phys ⟨{ s.heap with pages := s.heap.pages + chunkPages }, m⟩ (n + 1)
      (fun j => if j = n then [t] else C j) := by
  have hmem : ∀ j < n + 1, j ≠ n → ∀ b ∈ C j, m.node b = s.mem.node b := fun j hj hjn b hb =>
    hkeep b ⟨j, by omega, hb⟩
  refine ⟨toNat_pages hP.pages (by omega), .inr hpos, Nat.le_of_lt hroom, fun c h₁ h₂ => ?_,
    fun j hj => ?_, fun j hj => ?_, fun b hb => ?_⟩
  · rw [hmap]
    by_cases hc : c < s.heap.start.toNat + 16384 * n
    · exact .inl (hP.mapped c h₁ hc)
    · exact .inr (by simp only at h₂; omega)
  · split
    · next hjn =>
      have hsize : m.size t = 16384 := by
        rw [Mem.size, hnode_t]
        rfl
      subst hjn
      refine ⟨ht, ?_, ?_⟩
      · rw [hsize]
        decide
      · rw [hsize, tiles_nil]
        omega
    · next hjn =>
      refine (hP.tiles j (by omega)).congr_size fun b hb => ?_
      rw [Mem.size, hmem j hj hjn b hb, Mem.size]
  · split
    · simp [hnode_t]
    · next hjn =>
      refine (hP.links j (by omega)).congr (fun b hb => ?_) fun b hb => ?_
      · simp only [hmem j hj hjn b hb]
      · simp only [hmem j hj hjn b hb]
  · rcases block_grow.1 hb with hb | rfl
    · simp only [hkeep b hb]
      exact hP.five_le b hb
    · simp only [hnode_t]
      decide

/-- A heap with a new chunk, which is one loose block. -/
theorem grow_chunk (h : Inv s n C F loose U) (hpos : 0 < s.heap.start.toNat)
    (hroom : s.heap.start.toNat + 16384 * (n + 1) < 2 ^ 32)
    (ht : t.toNat = s.heap.start.toNat + 16384 * n) :
    Inv ⟨{ s.heap with pages := s.heap.pages + chunkPages },
        (s.mem.requestPagesMap t chunkPages).update t fun _ => freshNode⟩ (n + 1)
      (fun j => if j = n then [t] else C j) F (fun b => loose b ∨ b = t) U := by
  have hP := h.phys
  have hN := nodes_grow hP hpos ht
  have htB : ¬ Block n C t := fun hb => by
    have h₁ := hP.block_bounds hb
    have h₂ := hP.le_size hb
    omega
  have hnode_t : ((s.mem.requestPagesMap t chunkPages).update t fun _ => freshNode).node t =
      freshNode := by
    rw [hN.node_update (block_grow.2 (.inr rfl)) (block_grow.2 (.inr rfl)), if_pos rfl]
  have hkeep : ∀ b, Block n C b →
      ((s.mem.requestPagesMap t chunkPages).update t fun _ => freshNode).node b = s.mem.node b := by
    intro b hb
    rw [hN.node_update (block_grow.2 (.inr rfl)) (block_grow.2 (.inl hb)),
      if_neg fun he : b = t => htB (he ▸ hb)]
    rfl
  have hmap : ∀ c, _ ↔ _ := fun c => requestPagesMap_mapped (m := s.mem) (t := t) (c := c)
  rw [← Mem.mapped_update (a := t) (f := fun _ => freshNode)] at hmap
  generalize (s.mem.requestPagesMap t chunkPages).update t (fun _ => freshNode) = m at *
  have hP' := phys_grow hP hpos hroom ht hmap hnode_t hkeep
  refine h.of_loose hP' rfl (fun b => ?_) (fun b hb _ => ?_) ?_
  · rw [block_grow]
    constructor
    · rintro ⟨hb | hb, hl⟩
      · exact ⟨hb, fun h => hl (.inl h)⟩
      · exact absurd (.inr hb) hl
    · rintro ⟨hb, hl⟩
      exact ⟨.inl hb, fun h' => h'.elim hl fun he => htB (he ▸ hb)⟩
  · simp only [hkeep b hb, and_self]
  · rintro b (hl | rfl)
    · obtain ⟨hb, hst⟩ := h.loose_free b hl
      exact ⟨block_grow.2 (.inl hb), by simp only [hkeep b hb, hst]⟩
    · exact ⟨block_grow.2 (.inr rfl), by simp only [hnode_t]⟩

/-- `c4a_grow` adds a chunk to the highest bucket. -/
theorem grow (h : Inv s n C F loose U) (hpos : 0 < s.heap.start.toNat)
    (hroom : s.heap.start.toNat + 16384 * (n + 1) < 2 ^ 32)
    (hl : ∀ b, loose b → False) :
    ∃ t s', c4aGrow s = some s' ∧ KeepsFree s s' ∧
      (∀ b, Block n C b → s'.mem.cell b = s.mem.cell b) ∧
      Inv s' (n + 1) (fun j => if j = n then [t] else C j)
        (fun j => if j = c4aMaxBuckets then t :: F j else F j) loose U := by
  have hpages := h.phys.pages
  have ht := toNat_grow hpages
  have hstop := toNat_grow (h := { s.heap with pages := s.heap.pages + chunkPages })
    (toNat_pages hpages (by omega))
  rw [Nat.mod_eq_of_lt (by omega)] at ht
  simp only at hstop
  rw [Nat.mod_eq_of_lt (by omega)] at hstop
  -- the loop has one turn, for the chunk at the end of the heap
  have hinv := h.grow_chunk hpos hroom ht
  have hN := nodes_grow h.phys hpos ht
  generalize htemp : s.heap.start + s.heap.pages * pageSize = t at *
  have hnode_t : ((s.mem.requestPagesMap t chunkPages).update t fun _ => freshNode).node t =
      freshNode := by
    rw [hN.node_update (block_grow.2 (.inr rfl)) (block_grow.2 (.inr rfl)), if_pos rfl]
  obtain ⟨s', nxt, prv, hins, hrel, hfree, hinv'⟩ := hinv.insert (.inr rfl) (i := c4aMaxBuckets)
    (by simp only [hnode_t]; rfl)
  have hfresh : KeepsFree s ⟨{ s.heap with pages := s.heap.pages + chunkPages },
      (s.mem.requestPagesMap t chunkPages).update t fun _ => freshNode⟩ := by
    have hkeeps : StaysFree (s.heap.start.toNat % 32) (s.mem.requestPagesMap t chunkPages)
        ((s.mem.requestPagesMap t chunkPages).update t fun _ => freshNode) :=
      .update (by omega) fun _ _ => rfl
    exact ⟨rfl, fun q hq hfreeq => hkeeps q hq hfreeq⟩
  refine ⟨t, s', ?_, hfresh.trans hfree, fun b hb => ?_, hinv'.congr_loose fun b => ?_⟩
  · simp only [c4aGrow, htemp]
    generalize hst : s.heap.start + (s.heap.pages + chunkPages) * pageSize = stop at *
    have hlt : t < stop := by
      rw [UInt32.lt_iff_toNat_lt]
      omega
    have heq : t + chunkPages * pageSize = stop := by
      rw [← UInt32.toNat_inj, UInt32.toNat_add]
      show (t.toNat + 16384) % 2 ^ 32 = _
      omega
    rw [c4aGrowLoop, if_pos hlt]
    refine run_bind (hN.modify (block_grow.2 (.inr rfl))) <| run_bind hins ?_
    rw [heq, c4aGrowLoop, if_neg (UInt32.lt_irrefl stop)]
    rfl
  · have hbt : b ≠ t := by
      rintro rfl
      have h₁ := h.phys.block_bounds hb
      have h₂ := h.phys.le_size hb
      omega
    rw [hrel.cell (block_grow.2 (.inl hb)), Mem.cell,
      hN.node_update (block_grow.2 (.inr rfl)) (block_grow.2 (.inl hb)), if_neg hbt]
    rfl
  · constructor
    · exact fun hb => (hl b hb).elim
    · rintro ⟨hb | hb, hbt⟩
      · exact hb
      · exact absurd hb hbt

/-- No chunk fits below the end of the address space, or the heap starts at the null pointer. -/
theorem grow_blocked (h : Inv s n C F loose U)
    (hno : ¬ (0 < s.heap.start.toNat ∧ s.heap.start.toNat + 16384 * (n + 1) < 2 ^ 32)) :
    c4aGrow s = none ∨
      c4aGrow s = some ⟨{ s.heap with pages := s.heap.pages + chunkPages }, s.mem⟩ := by
  have hpages := h.phys.pages
  have hfits := h.phys.fits
  have hpos := h.phys.start_pos
  have ht := toNat_grow hpages
  have hstop := toNat_grow (h := { s.heap with pages := s.heap.pages + chunkPages })
    (toNat_pages hpages (by omega))
  simp only at hstop
  simp only [c4aGrow]
  generalize s.heap.start + s.heap.pages * pageSize = t at *
  generalize s.heap.start + (s.heap.pages + chunkPages) * pageSize = stop at *
  by_cases hlt : t < stop
  · refine .inl ?_
    have h₀ : t = 0 := by
      rw [UInt32.lt_iff_toNat_lt] at hlt
      rw [← UInt32.toNat_inj, UInt32.toNat_zero]
      omega
    rw [c4aGrowLoop, if_pos hlt, h₀]
    rfl
  · refine .inr ?_
    rw [c4aGrowLoop, if_neg hlt]
    rfl

/-! ## Finding a block -/

/-- The bucket that is found is the first one with a block. -/
theorem findLoop_some {h : Heap} {k : ℕ} : ∀ {j l : ℕ}, findLoop h j l = some k →
    l ≤ k ∧ k < l + j ∧ h.buckets k ≠ 0 ∧ ∀ i, l ≤ i → i < k → h.buckets i = 0
  | 0, _, hf => by cases hf
  | j + 1, l, hf => by
    rw [findLoop] at hf
    split at hf
    · next hne =>
      obtain rfl := Option.some.inj hf
      exact ⟨Nat.le_refl _, by omega, hne, fun i h₁ h₂ => absurd h₁ (Nat.not_le_of_gt h₂)⟩
    · next h₀ =>
      obtain ⟨h₁, h₂, h₃, h₄⟩ := findLoop_some hf
      refine ⟨by omega, by omega, h₃, fun i hi hik => ?_⟩
      by_cases hil : i = l
      · rw [hil]
        exact not_not.1 h₀
      · exact h₄ i (by omega) hik

theorem findLoop_none {h : Heap} {k : ℕ} : ∀ {j l : ℕ}, findLoop h j l = none →
    l ≤ k → k < l + j → h.buckets k = 0
  | 0, _, _, _, _ => by omega
  | j + 1, l, hf, h₁, h₂ => by
    rw [findLoop] at hf
    split at hf
    · cases hf
    · next h₀ =>
      by_cases hkl : k = l
      · rw [hkl]
        exact not_not.1 h₀
      · exact findLoop_none hf (by omega) (by omega)

/-! ## Spilling over -/

/-- Splitting a loose block down to a lower bucket. -/
theorem spilloverLoop_spec {lower k : ℕ} {xs : List Ptr} (hlow : 5 ≤ lower) (hk : k < n) :
    ∀ {upper : ℕ} {s : State} {C F : ℕ → List Ptr} {ys : List Ptr}, Inv s n C F loose U →
      loose a → C k = xs ++ a :: ys → (s.mem.node a).bucket.toNat = upper → lower ≤ upper →
      ∃ s' ts F', spilloverLoop lower a upper s = some s' ∧ KeepsFree s s' ∧
        Inv s' n (fun j => if j = k then xs ++ a :: (ts ++ ys) else C j) F' loose U ∧
        (s'.mem.node a).bucket.toNat = lower ∧
        ts.map s'.mem.cell = (List.range' lower (upper - lower)).map (⟨·, true⟩) ∧
        ∀ b, Block n C b → b ≠ a → s'.mem.cell b = s.mem.cell b
  | 0, _, _, _, _, _, _, _, _, hle => by omega
  | upper + 1, s, C, F, ys, h, ha, hC, hbk, hle => by
    rw [spilloverLoop]
    split
    · next hgt =>
      obtain ⟨t, m', hsplit, hlt, hba, hbt, hkeep, hfree, hinv⟩ := h.split ha hk hC hbk (by omega)
      obtain ⟨s₁, nxt, prv, hins, hrel, hfree₁, hinv₁⟩ := hinv.insert (.inr rfl) hbt
      have hinv₂ : Inv s₁ n _ _ loose U := hinv₁.congr_loose fun b => by
        constructor
        · exact fun hb => ⟨.inl hb, fun he => hlt (he ▸ hb)⟩
        · rintro ⟨hb | hb, hne⟩
          · exact hb
          · exact absurd hb hne
      have hBa := (hinv.loose_free a (.inl ha)).1
      have hBt := (hinv.loose_free t (.inr rfl)).1
      have hta : t ≠ a := fun he => hlt (he ▸ ha)
      have hba₁ : (s₁.mem.node a).bucket.toNat = upper := by
        rw [hrel.node a hBa]
        exact hba
      obtain ⟨s', ts, F', hrun, hfree', hinv', hb', hts, hkeep'⟩ :=
        spilloverLoop_spec hlow hk hinv₂ ha (if_pos rfl) hba₁ (by omega)
      refine ⟨s', ts ++ [t], F', run_bind hsplit (run_bind hins hrun),
        (hfree.trans hfree₁).trans hfree', ?_, hb', ?_, fun b hb hne => ?_⟩
      · convert hinv' using 1
        funext j
        split
        · rw [List.append_assoc, List.singleton_append]
        · rfl
      · -- the new block is the last of the row that is cut off
        have hcell : s'.mem.cell t = ⟨upper, true⟩ := by
          rw [hkeep' t hBt hta, hrel.cell hBt, hinv.cell_loose (.inr rfl) hbt]
        rw [List.map_append, hts, List.map_singleton, hcell, Nat.succ_sub (by omega),
          List.range'_1_concat, List.map_append, List.map_singleton]
        congr 3
        omega
      · have hB' := (block_insertAfter (t := t) hk hC).2 (.inl hb)
        rw [hkeep' b hB' hne, hrel.cell hB', hkeep b hb hne]
    · next hgt =>
      obtain rfl : lower = upper + 1 := by omega
      refine ⟨s, [], F, rfl, .refl s, ?_, hbk, by simp, fun b _ _ => rfl⟩
      convert h using 1
      funext j
      split
      · next hj => rw [hj, hC, List.nil_append]
      · rfl

/-- The chunks of two heaps, the second with the block `a` cut down from the bucket `upper` to the
bucket `lower`. -/
inductive Carved (m m' : Mem) (n : ℕ) (C C' : ℕ → List Ptr) (a : Ptr) (lower upper : ℕ) : Prop
  | intro {k : ℕ} {xs ts ys : List Ptr} (hk : k < n) (hC : C k = xs ++ a :: ys)
      (hC' : C' = fun j => if j = k then xs ++ a :: (ts ++ ys) else C j)
      (hold : m.cell a = ⟨upper, true⟩)
      (hts : ts.map m'.cell = (List.range' lower (upper - lower)).map (⟨·, true⟩))
      (hkeep : ∀ b, Block n C b → b ≠ a → m'.cell b = m.cell b)

/-- The rows of the chunks, once the block that is cut down is used. -/
theorem Carved.rows_eq {lower upper : ℕ} {C' : ℕ → List Ptr} {m' m'' : Mem}
    (h : Carved m m' n C C' a lower upper) (hP : Phys s n C) (hP' : Phys s' n C')
    (hused : m''.cell a = ⟨lower, false⟩)
    (hsame : ∀ b, Block n C' b → b ≠ a → m''.cell b = m'.cell b) :
    ∃ k xs ys, k < n ∧ C k = xs ++ a :: ys ∧ m.cell a = ⟨upper, true⟩ ∧ ∀ j < n, rows m'' C' j =
      if j = k then xs.map m.cell ++ carved lower upper ++ ys.map m.cell else rows m C j := by
  obtain @⟨k, xs, ts, ys, hk, hC, rfl, hold, hts, hkeep⟩ := h
  have hcells : ∀ l : List Ptr, (∀ b ∈ l, b ∈ xs ++ (ts ++ ys)) →
      l.map m''.cell = l.map m'.cell := fun l hl => by
    refine List.map_congr_left fun b hb => ?_
    obtain ⟨hB, hne⟩ := mem_chunk hP' hk (if_pos rfl) (hl b hb)
    exact hsame b hB hne
  have hother : ∀ l : List Ptr, (∀ b ∈ l, b ∈ xs ++ ys) → l.map m'.cell = l.map m.cell :=
    fun l hl => by
      refine List.map_congr_left fun b hb => ?_
      obtain ⟨hB, hne⟩ := mem_chunk hP hk hC (hl b hb)
      exact hkeep b hB hne
  refine ⟨k, xs, ys, hk, hC, hold, fun j hj => ?_⟩
  rw [rows]
  split
  · rw [List.map_append, List.map_cons, List.map_append, hused,
      hcells xs fun b hb => by simp [hb], hcells ts fun b hb => by simp [hb],
      hcells ys fun b hb => by simp [hb], hother xs fun b hb => by simp [hb],
      hother ys fun b hb => by simp [hb], hts]
    simp [carved]
  · next hjk =>
    refine List.map_congr_left fun b hb => ?_
    have hne : b ≠ a := by
      rintro rfl
      exact hjk (hP.eq_of_mem hj hk hb (by simp [hC]))
    rw [hsame b ⟨j, hj, by simpa only [if_neg hjk] using hb⟩ hne, hkeep b ⟨j, hj, hb⟩ hne]

/-- Changes to the lists leave the cells as they are. -/
theorem Carved.relinked {lower upper : ℕ} {C' : ℕ → List Ptr} {nxt prv : Ptr → Ptr}
    (h : Carved m s.mem n C C' a lower upper) (hrel : Relinked s s' (Block n C') nxt prv) :
    Carved m s'.mem n C C' a lower upper := by
  obtain @⟨k, xs, ts, ys, hk, hC, rfl, hold, hts, hkeep⟩ := h
  have hts' : ts.map s'.mem.cell = ts.map s.mem.cell := by
    refine List.map_congr_left fun b hb => hrel.cell ⟨k, hk, ?_⟩
    simp [hb]
  refine .intro hk hC rfl hold (hts'.trans hts) fun b hb hne => ?_
  rw [hrel.cell, hkeep b hb hne]
  obtain ⟨j, hj, hbj⟩ := hb
  refine ⟨j, hj, ?_⟩
  simp only
  split
  · next hjk =>
    rw [hjk, hC] at hbj
    simp only [List.mem_append, List.mem_cons] at hbj ⊢
    tauto
  · exact hbj

/-- The free blocks of a heap without loose ones are in the lists. -/
theorem exists_mem_list {c : Cell} {j : ℕ} (h : Inv s n C F (fun _ => False) U) (hj : j < n)
    (hc : c ∈ rows s.mem C j) (hfree : c.free = true) : F c.bucket ≠ [] := by
  obtain ⟨b, hb, rfl⟩ := List.mem_map.1 hc
  have hB : Block n C b := ⟨j, hj, hb⟩
  refine List.ne_nil_of_mem ((h.lists.mem_iff _ (h.phys.bucket_le hB) b).2 ⟨hB, id, ?_, rfl⟩)
  exact of_decide_eq_true hfree

theorem bucket_le_of_mem {c : Cell} {j : ℕ} (h : Inv s n C F loose U) (hj : j < n)
    (hc : c ∈ rows s.mem C j) : c.bucket ≤ c4aMaxBuckets := by
  obtain ⟨b, hb, rfl⟩ := List.mem_map.1 hc
  exact h.phys.bucket_le ⟨j, hj, hb⟩

theorem list_eq_nil (h : Inv s n C F loose U) (hi : i ≤ c4aMaxBuckets)
    (h₀ : s.heap.buckets i = 0) : F i = [] := by
  have hz := h.lists.zero_notMem h.phys.nodes hi
  rw [h.lists.head i hi] at h₀
  cases hF : F i with
  | nil => rfl
  | cons a l =>
    rw [hF, List.headD_cons] at h₀
    rw [hF, h₀] at hz
    exact absurd List.mem_cons_self hz

/-- The rows after a new chunk is cut down. -/
theorem Carved.rows_grow {lower upper : ℕ} {C' : ℕ → List Ptr} {m' m'' : Mem}
    (h : Carved s.mem m' (n + 1) (fun j => if j = n then [a] else C j) C' a lower upper)
    (hP : Phys s (n + 1) fun j => if j = n then [a] else C j) (hP' : Phys s' (n + 1) C')
    (hkeep : ∀ b, Block n C b → s.mem.cell b = m.cell b) (hused : m''.cell a = ⟨lower, false⟩)
    (hsame : ∀ b, Block (n + 1) C' b → b ≠ a → m''.cell b = m'.cell b) :
    ∀ j < n + 1, rows m'' C' j = if j = n then carved lower upper else rows m C j := by
  obtain ⟨k, xs, ys, hk, hC, -, hrows⟩ := h.rows_eq hP hP' hused hsame
  have hkn : k = n := by
    refine hP.eq_of_mem (a := a) hk (Nat.lt_succ_self n) ?_ ?_
    · rw [hC]
      simp
    · simp
  simp only [hkn, if_pos] at hC
  obtain ⟨rfl, rfl⟩ : xs = [] ∧ ys = [] := by
    cases xs <;> simp_all
  intro j hj
  rw [hrows j hj, hkn]
  split
  · simp
  · next hjn =>
    rw [rows, if_neg hjn, rows]
    exact List.map_congr_left fun b hb => hkeep b ⟨j, by omega, hb⟩

/-- A block that is cut down and used is the one that an allocation takes. -/
theorem allocRows {m'' : Mem} {C' : ℕ → List Ptr} {upper : ℕ} (h : Inv s n C F (fun _ => False) U)
    (hP' : Phys s' n C') (hc : Carved s.mem s'.mem n C C' a i upper) (hle : i ≤ upper)
    (hmin : ∀ j, i ≤ j → j < upper → F j = []) (hused : m''.cell a = ⟨i, false⟩)
    (hsame : ∀ b, Block n C' b → b ≠ a → m''.cell b = s'.mem.cell b) :
    AllocRows n (rows s.mem C) i n (rows m'' C') := by
  obtain ⟨k, xs, ys, hk, hC, hold, hrows⟩ := hc.rows_eq h.phys hP' hused hsame
  have hR : rows s.mem C k = xs.map s.mem.cell ++ ⟨upper, true⟩ :: ys.map s.mem.cell := by
    rw [rows, hC, List.map_append, List.map_cons, hold]
  refine .carve hk hle hR ?_ hrows
  intro j hj c hc hfree hi
  by_contra hlt
  exact h.exists_mem_list hj hc hfree (hmin _ hi (Nat.lt_of_not_le hlt))

/-- The lists after a block is split down: it is the first one of the lower list. -/
theorem spillover {lower upper : ℕ} {l : List Ptr} (h : Inv s n C F (fun _ => False) U)
    (hlow : 5 ≤ lower) (hle : lower ≤ upper) (hup : upper ≤ c4aMaxBuckets)
    (hF : F upper = a :: l) :
    ∃ s' C' F', c4aBucketSpillover s lower upper = some s' ∧ KeepsFree s s' ∧
      Inv s' n C' F' (fun _ => False) U ∧ (∃ l', F' lower = a :: l') ∧
      Carved s.mem s'.mem n C C' a lower upper := by
  obtain ⟨s₁, nxt, prv, hpop, hrel, -, -, hbk, hfree, hinv⟩ := h.pop_cons hup hF
  obtain ⟨hB, -⟩ := hinv.loose_free a (.inr rfl)
  obtain ⟨k, hk, hak⟩ := id hB
  obtain ⟨xs, ys, hC⟩ := List.append_of_mem hak
  obtain ⟨s₂, ts, F', hloop, hfree₂, hinv₂, hbk₂, hts, hkeep⟩ :=
    spilloverLoop_spec hlow hk hinv (.inr rfl) hC hbk hle
  obtain ⟨s₃, nxt', prv', hins, hrel', hfree₃, hinv₃⟩ := hinv₂.insert (.inr rfl) hbk₂
  have hcarved : Carved s.mem s₂.mem n C
      (fun j => if j = k then xs ++ a :: (ts ++ ys) else C j) a lower upper := by
    refine .intro hk hC rfl ?_ hts fun b hb hne => ?_
    · rw [← hrel.cell hB, hinv.cell_loose (.inr rfl) hbk]
    · rw [hkeep b hb hne, hrel.cell hb]
  refine ⟨s₃, _, _, run_bind hpop (run_bind hloop hins),
    (hfree.trans hfree₂).trans hfree₃, hinv₃.congr_loose fun b => ?_,
    ⟨F' lower, if_pos rfl⟩, hcarved.relinked hrel'⟩
  constructor
  · exact False.elim
  · rintro ⟨hb | hb, hne⟩
    · exact hb
    · exact hne hb

/-- There is nothing to split behind the null pointer. -/
theorem spillover_null {lower : ℕ} (hle : lower ≤ c4aMaxBuckets)
    (hnull : s.heap.buckets c4aMaxBuckets = 0) :
    c4aBucketSpillover s lower c4aMaxBuckets = none := by
  have hpop : c4aBucketPop s c4aMaxBuckets = some (0, s) := by
    refine run_bind (Heap.bucket_eq (Nat.le_refl _)) ?_
    rw [hnull]
    rfl
  rw [c4aBucketSpillover, hpop]
  show (spilloverLoop lower 0 c4aMaxBuckets s >>= fun s => c4aBucketInsert s lower 0) = none
  rw [spilloverLoop]
  split
  · rfl
  · next hgt =>
    obtain rfl : lower = c4aMaxBuckets := Nat.le_antisymm hle (Nat.le_of_not_gt hgt)
    show c4aBucketInsert s c4aMaxBuckets 0 = none
    rw [c4aBucketInsert, Heap.bucket_eq (Nat.le_refl _), hnull]
    rfl

/-- A block of a higher bucket is split down and taken. -/
theorem getNodeSpillover_spec {k : ℕ} {l : List Ptr} (h : Inv s n C F (fun _ => False) U)
    (hlow : 5 ≤ i) (hik : i ≤ k) (hk : k ≤ c4aMaxBuckets) (hF : F k = a :: l) :
    ∃ s' C' F', getNodeSpillover s i k = some (a, s') ∧ KeepsFree s s' ∧
      Inv s' n C' F' (· = a) U ∧ (s'.mem.node a).bucket.toNat = i ∧
      Carved s.mem s'.mem n C C' a i k := by
  have hi : i ≤ c4aMaxBuckets := Nat.le_trans hik hk
  obtain ⟨s₁, C₁, F₁, hspill, hfree₁, hinv₁, ⟨l', hF₁⟩, hcarved⟩ := h.spillover hlow hik hk hF
  obtain ⟨s₂, nxt, prv, hpop, hrel, hn, hp, hbk, hfree₂, hinv₂⟩ := hinv₁.pop_cons hi hF₁
  obtain ⟨hB, -⟩ := hinv₂.loose_free a (.inr rfl)
  -- the block is unlinked a second time, which changes nothing
  obtain ⟨s₃, hun, hrel₃, hL, hfree₃⟩ := unlink_loose hinv₂.phys.nodes hinv₂.lists hB (.inr rfl)
    (hbk ▸ hi) (by rw [hrel.node a hB, hn]) (by rw [hrel.node a hB, hp])
  have hinv₃ := hinv₂.relinked hrel₃ hL hinv₂.loose_free
  refine ⟨s₃, C₁, _, run_bind hspill (run_bind hpop (run_bind hun rfl)),
    (hfree₁.trans hfree₂).trans ⟨hrel₃.start, hfree₃ _ fun b => hinv₂.phys.grid⟩,
    hinv₃.congr_loose fun b => ?_, ?_,
    (hcarved.relinked hrel).relinked hrel₃⟩
  · exact (false_or (b = a)).symm.to_iff
  · rw [hrel₃.node a hB, hbk]

/-- A bucket with no block takes one of a higher bucket. -/
theorem getNode_nil (h : Inv s n C F loose U) (hi : i ≤ c4aMaxBuckets) (hF : F i = []) :
    c4aGetNodeFromBucket s i = (c4aFindUpwardsBucket s (i + 1) >>= fun x =>
      getNodeSpillover x.2 i x.1) := by
  rw [c4aGetNodeFromBucket, h.pop_nil hi hF]
  rfl

/-- No block is large enough, and the heap cannot grow. -/
theorem getNode_blocked (h : Inv s n C F loose U) (hi : i ≤ c4aMaxBuckets)
    (hempty : ∀ j, i ≤ j → j ≤ c4aMaxBuckets → F j = [])
    (hroom : ¬ (0 < s.heap.start.toNat ∧ s.heap.start.toNat + 16384 * (n + 1) < 2 ^ 32)) :
    c4aGetNodeFromBucket s i = none := by
  have hnull : s.heap.buckets c4aMaxBuckets = 0 := by
    rw [h.lists.head _ (Nat.le_refl _), hempty _ hi (Nat.le_refl _), List.headD_nil]
  have hfind : findLoop s.heap (c4aMaxBuckets + 1 - (i + 1)) (i + 1) = none := by
    cases hfind : findLoop s.heap (c4aMaxBuckets + 1 - (i + 1)) (i + 1) with
    | none => rfl
    | some k =>
      obtain ⟨h₁, h₂, hne, -⟩ := findLoop_some hfind
      have hk : k ≤ c4aMaxBuckets := by omega
      rw [h.lists.head k hk, hempty k (by omega) hk] at hne
      exact absurd rfl hne
  rw [h.getNode_nil hi (hempty i (Nat.le_refl _) hi), c4aFindUpwardsBucket, hfind]
  rcases h.grow_blocked hroom with hgrow | hgrow
  · simp only [hgrow, Option.bind_eq_bind, Option.bind_none]
  · have hspill : c4aBucketSpillover
        ⟨{ s.heap with pages := s.heap.pages + chunkPages }, s.mem⟩ i c4aMaxBuckets = none :=
      spillover_null hi hnull
    simp only [hgrow, Option.bind_eq_bind, Option.bind_some, Option.pure_def]
    rw [getNodeSpillover, hspill]
    rfl

/-- `c4a_get_node_from_bucket` returns a block of the bucket, unless the heap would have to grow and
cannot. -/
theorem getNode (h : Inv s n C F (fun _ => False) U) (hlow : 5 ≤ i) (hi : i ≤ c4aMaxBuckets) :
    (∃ a s' n' C' F', c4aGetNodeFromBucket s i = some (a, s') ∧ KeepsFree s s' ∧
      Inv s' n' C' F' (· = a) U ∧ (s'.mem.node a).bucket.toNat = i ∧
      ∀ m'', m''.cell a = ⟨i, false⟩ →
        (∀ b, Block n' C' b → b ≠ a → m''.cell b = s'.mem.cell b) →
        AllocRows n (rows s.mem C) i n' (rows m'' C')) ∨
    c4aGetNodeFromBucket s i = none ∧ (∀ j, i ≤ j → j ≤ c4aMaxBuckets → F j = []) ∧
      ¬ (0 < s.heap.start.toNat ∧ s.heap.start.toNat + 16384 * (n + 1) < 2 ^ 32) := by
  cases hF : F i with
  | cons a l =>
    obtain ⟨s', nxt, prv, hpop, hrel, -, -, hbk, hfree, hinv⟩ := h.pop_cons hi hF
    have hB := (hinv.loose_free a (.inr rfl)).1
    refine .inl ⟨a, s', n, C, _, run_bind hpop ?_, hfree, hinv.congr_loose fun b => ?_, hbk,
      fun m'' => ?_⟩
    · exact if_neg (hinv.phys.ne_zero hB)
    · exact (false_or (b = a)).symm.to_iff
    · obtain ⟨k, hk, hak⟩ := id hB
      obtain ⟨xs, ys, hC⟩ := List.append_of_mem hak
      have hC' : C = fun j => if j = k then xs ++ a :: ([] ++ ys) else C j := by
        funext j
        split
        · next hj => rw [hj, hC, List.nil_append]
        · rfl
      refine h.allocRows hinv.phys (.intro hk hC hC' ?_ ?_ fun b hb _ => hrel.cell hb)
        (Nat.le_refl i) fun j h₁ h₂ => absurd h₁ (Nat.not_le_of_gt h₂)
      · rw [← hrel.cell hB, hinv.cell_loose (.inr rfl) hbk]
      · simp
  | nil =>
    have hget := h.getNode_nil hi hF
    rw [c4aFindUpwardsBucket] at hget
    cases hfind : findLoop s.heap (c4aMaxBuckets + 1 - (i + 1)) (i + 1) with
    | some k =>
      rw [hfind] at hget
      obtain ⟨h₁, h₂, hne, hlower⟩ := findLoop_some hfind
      have hk : k ≤ c4aMaxBuckets := by omega
      rw [h.lists.head k hk] at hne
      have hFne : F k ≠ [] := fun hnil => hne (by rw [hnil]; rfl)
      obtain ⟨a, l, hFk⟩ := List.exists_cons_of_ne_nil hFne
      obtain ⟨s', C', F', hrun, hfree, hinv, hbk, hcarved⟩ :=
        h.getNodeSpillover_spec hlow (by omega) hk hFk
      refine .inl ⟨a, s', n, C', F', hget.trans hrun, hfree, hinv, hbk, fun m'' =>
        h.allocRows hinv.phys hcarved (by omega) fun j h₁ h₂ => ?_⟩
      by_cases hij : j = i
      · rw [hij, hF]
      · exact h.list_eq_nil (by omega) (hlower j (by omega) h₂)
    | none =>
      rw [hfind] at hget
      have hempty : ∀ j, i ≤ j → j ≤ c4aMaxBuckets → F j = [] := by
        intro j hij hj
        by_cases he : j = i
        · rw [he, hF]
        · exact h.list_eq_nil hj (findLoop_none hfind (by omega) (by omega))
      by_cases hroom : 0 < s.heap.start.toNat ∧ s.heap.start.toNat + 16384 * (n + 1) < 2 ^ 32
      · obtain ⟨t, s₁, hgrow, hfree₁, hkeep, hinv₁⟩ := h.grow hroom.1 hroom.2 fun _ => id
        obtain ⟨s', C', F', hrun, hfree, hinv, hbk, hcarved⟩ :=
          hinv₁.getNodeSpillover_spec hlow hi (Nat.le_refl _) (if_pos rfl)
        refine .inl ⟨t, s', n + 1, C', F', hget.trans (run_bind (run_bind hgrow rfl) hrun),
          hfree₁.trans hfree, hinv, hbk, fun m'' hused hsame => ?_⟩
        refine .grow (fun j hj c hc hfree => ?_)
          (hcarved.rows_grow hinv₁.phys hinv.phys hkeep hused hsame)
        by_contra hlt
        exact h.exists_mem_list hj hc hfree
          (hempty _ (Nat.le_of_not_lt hlt) (h.bucket_le_of_mem hj hc))
      · exact .inr ⟨h.getNode_blocked hi hempty hroom, hempty, hroom⟩

end Inv

/-! ## The bucket of a request -/

theorem ulog2Loop_eq : ∀ {k : ℕ} {n : UInt32} {i : ℕ}, n.toNat < 2 ^ (k + 1) →
    ulog2Loop k n i = i + n.toNat.log2
  | 0, n, i, hn => by
    rw [ulog2Loop, Nat.log2_def, if_neg (by omega)]
    rfl
  | k + 1, n, i, hn => by
    have hz : ∀ x : UInt32, x ≠ 0 ↔ x.toNat ≠ 0 := fun x => by
      rw [ne_eq, ← UInt32.toNat_inj, UInt32.toNat_zero]
    have hshift : (n >>> 1).toNat = n.toNat / 2 := by
      rw [UInt32.toNat_shiftRight]
      show n.toNat >>> 1 = _
      rw [Nat.shiftRight_eq_div_pow, Nat.pow_one]
    rw [ulog2Loop, Nat.log2_def]
    by_cases h₂ : 2 ≤ n.toNat
    · have hne : n ≠ 0 ∧ n >>> 1 ≠ 0 := by
        rw [hz, hz, hshift]
        omega
      rw [if_pos hne, if_pos h₂, ulog2Loop_eq, hshift]
      · omega
      · rw [hshift]
        omega
    · have hne : ¬ (n ≠ 0 ∧ n >>> 1 ≠ 0) := by
        rw [hz, hz, hshift]
        omega
      rw [if_neg hne, if_neg h₂, Nat.add_zero]

theorem ulog2_eq (n : UInt32) : ulog2 n = n.toNat.log2 := by
  rw [ulog2, ulog2Loop_eq (Nat.lt_trans n.toNat_lt (by decide)), Nat.zero_add]

/-- The bucket of a request is the lowest one whose blocks are large enough. -/
theorem allocIndex_eq {size : UInt32} (hsize : size.toNat + 20 < 2 ^ 32) :
    allocIndex size = Nat.clog 2 (size.toNat + 20) := by
  have hadj : (size + UInt32.ofNat nodeSize).toNat = size.toNat + 20 := by
    rw [UInt32.toNat_add]
    exact Nat.mod_eq_of_lt hsize
  have hne : size.toNat + 20 ≠ 0 := by omega
  have hlog : (size.toNat + 20).log2 < 32 := (Nat.log2_lt hne).2 hsize
  have hpow : (1 <<< UInt32.ofNat (size.toNat + 20).log2 : UInt32).toNat =
      2 ^ (size.toNat + 20).log2 := by
    have hof : (UInt32.ofNat (size.toNat + 20).log2).toNat = (size.toNat + 20).log2 :=
      UInt32.toNat_ofNat_of_lt' (Nat.lt_trans hlog (by decide))
    rw [UInt32.toNat_shiftLeft, hof, Nat.mod_eq_of_lt hlog, UInt32.toNat_one, Nat.one_shiftLeft,
      Nat.mod_eq_of_lt (Nat.pow_lt_pow_right (by decide) hlog)]
  have hle := Nat.log2_self_le hne
  have hlt := Nat.lt_log2_self (n := size.toNat + 20)
  simp only [allocIndex, ulog2_eq, hadj]
  split
  · next hd =>
    rw [ne_eq, ← UInt32.toNat_inj, hpow, hadj] at hd
    refine Nat.le_antisymm ?_ ((Nat.clog_le_iff_le_pow (by decide)).2 (Nat.le_of_lt hlt))
    exact (Nat.lt_clog_iff_pow_lt (by decide)).2 (by omega)
  · next hd =>
    rw [ne_eq, not_not, ← UInt32.toNat_inj, hpow, hadj] at hd
    rw [hd, Nat.log2_two_pow, Nat.clog_pow 2 _ (by decide)]

theorem five_le_allocIndex {size : UInt32} (hsize : size.toNat + 20 < 2 ^ 32) :
    5 ≤ allocIndex size := by
  rw [allocIndex_eq hsize]
  exact (Nat.lt_clog_iff_pow_lt (by decide)).2 (by omega)

theorem allocIndex_le_iff {size : UInt32} (hsize : size.toNat + 20 < 2 ^ 32) :
    allocIndex size ≤ i ↔ size.toNat + 20 ≤ 2 ^ i := by
  rw [allocIndex_eq hsize, Nat.clog_le_iff_le_pow (by decide)]

/-- **`c4a_alloc` returns the null pointer when the request is too large, and else a new block that
is large enough, unless the heap would have to grow and cannot.** -/
theorem Inv.alloc {size : UInt32} (h : Inv s n C F (fun _ => False) U)
    (hsize : size.toNat + 20 < 2 ^ 32) :
    (c4aAlloc s size = some (0, s) ∧ 2 ^ 14 < size.toNat + 20) ∨
    (∃ a s' n' C' F', c4aAlloc s size = some (a + UInt32.ofNat nodeSize, s') ∧
      s'.heap.start = s.heap.start ∧ (∀ j, ¬ U a j) ∧
      (∀ q : Ptr, q ≠ a → q.toNat % 32 = s.heap.start.toNat % 32 →
        (s.mem.node q).status = c4aStatusFree → (s'.mem.node q).status = c4aStatusFree) ∧
      (Inv s' n' C' F' (fun _ => False) fun b j => U b j ∨ b = a ∧ allocIndex size = j) ∧
      AllocRows n (rows s.mem C) (allocIndex size) n' (rows s'.mem C')) ∨
    c4aAlloc s size = none ∧ (∀ j, allocIndex size ≤ j → j ≤ c4aMaxBuckets → F j = []) ∧
      ¬ (0 < s.heap.start.toNat ∧ s.heap.start.toNat + 16384 * (n + 1) < 2 ^ 32) := by
  by_cases hbig : allocIndex size > c4aMaxBuckets
  · refine .inl ⟨if_pos hbig, Nat.lt_of_not_le fun hle => ?_⟩
    exact Nat.not_le_of_gt hbig ((allocIndex_le_iff hsize).2 hle)
  · refine .inr ?_
    rw [c4aAlloc, if_neg hbig]
    rcases h.getNode (five_le_allocIndex hsize) (Nat.le_of_not_gt hbig) with
      ⟨a, s', n', C', F', hrun, hfree, hinv, hbk, hrows⟩ | ⟨hrun, hempty, hroom⟩
    · obtain ⟨hB, hst⟩ := hinv.loose_free a rfl
      have hN := hinv.phys.nodes
      refine .inl ⟨a, _, n', C', F', run_bind hrun (run_bind (hN.modify hB) rfl),
        hfree.start, fun j hU => ?_, fun q hne hq hfreeq => ?_, ?_, hrows _ ?_ fun b hb hne => ?_⟩
      · exact Inv.used_ne_free (((hinv.used a j).1 hU).2.1.symm.trans hst)
      · have ha := hinv.phys.grid hB
        rw [hfree.start] at ha
        rw [StaysFree.node_update_of_ne ha hq hne]
        exact hfree.free q hq hfreeq
      · rw [← hbk]
        exact hinv.use rfl |>.congr_loose fun b => ⟨False.elim, fun hb => hb.2 hb.1⟩
      · rw [Mem.cell, hN.node_update hB hB, if_pos rfl, hbk, decide_eq_false Inv.used_ne_free]
      · rw [Mem.cell, hN.node_update hB hb, if_neg hne, Mem.cell]
    · exact .inr ⟨by rw [hrun]; rfl, hempty, hroom⟩

end C4OS.C4alloc
