import C4OS.C4alloc.Buckets

/-!
# Splitting and joining blocks

The invariant of a heap (`Inv`) and the steps that the functions of the interface are made of. Each
step takes a heap with the invariant to one with it: a free block is unlinked (`Inv.unlink_free`), a
loose one is inserted (`Inv.insert`), split in two (`Inv.split`), joined with a loose block behind
it (`Inv.join`) or marked as used (`Inv.use`), and a used one is marked as free (`Inv.release`).

`U a b` stands for a used block at `a` in bucket `b`. Only the last two steps change it.
-/

namespace C4OS.C4alloc

open Foundations

/-- A heap with chunks `C`, lists `F` and used blocks `U`. -/
structure Inv (s : State) (n : ℕ) (C F : ℕ → List Ptr) (loose : Ptr → Prop) (U : Ptr → ℕ → Prop) :
    Prop where
  phys : Phys s n C
  lists : Lists s (Block n C) loose F
  loose_free : ∀ a, loose a → Block n C a ∧ (s.mem.node a).status = c4aStatusFree
  status : ∀ a, Block n C a →
    (s.mem.node a).status = c4aStatusFree ∨ (s.mem.node a).status = c4aStatusUsed
  used : ∀ a b, U a b ↔
    Block n C a ∧ (s.mem.node a).status = c4aStatusUsed ∧ (s.mem.node a).bucket.toNat = b

variable {s s' : State} {m : Mem} {n i : ℕ} {a b t : Ptr} {C F F' : ℕ → List Ptr}
  {loose loose' : Ptr → Prop} {U : Ptr → ℕ → Prop}

namespace Inv

theorem relinked (h : Inv s n C F loose U) {nxt prv : Ptr → Ptr}
    (hrel : Relinked s s' (Block n C) nxt prv) (hL : Lists s' (Block n C) loose' F')
    (hloose : ∀ a, loose' a → Block n C a ∧ (s.mem.node a).status = c4aStatusFree) :
    Inv s' n C F' loose' U := by
  refine ⟨hrel.phys h.phys, hL, fun a ha => ?_, fun a ha => ?_, fun a b => ?_⟩
  · rw [hrel.node a (hloose a ha).1]
    exact hloose a ha
  · rw [hrel.node a ha]
    exact h.status a ha
  · rw [h.used]
    exact and_congr_right fun ha => by rw [hrel.node a ha]

theorem cell_loose (h : Inv s n C F loose U) (ha : loose a)
    (hbk : (s.mem.node a).bucket.toNat = i) : s.mem.cell a = ⟨i, true⟩ := by
  rw [Mem.cell, hbk, decide_eq_true (h.loose_free a ha).2]

theorem used_ne_free : c4aStatusUsed ≠ c4aStatusFree := by decide

/-- Only loose blocks come, go or change. -/
theorem of_loose {n' : ℕ} {C' : ℕ → List Ptr} (h : Inv s n C F loose U) (hP : Phys s' n' C')
    (hheap : s'.heap.buckets = s.heap.buckets)
    (hblock : ∀ b, Block n' C' b ∧ ¬ loose' b ↔ Block n C b ∧ ¬ loose b)
    (hnode : ∀ b, Block n C b → ¬ loose b →
      (s'.mem.node b).status = (s.mem.node b).status ∧
      (s'.mem.node b).bucket = (s.mem.node b).bucket ∧
      (s'.mem.node b).next = (s.mem.node b).next ∧
      (s'.mem.node b).previous = (s.mem.node b).previous)
    (hloose : ∀ b, loose' b → Block n' C' b ∧ (s'.mem.node b).status = c4aStatusFree) :
    Inv s' n' C' F loose' U := by
  refine ⟨hP, h.lists.frame hheap (fun b => ?_) fun b hb hl _ => (hnode b hb hl).2, hloose,
    fun b hb => ?_, fun b i => ?_⟩
  · rw [← and_assoc, hblock, and_assoc]
    exact and_congr_right fun hb => and_congr_right fun hl => by rw [(hnode b hb hl).1]
  · by_cases hl : loose' b
    · exact .inl (hloose b hl).2
    · obtain ⟨hb', hl'⟩ := (hblock b).1 ⟨hb, hl⟩
      rw [(hnode b hb' hl').1]
      exact h.status b hb'
  · rw [h.used]
    constructor
    · rintro ⟨hb, hst, hi⟩
      have hl : ¬ loose b := fun hl => used_ne_free (hst.symm.trans (h.loose_free b hl).2)
      obtain ⟨h₁, h₂, -, -⟩ := hnode b hb hl
      exact ⟨((hblock b).2 ⟨hb, hl⟩).1, h₁.trans hst, h₂ ▸ hi⟩
    · rintro ⟨hb, hst, hi⟩
      have hl : ¬ loose' b := fun hl => used_ne_free (hst.symm.trans (hloose b hl).2)
      obtain ⟨hb', hl'⟩ := (hblock b).1 ⟨hb, hl⟩
      obtain ⟨h₁, h₂, -, -⟩ := hnode b hb' hl'
      exact ⟨hb', h₁.symm.trans hst, h₂ ▸ hi⟩

/-- A free block is taken from its list. -/
theorem unlink_free (h : Inv s n C F loose U) (hi : i ≤ c4aMaxBuckets) (ha : a ∈ F i) :
    ∃ s' nxt prv, c4aNodeUnlink s a = some s' ∧ Relinked s s' (Block n C) nxt prv ∧ nxt a = 0 ∧
      prv a = 0 ∧
      (∀ b, loose b → nxt b = (s.mem.node b).next ∧ prv b = (s.mem.node b).previous) ∧
      KeepsFree s s' ∧ Inv s' n C (fun j => (F j).erase a) (fun b => loose b ∨ b = a) U := by
  obtain ⟨s', nxt, prv, hrun, hrel, hn, hp, hl, hL, hfree⟩ :=
    C4alloc.unlink_free h.phys.nodes h.lists hi ha
  refine ⟨s', nxt, prv, hrun, hrel, hn, hp, fun b hb => hl b (h.loose_free b hb).1 hb,
    ⟨hrel.start, hfree _ fun b => h.phys.grid⟩, h.relinked hrel hL ?_⟩
  rintro b (hb | rfl)
  · exact h.loose_free b hb
  · obtain ⟨h₁, -, h₂, -⟩ := (h.lists.mem_iff i hi b).1 ha
    exact ⟨h₁, h₂⟩

/-- A loose block is put into the list of its bucket. -/
theorem insert (h : Inv s n C F loose U) (ha : loose a) (hbk : (s.mem.node a).bucket.toNat = i) :
    ∃ s' nxt prv, c4aBucketInsert s i a = some s' ∧ Relinked s s' (Block n C) nxt prv ∧
      KeepsFree s s' ∧
      Inv s' n C (fun j => if j = i then a :: F j else F j) (fun b => loose b ∧ b ≠ a) U := by
  obtain ⟨hB, hst⟩ := h.loose_free a ha
  obtain ⟨s', nxt, prv, hrun, hrel, hL, hfree⟩ := insert_loose h.phys.nodes h.lists hB ha hst hbk
    (hbk ▸ h.phys.bucket_le hB)
  exact ⟨s', nxt, prv, hrun, hrel, ⟨hrel.start, hfree _ fun b => h.phys.grid⟩,
    h.relinked hrel hL fun b hb => h.loose_free b hb.1⟩

/-! ## Splitting -/

/-- The nodes after `c4a_split_node`. -/
theorem c4aSplitNode_spec {B : Ptr → Prop} (hN : Nodes m B) (ha : B a) (ht : B t) (hat : t ≠ a)
    (hnext : (m.node a).physNext = 0 ∨ B (m.node a).physNext) (hna : (m.node a).physNext ≠ a)
    (hnt : (m.node a).physNext ≠ t) (htemp : a + 1 <<< ((m.node a).bucket.toUInt32 - 1) = t)
    (hst : (m.node a).status = c4aStatusFree) :
    ∃ m', c4aSplitNode m a = some (t, m') ∧ m'.mapped = m.mapped ∧
      (∀ o, (∀ b, B b → b.toNat % 32 = o) → StaysFree o m m') ∧
      m'.node a = { m.node a with bucket := (m.node a).bucket - 1, next := t, physNext := t } ∧
      m'.node t = ⟨a, (m.node a).next, (m.node a).physNext, a, (m.node a).status,
        (m.node a).bucket - 1⟩ ∧
      ∀ b, B b → b ≠ a → b ≠ t → m'.node b =
        { m.node b with
          physPrev := if b = (m.node a).physNext then t else (m.node b).physPrev } := by
  let n := m.node a
  let m₁ := m.update a fun n => { n with bucket := n.bucket - 1 }
  let m₂ := m₁.update t fun t => { t with
    bucket := n.bucket - 1, status := n.status, next := n.next, previous := a }
  let m₃ := m₂.update a fun n => { n with next := t }
  let m₄ := m₃.update t fun t => { t with physPrev := a, physNext := n.physNext }
  let m₅ := m₄.update a fun n => { n with physNext := t }
  let m₆ := m₅.updateIf n.physNext fun p => { p with physPrev := t }
  have hN₁ : Nodes m₁ B := hN.update
  have hN₂ : Nodes m₂ B := hN₁.update
  have hN₃ : Nodes m₃ B := hN₂.update
  have hN₄ : Nodes m₄ B := hN₃.update
  have hN₅ : Nodes m₅ B := hN₄.update
  have ha₁ : m₁.node a = { n with bucket := n.bucket - 1 } := by
    rw [hN.node_update ha ha, if_pos rfl]
  have ha₃ : m₃.node a = { n with bucket := n.bucket - 1, next := t } := by
    rw [hN₂.node_update ha ha, if_pos rfl, hN₁.node_update ht ha, if_neg hat.symm, ha₁]
  have ht₅ : m₅.node t = ⟨a, n.next, n.physNext, a, n.status, n.bucket - 1⟩ := by
    rw [hN₄.node_update ha ht, if_neg hat, hN₃.node_update ht ht, if_pos rfl,
      hN₂.node_update ha ht, if_neg hat, hN₁.node_update ht ht, if_pos rfl]
  refine ⟨m₆, ?_, by simp [m₆, m₅, m₄, m₃, m₂, m₁], fun o hB => ?_, ?_, ?_,
    fun b hb hba hbt => ?_⟩
  · refine run_bind (hN.load ha) ?_
    simp only [htemp]
    refine run_bind (hN.modify ha) <| run_bind ((hN₁.load ha).trans (congrArg some ha₁)) <|
      run_bind (hN₁.modify ht) <| run_bind (hN₂.modify ha) <|
      run_bind ((hN₃.load ha).trans (congrArg some ha₃)) <| run_bind (hN₃.modify ht) <|
      run_bind (hN₄.modify ha) <| run_bind ((hN₅.load ht).trans (congrArg some ht₅)) <|
      run_bind (hN₅.modifyIf hnext) rfl
  · -- the new node takes the status of the old one
    have hfree₁ : StaysFree o m m₁ := .update (hB a ha) fun _ h => h
    have hfree₂ : StaysFree o m₁ m₂ := .update (hB t ht) fun _ _ => hst
    have hfree₃ : StaysFree o m₂ m₃ := .update (hB a ha) fun _ h => h
    have hfree₄ : StaysFree o m₃ m₄ := .update (hB t ht) fun _ h => h
    have hfree₅ : StaysFree o m₄ m₅ := .update (hB a ha) fun _ h => h
    have hfree₆ : StaysFree o m₅ m₆ := .updateIf (hnext.imp_right (hB _)) fun _ h => h
    exact ((((hfree₁.trans hfree₂).trans hfree₃).trans hfree₄).trans hfree₅).trans hfree₆
  · rw [hN₅.node_updateIf hnext ha, if_neg (Ne.symm hna), hN₄.node_update ha ha, if_pos rfl,
      hN₃.node_update ht ha, if_neg hat.symm, ha₃]
  · rw [hN₅.node_updateIf hnext ht, if_neg (Ne.symm hnt), ht₅]
  · rw [hN₅.node_updateIf hnext hb, hN₄.node_update ha hb, if_neg hba, hN₃.node_update ht hb,
      if_neg hbt, hN₂.node_update ha hb, if_neg hba, hN₁.node_update ht hb, if_neg hbt,
      hN.node_update ha hb, if_neg hba]
    split <;> rfl

theorem toNat_temp {a : Ptr} {b : UInt16} (hb : b.toNat = i + 1) (hi : i < 32)
    (hlt : a.toNat + 2 ^ i < 2 ^ 32) : (a + 1 <<< (b.toUInt32 - 1)).toNat = a.toNat + 2 ^ i := by
  have hsub : (b.toUInt32 - 1).toNat = i := by
    rw [UInt32.toNat_sub_of_le]
    · rw [UInt16.toNat_toUInt32, hb]
      rfl
    · rw [UInt32.le_iff_toNat_le, UInt16.toNat_toUInt32, hb]
      exact Nat.le_add_left 1 i
  rw [UInt32.toNat_add, UInt32.toNat_shiftLeft, hsub, Nat.mod_eq_of_lt hi, UInt32.toNat_one,
    Nat.one_shiftLeft, Nat.mod_eq_of_lt (by omega : 2 ^ i < 2 ^ 32), Nat.mod_eq_of_lt hlt]

/-- The blocks with a new one behind `a`. -/
theorem block_insertAfter {k : ℕ} {xs ys : List Ptr} (hk : k < n) (hC : C k = xs ++ a :: ys) :
    Block n (fun j => if j = k then xs ++ a :: t :: ys else C j) b ↔ Block n C b ∨ b = t := by
  have hmem : b ∈ xs ++ a :: t :: ys ↔ b ∈ C k ∨ b = t := by
    rw [hC]
    simp only [List.mem_append, List.mem_cons]
    tauto
  constructor
  · rintro ⟨j, hj, hb⟩
    simp only at hb
    split at hb
    · exact (hmem.1 hb).imp_left fun h => ⟨k, hk, h⟩
    · exact .inl ⟨j, hj, hb⟩
  · rintro (⟨j, hj, hb⟩ | hb)
    · refine ⟨j, hj, ?_⟩
      simp only
      split
      · next hjk => exact hmem.2 (.inl (hjk ▸ hb))
      · exact hb
    · refine ⟨k, hk, ?_⟩
      simp only [if_pos]
      exact hmem.2 (.inr hb)

/-- The other blocks of a chunk. -/
theorem mem_chunk {k : ℕ} {xs ys : List Ptr} (hP : Phys s n C) (hk : k < n)
    (hC : C k = xs ++ a :: ys) (hb : b ∈ xs ++ ys) : Block n C b ∧ b ≠ a := by
  have hnd := (hP.tiles k hk).nodup
  rw [hC, List.nodup_append, List.nodup_cons] at hnd
  rw [List.mem_append] at hb
  refine ⟨⟨k, hk, ?_⟩, ?_⟩
  · rw [hC, List.mem_append, List.mem_cons]
    tauto
  · rintro rfl
    exact hb.elim (fun h => hnd.2.2 b h b List.mem_cons_self rfl) hnd.2.1.1

theorem physNext_block (hP : Phys s n C) {k : ℕ} (hk : k < n) (ha : a ∈ C k) :
    (s.mem.node a).physNext = 0 ∨ (s.mem.node a).physNext ∈ C k :=
  (((hP.links k hk).neighbours (hP.tiles k hk).nodup ha).2).imp_right And.left

theorem physNext_ne (hP : Phys s n C) (ha : Block n C a) : (s.mem.node a).physNext ≠ a := by
  obtain ⟨k, hk, hak⟩ := id ha
  rcases ((hP.links k hk).neighbours (hP.tiles k hk).nodup hak).2 with h₀ | hmem
  · exact fun he => hP.ne_zero ha (he.symm.trans h₀)
  · exact hmem.2

/-- The second half of a block is no block. -/
theorem not_block_temp (hP : Phys s n C) (ha : Block n C a)
    (ht : a.toNat < t.toNat) (ht' : t.toNat < a.toNat + s.mem.size a) : ¬ Block n C t := by
  intro htB
  have hne : a ≠ t := by
    rintro rfl
    omega
  have := hP.disjoint ha htB hne
  omega

/-- The chunks after a block is split. -/
theorem phys_split {k : ℕ} {xs ys : List Ptr} (hP : Phys s n C) (hk : k < n)
    (hC : C k = xs ++ a :: ys) (hbk : (s.mem.node a).bucket.toNat = i + 1) (hi : 5 ≤ i)
    (ht : t.toNat = a.toNat + 2 ^ i) (hmap : m.mapped = s.mem.mapped)
    (ha₁ : (m.node a).bucket.toNat = i) (ha₂ : (m.node a).physNext = t)
    (ha₃ : (m.node a).physPrev = (s.mem.node a).physPrev) (ht₁ : (m.node t).bucket.toNat = i)
    (ht₂ : (m.node t).physNext = (s.mem.node a).physNext) (ht₃ : (m.node t).physPrev = a)
    (hkeep : ∀ b, Block n C b → b ≠ a → m.node b = { s.mem.node b with physPrev :=
      if b = (s.mem.node a).physNext then t else (s.mem.node b).physPrev }) :
    Phys ⟨s.heap, m⟩ n (fun j => if j = k then xs ++ a :: t :: ys else C j) := by
  have hak : a ∈ C k := by simp [hC]
  have hpow := two_pow_bucket hi
  have hnext := physNext_block hP hk hak
  have hna := physNext_ne hP ⟨k, hk, hak⟩
  have hz : 0 ∉ C k := fun h₀ => hP.ne_zero ⟨k, hk, h₀⟩ rfl
  have hlinks := hP.links k hk
  have htiles := hP.tiles k hk
  rw [hC] at hlinks htiles hz
  have hsa : m.size a = 2 ^ i := by rw [Mem.size, ha₁]
  have hst : m.size t = 2 ^ i := by rw [Mem.size, ht₁]
  refine hP.setChunk hk rfl hmap ?_ ?_ (fun b hb => ?_) fun b hb hbk => ?_
  · refine htiles.split ?_ ?_ ?_ ?_ fun b hb => ?_
    · rw [hsa, ht]
    · rw [hsa, hst, Mem.size, hbk, Nat.pow_succ]
      omega
    · rw [hsa]
      omega
    · rw [hst]
      omega
    · obtain ⟨hB, hba⟩ := mem_chunk hP hk hC hb
      rw [Mem.size, hkeep b hB hba, Mem.size]
  · refine hlinks.insertAfter hz htiles.nodup ha₂ ht₂ ht₃ (fun b hb => ?_) fun b hb => ?_
    · obtain ⟨hB, hba⟩ := mem_chunk hP hk hC hb
      rw [hkeep b hB hba]
    · by_cases hba : b = a
      · rw [hba, ha₃, if_neg (Ne.symm hna)]
      · rw [hkeep b ⟨k, hk, hC ▸ hb⟩ hba]
  · by_cases hbt : b = t
    · rwa [hbt, ht₁]
    · by_cases hba : b = a
      · rwa [hba, ha₁]
      · have hB : Block n C b := ⟨k, hk, by simp_all⟩
        rw [hkeep b hB hba]
        exact hP.five_le b hB
  · have hba : b ≠ a := fun he => hbk (he ▸ hak)
    have hbn : b ≠ (s.mem.node a).physNext := by
      rintro rfl
      exact hnext.elim (fun h₀ => hP.ne_zero hb h₀) hbk
    rw [hkeep b hb hba, if_neg hbn]
    exact ⟨rfl, rfl, rfl⟩

/-- A loose block is split in two loose ones. -/
theorem split {k : ℕ} {xs ys : List Ptr} (h : Inv s n C F loose U) (ha : loose a)
    (hk : k < n) (hC : C k = xs ++ a :: ys)
    (hbk : (s.mem.node a).bucket.toNat = i + 1) (hi : 5 ≤ i) :
    ∃ t m', c4aSplitNode s.mem a = some (t, m') ∧ ¬ loose t ∧ (m'.node a).bucket.toNat = i ∧
      (m'.node t).bucket.toNat = i ∧
      (∀ b, Block n C b → b ≠ a → m'.cell b = s.mem.cell b) ∧ KeepsFree s ⟨s.heap, m'⟩ ∧
      Inv ⟨s.heap, m'⟩ n (fun j => if j = k then xs ++ a :: t :: ys else C j) F
        (fun b => loose b ∨ b = t) U := by
  obtain ⟨hB, hst⟩ := h.loose_free a ha
  have hak : a ∈ C k := by simp [hC]
  have hP := h.phys
  have hle : (s.mem.node a).bucket.toNat ≤ 14 := hP.bucket_le hB
  have hsize : s.mem.size a = 2 ^ i + 2 ^ i := by
    rw [Mem.size, hbk, Nat.pow_succ]
    omega
  have hpow := two_pow_bucket hi
  have hbounds := hP.block_bounds hB
  have hfits := hP.fits
  have ht := toNat_temp (a := a) hbk (by omega) (by omega)
  generalize htemp : a + 1 <<< ((s.mem.node a).bucket.toUInt32 - 1) = t at ht
  have htB := not_block_temp (t := t) hP hB (by omega) (by omega)
  have hta : t ≠ a := fun he => htB (he ▸ hB)
  have hblock : ∀ b, _ ↔ _ := fun b => block_insertAfter (b := b) (t := t) hk hC
  have hN : Nodes s.mem (Block n fun j => if j = k then xs ++ a :: t :: ys else C j) := by
    refine Nodes.subset (hP.nodes.insert (hP.accessible hB (t := t) (by omega) (by omega))
      fun b hb => ?_) fun b => (hblock b).1
    by_cases hba : b = a
    · rw [hba]
      omega
    · have h₁ := hP.disjoint hb hB hba
      have h₂ := hP.le_size hb
      omega
  have hnext := physNext_block hP hk hak
  have hnt : (s.mem.node a).physNext ≠ t := by
    rintro he
    rcases hnext with h₀ | hmem
    · rw [← he, h₀, UInt32.toNat_zero] at ht
      omega
    · exact htB ⟨k, hk, he ▸ hmem⟩
  obtain ⟨m', hrun, hmap, hfree, hnode_a, hnode_t, hnode⟩ := c4aSplitNode_spec hN
    ((hblock a).2 (.inl hB)) ((hblock t).2 (.inr rfl)) hta
    (hnext.imp_right fun hmem => (hblock _).2 (.inl ⟨k, hk, hmem⟩)) (physNext_ne hP hB) hnt htemp
    hst
  have hbucket : ((s.mem.node a).bucket - 1).toNat = i := by
    rw [UInt16.toNat_sub_of_le, hbk]
    · rfl
    · rw [UInt16.le_iff_toNat_le, hbk]
      exact Nat.le_add_left 1 i
  -- of the old blocks only `a` and the one behind it change, the latter in `phys_prev` alone
  have hkeep : ∀ b, Block n C b → b ≠ a → m'.node b = { s.mem.node b with physPrev :=
      if b = (s.mem.node a).physNext then t else (s.mem.node b).physPrev } := fun b hb hba =>
    hnode b ((hblock b).2 (.inl hb)) hba fun hbt => htB (hbt ▸ hb)
  have hP' := phys_split hP hk hC hbk hi ht hmap (by rw [hnode_a, hbucket]) (by rw [hnode_a])
    (by rw [hnode_a]) (by rw [hnode_t, hbucket]) (by rw [hnode_t]) (by rw [hnode_t]) hkeep
  refine ⟨t, m', hrun, fun hl => htB (h.loose_free t hl).1, by rw [hnode_a, hbucket],
    by rw [hnode_t, hbucket], fun b hb hba => ?_, ⟨rfl, hfree _ fun b => hP'.grid⟩,
    h.of_loose hP' rfl (fun b => ?_) (fun b hb hl => ?_) ?_⟩
  · simp only [Mem.cell, hkeep b hb hba]
  · rw [hblock b]
    constructor
    · rintro ⟨hb | hb, hl⟩
      · exact ⟨hb, fun h => hl (.inl h)⟩
      · exact absurd (.inr hb) hl
    · rintro ⟨hb, hl⟩
      exact ⟨.inl hb, fun h' => h'.elim hl fun he => htB (he ▸ hb)⟩
  · have := hkeep b hb fun he => hl (he ▸ ha)
    simp only [this, and_self]
  · rintro b (hl | rfl)
    · obtain ⟨hb, hst'⟩ := h.loose_free b hl
      refine ⟨(hblock b).2 (.inl hb), ?_⟩
      by_cases hba : b = a
      · simp only [hba, hnode_a, hst]
      · simp only [hkeep b hb hba, hst']
    · refine ⟨(hblock b).2 (.inr rfl), ?_⟩
      simp only [hnode_t, hst]

/-! ## Joining -/

/-- The nodes after two of them are joined. -/
theorem joinNodes_spec {B : Ptr → Prop} (hN : Nodes m B) (ha : B a) (hb : B b) (hab : b ≠ a)
    (hnext : (m.node b).physNext = 0 ∨ B (m.node b).physNext) (hna : (m.node b).physNext ≠ a) :
    ∃ m', joinNodes m a b = some m' ∧ m'.mapped = m.mapped ∧
      (∀ o, (∀ b, B b → b.toNat % 32 = o) → StaysFree o m m') ∧
      m'.node a = { m.node a with
        bucket := (m.node a).bucket + 1, physNext := (m.node b).physNext } ∧
      ∀ c, B c → c ≠ a → m'.node c = { m.node c with
        physPrev := if c = (m.node b).physNext then a else (m.node c).physPrev } := by
  let n := m.node b
  let m₁ := m.update a fun p => { p with bucket := p.bucket + 1 }
  let m₂ := m₁.update a fun p => { p with physNext := n.physNext }
  let m₃ := m₂.updateIf n.physNext fun q => { q with physPrev := a }
  have hN₁ : Nodes m₁ B := hN.update
  have hN₂ : Nodes m₂ B := hN₁.update
  have hb₁ : m₁.node b = n := by rw [hN.node_update ha hb, if_neg hab]
  have ha₂ : m₂.node a = { m.node a with
      bucket := (m.node a).bucket + 1, physNext := n.physNext } := by
    rw [hN₁.node_update ha ha, if_pos rfl, hN.node_update ha ha, if_pos rfl]
  refine ⟨m₃, ?_, by simp [m₃, m₂, m₁], fun o hB => ?_, ?_, fun c hc hca => ?_⟩
  · exact run_bind (hN.modify ha) <| run_bind ((hN₁.load hb).trans (congrArg some hb₁)) <|
      run_bind (hN₁.modify ha) <| run_bind ((hN₂.load ha).trans (congrArg some ha₂)) <|
      hN₂.modifyIf hnext
  · have hfree₁ : StaysFree o m m₁ := .update (hB a ha) fun _ h => h
    have hfree₂ : StaysFree o m₁ m₂ := .update (hB a ha) fun _ h => h
    have hfree₃ : StaysFree o m₂ m₃ := .updateIf (hnext.imp_right (hB _)) fun _ h => h
    exact (hfree₁.trans hfree₂).trans hfree₃
  · rw [hN₂.node_updateIf hnext ha, if_neg (Ne.symm hna), ha₂]
  · rw [hN₂.node_updateIf hnext hc, hN₁.node_update ha hc, if_neg hca, hN.node_update ha hc,
      if_neg hca]
    split <;> rfl

/-- The blocks without the one behind `a`. -/
theorem block_removeAfter {k : ℕ} {xs ys : List Ptr} (hP : Phys s n C) (hk : k < n)
    (hC : C k = xs ++ a :: t :: ys) :
    Block n (fun j => if j = k then xs ++ a :: ys else C j) b ↔ Block n C b ∧ b ≠ t := by
  have hnd := (hP.tiles k hk).nodup
  rw [hC] at hnd
  have htk : t ∈ C k := by simp [hC]
  have hmem : b ∈ xs ++ a :: ys ↔ b ∈ C k ∧ b ≠ t := by
    have htx : t ∉ xs := fun h => (List.nodup_append.1 hnd).2.2 t h t (by simp) rfl
    have hta : t ≠ a := by
      rintro rfl
      simp [List.nodup_append] at hnd
    have hty : t ∉ ys := fun h => by simp [List.nodup_append, h] at hnd
    rw [hC]
    simp only [List.mem_append, List.mem_cons]
    constructor
    · intro hb
      refine ⟨by tauto, ?_⟩
      rintro rfl
      tauto
    · tauto
  constructor
  · rintro ⟨j, hj, hb⟩
    simp only at hb
    split at hb
    · exact ⟨⟨k, hk, (hmem.1 hb).1⟩, (hmem.1 hb).2⟩
    · next hjk =>
      refine ⟨⟨j, hj, hb⟩, ?_⟩
      rintro rfl
      exact hjk (hP.eq_of_mem hj hk hb htk)
  · rintro ⟨⟨j, hj, hb⟩, hbt⟩
    refine ⟨j, hj, ?_⟩
    simp only
    split
    · next hjk => exact hmem.2 ⟨hjk ▸ hb, hbt⟩
    · exact hb

/-- The chunks after two blocks are joined. -/
theorem phys_join {k : ℕ} {xs ys : List Ptr} (hP : Phys s n C) (hk : k < n)
    (hC : C k = xs ++ a :: t :: ys) (hbk : (s.mem.node a).bucket.toNat = i)
    (hbkt : (s.mem.node t).bucket.toNat = i) (hmap : m.mapped = s.mem.mapped)
    (ha₁ : (m.node a).bucket.toNat = i + 1) (ha₂ : (m.node a).physNext = (s.mem.node t).physNext)
    (ha₃ : (m.node a).physPrev = (s.mem.node a).physPrev) (hna : (s.mem.node t).physNext ≠ a)
    (hkeep : ∀ b, Block n C b → b ≠ a → m.node b = { s.mem.node b with physPrev :=
      if b = (s.mem.node t).physNext then a else (s.mem.node b).physPrev }) :
    Phys ⟨s.heap, m⟩ n (fun j => if j = k then xs ++ a :: ys else C j) := by
  have hak : a ∈ C k := by simp [hC]
  have htk : t ∈ C k := by simp [hC]
  have hsub : ∀ b ∈ xs ++ a :: ys, b ∈ C k := fun b hb => by
    rw [hC]
    simp only [List.mem_append, List.mem_cons] at hb ⊢
    tauto
  have hxy : ∀ b ∈ xs ++ ys, Block n C b ∧ b ≠ a := fun b hb =>
    mem_chunk hP hk hC (by simp only [List.mem_append, List.mem_cons] at hb ⊢; tauto)
  have hnext := physNext_block hP hk htk
  have hlinks := hP.links k hk
  have htiles := hP.tiles k hk
  have hz : 0 ∉ xs ++ a :: ys := fun h₀ => hP.ne_zero ⟨k, hk, hsub 0 h₀⟩ rfl
  have hnd : (xs ++ a :: ys).Nodup := by
    refine htiles.nodup.sublist ?_
    rw [hC]
    exact (List.Sublist.refl xs).append ((List.sublist_cons_self t ys).cons_cons a)
  rw [hC] at hlinks htiles
  refine hP.setChunk hk rfl hmap ?_ ?_ (fun b hb => ?_) fun b hb hbk => ?_
  · refine htiles.join ?_ fun b hb => ?_
    · rw [Mem.size, Mem.size, Mem.size, ha₁, hbk, hbkt, Nat.pow_succ]
      omega
    · rw [Mem.size, hkeep b (hxy b hb).1 (hxy b hb).2, Mem.size]
  · refine hlinks.removeAfter hz hnd ha₂ (fun b hb => ?_) fun b hb => ?_
    · rw [hkeep b (hxy b hb).1 (hxy b hb).2]
    · by_cases hba : b = a
      · rw [hba, ha₃, if_neg (Ne.symm hna)]
      · rw [hkeep b ⟨k, hk, hsub b hb⟩ hba]
  · by_cases hba : b = a
    · have := hP.five_le a ⟨k, hk, hak⟩
      rw [hba, ha₁]
      omega
    · rw [hkeep b ⟨k, hk, hsub b hb⟩ hba]
      exact hP.five_le b ⟨k, hk, hsub b hb⟩
  · have hba : b ≠ a := fun he => hbk (he ▸ hak)
    have hbn : b ≠ (s.mem.node t).physNext := by
      rintro rfl
      exact hnext.elim (fun h₀ => hP.ne_zero hb h₀) hbk
    rw [hkeep b hb hba, if_neg hbn]
    exact ⟨rfl, rfl, rfl⟩

/-- A loose block is joined with the loose block behind it. -/
theorem join {k : ℕ} {xs ys : List Ptr} (h : Inv s n C F loose U) (ha : loose a) (ht : loose t)
    (hk : k < n) (hC : C k = xs ++ a :: t :: ys)
    (hbk : (s.mem.node a).bucket = (s.mem.node t).bucket) :
    ∃ m', joinNodes s.mem a t = some m' ∧
      m'.node a = { s.mem.node a with
        bucket := (s.mem.node a).bucket + 1, physNext := (s.mem.node t).physNext } ∧
      (m'.node a).bucket.toNat = (s.mem.node a).bucket.toNat + 1 ∧
      (∀ b, Block n C b → b ≠ a → m'.cell b = s.mem.cell b) ∧ KeepsFree s ⟨s.heap, m'⟩ ∧
      Inv ⟨s.heap, m'⟩ n (fun j => if j = k then xs ++ a :: ys else C j) F
        (fun b => loose b ∧ b ≠ t) U := by
  obtain ⟨hBa, hsta⟩ := h.loose_free a ha
  obtain ⟨hBt, hstt⟩ := h.loose_free t ht
  have hP := h.phys
  have hnd := (hP.tiles k hk).nodup
  have htiles := hP.tiles k hk
  have hlinks := hP.links k hk
  rw [hC] at hnd htiles hlinks
  have hta : t ≠ a := by
    rintro rfl
    simp [List.nodup_append] at hnd
  have hnext := physNext_block hP hk (by simp [hC] : t ∈ C k)
  have hna : (s.mem.node t).physNext ≠ a := by
    intro he
    have hl : (s.mem.node t).physNext = ys.headD 0 := by
      rw [List.append_cons] at hlinks
      exact hlinks.links.2
    rw [hl] at he
    have hmem : a ∈ ys := he ▸ headD_mem (he ▸ hP.ne_zero hBa)
    simp [List.nodup_append, hmem] at hnd
  obtain ⟨m', hrun, hmap, hfree, hnode_a, hkeep⟩ := joinNodes_spec hP.nodes hBa hBt hta
    (hnext.imp_right fun hmem => ⟨k, hk, hmem⟩) hna
  have hbucket : (m'.node a).bucket.toNat = (s.mem.node a).bucket.toNat + 1 := by
    have hle : (s.mem.node a).bucket.toNat ≤ 14 := hP.bucket_le hBa
    rw [hnode_a, UInt16.toNat_add, UInt16.toNat_one, Nat.mod_eq_of_lt (by omega)]
  have hP' := phys_join hP hk hC rfl (by rw [hbk]) hmap hbucket (by rw [hnode_a]) (by rw [hnode_a])
    hna hkeep
  have hblock : ∀ b, _ ↔ _ := fun b => block_removeAfter (b := b) hP hk hC
  refine ⟨m', hrun, hnode_a, hbucket, fun b hb hba => ?_, ⟨rfl, hfree _ fun b => hP.grid⟩,
    h.of_loose hP' rfl (fun b => ?_) (fun b hb hl => ?_) ?_⟩
  · simp only [Mem.cell, hkeep b hb hba]
  · rw [hblock b]
    constructor
    · rintro ⟨⟨hb, hbt⟩, hl⟩
      exact ⟨hb, fun hl' => hl ⟨hl', hbt⟩⟩
    · rintro ⟨hb, hl⟩
      exact ⟨⟨hb, fun he => hl (he ▸ ht)⟩, fun hl' => hl hl'.1⟩
  · have := hkeep b hb fun he => hl (he ▸ ha)
    simp only [this, and_self]
  · rintro b ⟨hl, hbt⟩
    obtain ⟨hb, hst⟩ := h.loose_free b hl
    refine ⟨(hblock b).2 ⟨hb, hbt⟩, ?_⟩
    by_cases hba : b = a
    · simp only [hba, hnode_a, hsta]
    · simp only [hkeep b hb hba, hst]

/-! ## Using and releasing -/

/-- The states of a block other than `a` do not matter to the chunks. -/
theorem phys_update {f : Node → Node} (hP : Phys s n C) (ha : Block n C a)
    (hf : ∀ n, (f n).bucket = n.bucket ∧ (f n).physNext = n.physNext ∧
      (f n).physPrev = n.physPrev) : Phys ⟨s.heap, s.mem.update a f⟩ n C := by
  refine hP.frame rfl rfl rfl fun b hb => ?_
  simp only [hP.nodes.node_update ha hb]
  split
  · exact hf _
  · exact ⟨rfl, rfl, rfl⟩

/-- A loose block is marked as used. -/
theorem use (h : Inv s n C F loose U) (ha : loose a) :
    Inv ⟨s.heap, s.mem.update a fun n => { n with status := c4aStatusUsed }⟩ n C F
      (fun b => loose b ∧ b ≠ a)
      (fun b i => U b i ∨ b = a ∧ (s.mem.node a).bucket.toNat = i) := by
  obtain ⟨hB, hst⟩ := h.loose_free a ha
  have hN := h.phys.nodes
  refine ⟨phys_update h.phys hB fun n => ⟨rfl, rfl, rfl⟩, h.lists.frame rfl (fun b => ?_)
    (fun b hb hl _ => ?_), fun b hb => ?_, fun b hb => ?_, fun b i => ?_⟩
  · refine and_congr_right fun hb => ?_
    by_cases hba : b = a
    · simp [hba, hN.node_update hB hB, ha, used_ne_free]
    · simp [hN.node_update hB hb, hba]
  · have hba : b ≠ a := fun he => hl (he ▸ ha)
    simp [hN.node_update hB hb, hba]
  · obtain ⟨h₁, h₂⟩ := h.loose_free b hb.1
    simp [hN.node_update hB h₁, hb.2, h₁, h₂]
  · simp only [hN.node_update hB hb]
    split
    · exact .inr rfl
    · exact h.status b hb
  · by_cases hba : b = a
    · subst hba
      have hnot : ¬ U b i := fun hU => used_ne_free ((((h.used b i).1 hU).2.1).symm.trans hst)
      simp [hN.node_update hB hB, hB, hnot]
    · rw [h.used]
      simp only [hba, false_and, or_false]
      refine and_congr_right fun hb => ?_
      simp [hN.node_update hB hb, hba]

/-- A used block is marked as free. -/
theorem release (h : Inv s n C F loose U) (ha : U a i) :
    Inv ⟨s.heap, s.mem.update a fun n =>
        { n with status := c4aStatusFree, next := 0, previous := 0 }⟩ n C F
      (fun b => loose b ∨ b = a) (fun b i => U b i ∧ b ≠ a) := by
  obtain ⟨hB, hst, -⟩ := (h.used a i).1 ha
  have hN := h.phys.nodes
  have hnot : ¬ (s.mem.node a).status = c4aStatusFree := hst ▸ used_ne_free
  refine ⟨phys_update h.phys hB fun n => ⟨rfl, rfl, rfl⟩, h.lists.frame rfl (fun b => ?_)
    (fun b hb _ hfree => ?_), fun b hb => ?_, fun b hb => ?_, fun b i => ?_⟩
  · refine and_congr_right fun hb => ?_
    by_cases hba : b = a
    · simp [hba, hnot]
    · simp [hN.node_update hB hb, hba]
  · have hba : b ≠ a := fun he => hnot (he ▸ hfree)
    simp [hN.node_update hB hb, hba]
  · by_cases hba : b = a
    · subst hba
      simp [hN.node_update hB hB, hB]
    · obtain ⟨h₁, h₂⟩ := h.loose_free b (hb.resolve_right hba)
      simp [hN.node_update hB h₁, hba, h₁, h₂]
  · simp only [hN.node_update hB hb]
    split
    · exact .inl rfl
    · exact h.status b hb
  · by_cases hba : b = a
    · simp [hba, hN.node_update hB hB, used_ne_free.symm]
    · rw [h.used]
      simp only [ne_eq, hba, not_false_eq_true, and_true]
      refine and_congr_right fun hb => ?_
      simp [hN.node_update hB hb, hba]

end Inv

end C4OS.C4alloc
