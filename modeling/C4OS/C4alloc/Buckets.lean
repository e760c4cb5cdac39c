import C4OS.C4alloc.Layout
import Mathlib.Tactic.SplitIfs

/-!
# The operations on the bucket lists

What `c4a_node_unlink`, `c4a_bucket_insert` and `c4a_bucket_pop` do to the lists of free blocks. A
free block that is unlinked becomes loose (`unlink_free`), a loose block whose links are null stays
so (`unlink_loose`), and a loose block becomes the first of a list when it is inserted
(`insert_loose`). None of them changes the physical layout.
-/

namespace C4OS.C4alloc

open Foundations

variable {s s' : State} {m : Mem} {n i : ℕ} {a b t : Ptr} {C F : ℕ → List Ptr}
  {B loose : Ptr → Prop}

namespace Heap

theorem bucket_eq {h : Heap} (hi : i ≤ c4aMaxBuckets) : h.bucket i = some (h.buckets i) :=
  if_pos hi

theorem setBucket_eq {h : Heap} (hi : i ≤ c4aMaxBuckets) :
    h.setBucket i a = some { h with buckets := fun j => if j = i then a else h.buckets j } :=
  if_pos hi

end Heap

theorem unlinkStart_eq {h : Heap} {n : Node} (hi : n.bucket.toNat ≤ c4aMaxBuckets) :
    unlinkStart h n a = some { h with buckets := fun j =>
      if j = n.bucket.toNat ∧ a = h.buckets j then n.next else h.buckets j } := by
  rw [unlinkStart, Heap.bucket_eq hi, Option.bind_eq_bind, Option.bind_some]
  split
  · next he =>
    rw [Heap.setBucket_eq hi]
    congr 2
    funext j
    split <;> simp_all
  · next hne =>
    have hsame : (fun j => if j = n.bucket.toNat ∧ a = h.buckets j then n.next else h.buckets j) =
        h.buckets := by
      funext j
      rw [if_neg]
      rintro ⟨rfl, he⟩
      exact hne he
    rw [hsame]

/-! ## The links after each operation -/

/-- The links after `c4a_node_unlink`. -/
theorem c4aNodeUnlink_spec (hN : Nodes s.mem B) (ha : B a)
    (hi : (s.mem.node a).bucket.toNat ≤ c4aMaxBuckets)
    (hprv : (s.mem.node a).previous = 0 ∨ B (s.mem.node a).previous)
    (hnxt : (s.mem.node a).next = 0 ∨ B (s.mem.node a).next)
    (hne : (s.mem.node a).previous ≠ a) :
    ∃ s', c4aNodeUnlink s a = some s' ∧
      Relinked s s' B
        (fun b => if b = a then 0 else
          if b = (s.mem.node a).previous then (s.mem.node a).next else (s.mem.node b).next)
        (fun b => if b = a then 0 else
          if b = (s.mem.node a).next then (s.mem.node a).previous else (s.mem.node b).previous) ∧
      (∀ j, s'.heap.buckets j = if j = (s.mem.node a).bucket.toNat ∧ a = s.heap.buckets j then
        (s.mem.node a).next else s.heap.buckets j) ∧
      ∀ o, (∀ b, B b → b.toNat % 32 = o) → StaysFree o s.mem s'.mem := by
  -- the two neighbours are linked to each other first, then the links of the node are cleared
  let n := s.mem.node a
  let m₁ := s.mem.updateIf n.previous fun p => { p with next := n.next }
  let m₂ := m₁.updateIf n.next fun p => { p with previous := n.previous }
  let m₃ := m₂.update a fun n => { n with previous := 0, next := 0 }
  have hN₁ : Nodes m₁ B := hN.updateIf
  have hN₂ : Nodes m₂ B := hN₁.updateIf
  have ha₁ : m₁.node a = n := by rw [hN.node_updateIf hprv ha, if_neg (Ne.symm hne)]
  let h₁ : Heap := { s.heap with buckets := fun j =>
    if j = n.bucket.toNat ∧ a = s.heap.buckets j then n.next else s.heap.buckets j }
  refine ⟨⟨h₁, m₃⟩, ?_, ⟨rfl, rfl, ?_, fun b hb => ?_⟩, fun j => rfl, fun o hB => ?_⟩
  · refine run_bind (hN.load ha) <| run_bind (unlinkStart_eq hi) <| run_bind (hN.modifyIf hprv) <|
      run_bind (a := n) ?_ <| run_bind (hN₁.modifyIf hnxt) <| run_bind (hN₂.modify ha) rfl
    rw [hN₁.load ha, ha₁]
  · simp [m₃, m₂, m₁]
  · rw [hN₂.node_update ha hb, hN₁.node_updateIf hnxt hb, hN.node_updateIf hprv hb]
    split_ifs <;> rfl
  · have hfree₁ : StaysFree o s.mem m₁ := .updateIf (hprv.imp_right (hB _)) fun _ h => h
    have hfree₂ : StaysFree o m₁ m₂ := .updateIf (hnxt.imp_right (hB _)) fun _ h => h
    have hfree₃ : StaysFree o m₂ m₃ := .update (hB a ha) fun _ h => h
    exact (hfree₁.trans hfree₂).trans hfree₃

/-- The links after `c4a_bucket_insert`. -/
theorem c4aBucketInsert_spec (hN : Nodes s.mem B) (ha : B a) (hi : i ≤ c4aMaxBuckets)
    (hstart : s.heap.buckets i = 0 ∨ B (s.heap.buckets i)) :
    ∃ s', c4aBucketInsert s i a = some s' ∧
      Relinked s s' B
        (fun b => if b = a then s.heap.buckets i else (s.mem.node b).next)
        (fun b => if b = a then 0 else
          if b = s.heap.buckets i then a else (s.mem.node b).previous) ∧
      (∀ j, s'.heap.buckets j = if j = i then a else s.heap.buckets j) ∧
      ∀ o, (∀ b, B b → b.toNat % 32 = o) → StaysFree o s.mem s'.mem := by
  let m₁ := s.mem.updateIf (s.heap.buckets i) fun p => { p with previous := a }
  let m₂ := m₁.update a fun n => { n with next := s.heap.buckets i, previous := 0 }
  have hN₁ : Nodes m₁ B := hN.updateIf
  let h₁ : Heap := { s.heap with buckets := fun j => if j = i then a else s.heap.buckets j }
  refine ⟨⟨h₁, m₂⟩, ?_, ⟨rfl, rfl, ?_, fun b hb => ?_⟩, fun j => rfl, fun o hB => ?_⟩
  · exact run_bind (Heap.bucket_eq hi) <| run_bind (hN.modifyIf hstart) <|
      run_bind (hN₁.modify ha) <| run_bind (Heap.setBucket_eq hi) rfl
  · simp [m₂, m₁]
  · rw [hN₁.node_update ha hb, hN.node_updateIf hstart hb]
    split_ifs <;> rfl
  · have hfree₁ : StaysFree o s.mem m₁ := .updateIf (hstart.imp_right (hB _)) fun _ h => h
    have hfree₂ : StaysFree o m₁ m₂ := .update (hB a ha) fun _ h => h
    exact hfree₁.trans hfree₂

/-! ## The lists after each operation -/

/-- A free block is taken from its list. -/
theorem unlink_free (hN : Nodes s.mem B) (hL : Lists s B loose F) (hi : i ≤ c4aMaxBuckets)
    (ha : a ∈ F i) :
    ∃ s' nxt prv, c4aNodeUnlink s a = some s' ∧ Relinked s s' B nxt prv ∧ nxt a = 0 ∧ prv a = 0 ∧
      (∀ b, B b → loose b → nxt b = (s.mem.node b).next ∧ prv b = (s.mem.node b).previous) ∧
      Lists s' B (fun b => loose b ∨ b = a) (fun j => (F j).erase a) ∧
      ∀ o, (∀ b, B b → b.toNat % 32 = o) → StaysFree o s.mem s'.mem := by
  obtain ⟨hBa, -, -, hbk⟩ := (hL.mem_iff i hi a).1 ha
  obtain ⟨hprv, hnxt⟩ := (hL.links i hi).neighbours (hL.nodup i hi) ha
  have hne : (s.mem.node a).previous ≠ a := by
    rcases hprv with h | h
    · exact fun h' => hN.ne_zero hBa (h'.symm.trans h)
    · exact h.2
  obtain ⟨s', hrun, hrel, hheap, hfree⟩ := c4aNodeUnlink_spec hN hBa (hbk ▸ hi)
    (hprv.imp_right fun h => hL.block_of_mem hi h.1)
    (hnxt.imp_right fun h => hL.block_of_mem hi h.1) hne
  have hlist : ∀ j ≤ c4aMaxBuckets, s'.heap.buckets j = ((F j).erase a).headD 0 ∧
      Seg (fun b => (s'.mem.node b).next) (fun b => (s'.mem.node b).previous) 0
        ((F j).erase a) 0 := by
    intro j hj
    have hnode : ∀ c ∈ (F j).erase a, c ≠ a ∧ B c := fun c hc =>
      ⟨((hL.nodup j hj).mem_erase_iff.1 hc).1, hL.block_of_mem hj (List.mem_of_mem_erase hc)⟩
    by_cases hji : j = i
    · subst hji
      have herase : Seg (fun b => (s'.mem.node b).next) (fun b => (s'.mem.node b).previous) 0
          ((F j).erase a) 0 ∧ _ := (hL.links j hj).erase ha (hL.zero_notMem hN hj) (hL.nodup j hj)
        (fun c hc => by simp only [hrel.node c (hnode c hc).2, if_neg (hnode c hc).1])
        (fun c hc => by simp only [hrel.node c (hnode c hc).2, if_neg (hnode c hc).1])
      refine ⟨?_, herase.1⟩
      rw [hheap, herase.2, hL.head j hj, hbk]
      simp only [true_and]
    · have haj : a ∉ F j := fun h => hji (hL.eq_of_mem hj hi h ha)
      rw [List.erase_of_not_mem haj] at hnode ⊢
      -- the neighbours of `a` are in another list
      have hother : ∀ c ∈ F j, ∀ d, d = 0 ∨ d ∈ F i → c ≠ d := by
        rintro c hc d (rfl | hd) rfl
        · exact hL.zero_notMem hN hj hc
        · exact hji (hL.eq_of_mem hj hi hc hd)
      refine ⟨?_, (hL.links j hj).congr (fun c hc => ?_) fun c hc => ?_⟩
      · rw [hheap, hbk, if_neg fun h => hji h.1, hL.head j hj]
      · simp only [hrel.node c (hnode c hc).2, if_neg (hnode c hc).1,
          if_neg (hother c hc _ (hprv.imp_right And.left))]
      · simp only [hrel.node c (hnode c hc).2, if_neg (hnode c hc).1,
          if_neg (hother c hc _ (hnxt.imp_right And.left))]
  refine ⟨s', _, _, hrun, hrel, if_pos rfl, if_pos rfl, fun b hb hl => ?_,
    ⟨fun j hj => (hlist j hj).1, fun j hj => (hlist j hj).2, fun j hj => (hL.nodup j hj).erase a,
    fun j hj b => ?_⟩, hfree⟩
  · have hnot : b ∉ F i := fun h => ((hL.mem_iff i hi b).1 h).2.1 hl
    have hba : b ≠ a := fun he => hnot (he ▸ ha)
    have hother : ∀ d, d = 0 ∨ d ∈ F i → b ≠ d := by
      rintro d (rfl | hd) rfl
      · exact hN.ne_zero hb rfl
      · exact hnot hd
    simp only [if_neg hba, if_neg (hother _ (hprv.imp_right And.left)),
      if_neg (hother _ (hnxt.imp_right And.left)), and_self]
  · rw [(hL.nodup j hj).mem_erase_iff, hL.mem_iff j hj]
    constructor
    · rintro ⟨hba, hB, hl, hst, hb⟩
      rw [hrel.node b hB]
      exact ⟨hB, fun h => h.elim hl hba, hst, hb⟩
    · rintro ⟨hB, hl, hst, hb⟩
      rw [hrel.node b hB] at hst hb
      exact ⟨fun h => hl (.inr h), hB, fun h => hl (.inl h), hst, hb⟩

/-- A block in no list stays as it is. -/
theorem unlink_loose (hN : Nodes s.mem B) (hL : Lists s B loose F) (ha : B a) (hla : loose a)
    (hi : (s.mem.node a).bucket.toNat ≤ c4aMaxBuckets) (hnxt : (s.mem.node a).next = 0)
    (hprv : (s.mem.node a).previous = 0) :
    ∃ s', c4aNodeUnlink s a = some s' ∧
      Relinked s s' B (fun b => (s.mem.node b).next) (fun b => (s.mem.node b).previous) ∧
      Lists s' B loose F ∧
      ∀ o, (∀ b, B b → b.toNat % 32 = o) → StaysFree o s.mem s'.mem := by
  obtain ⟨s', hrun, hrel, hheap, hfree⟩ := c4aNodeUnlink_spec hN ha hi (.inl hprv) (.inl hnxt)
    (hprv ▸ (hN.ne_zero ha).symm)
  have hnode : ∀ b, B b → s'.mem.node b = s.mem.node b := by
    intro b hb
    rw [hrel.node b hb, hnxt, hprv, if_neg (hN.ne_zero hb), if_neg (hN.ne_zero hb)]
    by_cases hba : b = a
    · rw [if_pos hba, if_pos hba, hba]
      ext1 <;> simp [hnxt, hprv]
    · rw [if_neg hba, if_neg hba]
  refine ⟨s', hrun, ⟨hrel.start, hrel.pages, hrel.mapped, hnode⟩, ?_, hfree⟩
  refine ⟨fun j hj => ?_, fun j hj => ?_, hL.nodup, fun j hj b => ?_⟩
  · rw [hheap, hL.head j hj, if_neg]
    rintro ⟨-, he⟩
    have hmem : a ∈ F j := he ▸ headD_mem (he ▸ hN.ne_zero ha)
    exact ((hL.mem_iff j hj a).1 hmem).2.1 hla
  · refine (hL.links j hj).congr (fun c hc => ?_) fun c hc => ?_
    · rw [hnode c (hL.block_of_mem hj hc)]
    · rw [hnode c (hL.block_of_mem hj hc)]
  · rw [hL.mem_iff j hj]
    exact and_congr_right fun hb => by rw [hnode b hb]

/-- A loose block becomes the first one of the list of its bucket. -/
theorem insert_loose (hN : Nodes s.mem B) (hL : Lists s B loose F) (ha : B a) (hla : loose a)
    (hst : (s.mem.node a).status = c4aStatusFree) (hbk : (s.mem.node a).bucket.toNat = i)
    (hi : i ≤ c4aMaxBuckets) :
    ∃ s' nxt prv, c4aBucketInsert s i a = some s' ∧ Relinked s s' B nxt prv ∧
      Lists s' B (fun b => loose b ∧ b ≠ a) (fun j => if j = i then a :: F j else F j) ∧
      ∀ o, (∀ b, B b → b.toNat % 32 = o) → StaysFree o s.mem s'.mem := by
  have haF : ∀ j ≤ c4aMaxBuckets, a ∉ F j := fun j hj h => ((hL.mem_iff j hj a).1 h).2.1 hla
  have hhead : (F i).headD 0 = 0 ∨ (F i).headD 0 ∈ F i := or_iff_not_imp_left.2 headD_mem
  obtain ⟨s', hrun, hrel, hheap, hfree⟩ := c4aBucketInsert_spec hN ha hi
    (hL.head i hi ▸ hhead.imp_right (hL.block_of_mem hi))
  rw [hL.head i hi] at hrel
  have hnode : ∀ j ≤ c4aMaxBuckets, ∀ c ∈ F j, c ≠ a ∧ B c := fun j hj c hc =>
    ⟨fun h => haF j hj (h ▸ hc), hL.block_of_mem hj hc⟩
  refine ⟨s', _, _, hrun, hrel,
    ⟨fun j hj => ?_, fun j hj => ?_, fun j hj => ?_, fun j hj b => ?_⟩, hfree⟩
  · rw [hheap]
    split
    · rfl
    · exact hL.head j hj
  · split
    · next hji =>
      subst hji
      refine (hL.links j hj).push (hL.nodup j hj) ?_ ?_ (fun c hc => ?_) fun c hc => ?_
      · simp only [hrel.node a ha, if_pos]
      · simp only [hrel.node a ha, if_pos]
      · simp only [hrel.node c (hnode j hj c hc).2, if_neg (hnode j hj c hc).1]
      · simp only [hrel.node c (hnode j hj c hc).2, if_neg (hnode j hj c hc).1]
    · next hji =>
      refine (hL.links j hj).congr (fun c hc => ?_) fun c hc => ?_
      · simp only [hrel.node c (hnode j hj c hc).2, if_neg (hnode j hj c hc).1]
      · have hne : c ≠ (F i).headD 0 := by
          rintro rfl
          rcases hhead with h₀ | hmem
          · exact hL.zero_notMem hN hj (h₀ ▸ hc)
          · exact hji (hL.eq_of_mem hj hi hc hmem)
        simp only [hrel.node c (hnode j hj c hc).2, if_neg (hnode j hj c hc).1, if_neg hne]
  · split
    · exact List.nodup_cons.2 ⟨haF j hj, hL.nodup j hj⟩
    · exact hL.nodup j hj
  · by_cases hba : b = a
    · subst hba
      rw [hrel.node b ha, hst, hbk]
      by_cases hji : j = i
      · simp [hji, ha]
      · simp [hji, haF j hj, Ne.symm hji]
    · have hmem : b ∈ (if j = i then a :: F j else F j) ↔ b ∈ F j := by
        split <;> simp [hba]
      rw [hmem, hL.mem_iff j hj]
      refine and_congr_right fun hb => ?_
      rw [hrel.node b hb]
      simp [hba]

end C4OS.C4alloc
