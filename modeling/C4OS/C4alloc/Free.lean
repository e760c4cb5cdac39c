import C4OS.C4alloc.Alloc

/-!
# Freeing

`c4a_free` and the functions it calls. The block that is freed is loose while `c4a_coalesce` joins
it with its free neighbours, one at a time, as long as there is one of the same bucket. The bucket
of the block grows with every turn of the loop but the last one, so that the loop ends
(`Inv.coalesceLoop_spec`). Then the block is put into the list of its bucket (`Inv.free`).
-/

namespace C4OS.C4alloc

open Foundations Relation

variable {s s' : State} {n i : ℕ} {a b x : Ptr} {C F : ℕ → List Ptr} {loose : Ptr → Prop}
  {U : Ptr → ℕ → Prop}

/-- Loose blocks have no links to other blocks. -/
def NullLinks (m : Mem) (loose : Ptr → Prop) : Prop :=
  ∀ a, loose a → (m.node a).next = 0 ∧ (m.node a).previous = 0

namespace Inv

/-- Any block that is not used can be unlinked. -/
theorem unlink (h : Inv s n C F loose U) (hnull : NullLinks s.mem loose) (ha : Block n C a)
    (hst : (s.mem.node a).status = c4aStatusFree) :
    ∃ s' F' nxt prv, c4aNodeUnlink s a = some s' ∧ Relinked s s' (Block n C) nxt prv ∧
      KeepsFree s s' ∧ Inv s' n C F' (fun b => loose b ∨ b = a) U ∧
      NullLinks s'.mem fun b => loose b ∨ b = a := by
  by_cases hl : loose a
  · obtain ⟨s', hrun, hrel, hL, hfree⟩ := unlink_loose h.phys.nodes h.lists ha hl
      (h.phys.bucket_le ha) (hnull a hl).1 (hnull a hl).2
    have hiff : ∀ b, loose b ∨ b = a ↔ loose b :=
      fun b => or_iff_left_of_imp fun he => he ▸ hl
    have hinv := (h.relinked hrel hL h.loose_free).congr_loose hiff
    refine ⟨s', F, _, _, hrun, hrel, ⟨hrel.start, hfree _ fun b => h.phys.grid⟩, hinv,
      fun b hb => ?_⟩
    have hlb := (hiff b).1 hb
    rw [hrel.node b (h.loose_free b hlb).1]
    exact hnull b hlb
  · have hi := h.phys.bucket_le ha
    obtain ⟨s', nxt, prv, hrun, hrel, hn, hp, hkeep, hfree, hinv⟩ :=
      h.unlink_free hi ((h.lists.mem_iff _ hi a).2 ⟨ha, hl, hst, rfl⟩)
    refine ⟨s', _, nxt, prv, hrun, hrel, hfree, hinv, ?_⟩
    rintro b (hb | rfl)
    · rw [hrel.node b (h.loose_free b hb).1, (hkeep b hb).1, (hkeep b hb).2]
      exact hnull b hb
    · rw [hrel.node b ha]
      exact ⟨hn, hp⟩

theorem c4aCanCoalesce_eq (h : Inv s n C F loose U) (ha : Block n C a) (hb : Block n C b) :
    c4aCanCoalesce s.mem a b = some (decide ((s.mem.node a).status = c4aStatusFree ∧
      (s.mem.node b).status = c4aStatusFree ∧ (s.mem.node a).bucket = (s.mem.node b).bucket)) := by
  rw [c4aCanCoalesce, if_neg (by simp [h.phys.ne_zero ha, h.phys.ne_zero hb])]
  exact run_bind (h.phys.nodes.load ha) (run_bind (h.phys.nodes.load hb) rfl)

/-- A loose block and a free one next to it are joined if their buckets are the same. -/
theorem doCoalesce {k : ℕ} {xs ys : List Ptr} (h : Inv s n C F (· = x) U)
    (hnull : NullLinks s.mem (· = x)) (hx : x = a ∨ x = b) (hk : k < n)
    (hC : C k = xs ++ a :: b :: ys) :
    (c4aDoCoalesce s a b = some (false, s) ∧ Apart (s.mem.cell a) (s.mem.cell b)) ∨
    ∃ s' F', c4aDoCoalesce s a b = some (true, s') ∧ KeepsFree s s' ∧
      Inv s' n (fun j => if j = k then xs ++ a :: ys else C j) F' (· = a) U ∧
      NullLinks s'.mem (· = a) ∧
      (s'.mem.node a).bucket.toNat = (s.mem.node x).bucket.toNat + 1 ∧
      s.mem.cell a = ⟨(s.mem.node x).bucket.toNat, true⟩ ∧ s.mem.cell b = s.mem.cell a ∧
      ∀ c, Block n C c → c ≠ a → s'.mem.cell c = s.mem.cell c := by
  have ha : Block n C a := ⟨k, hk, by simp [hC]⟩
  have hb : Block n C b := ⟨k, hk, by simp [hC]⟩
  have hcan := h.c4aCanCoalesce_eq ha hb
  by_cases hfree : (s.mem.node a).status = c4aStatusFree ∧
    (s.mem.node b).status = c4aStatusFree ∧ (s.mem.node a).bucket = (s.mem.node b).bucket
  · refine .inr ?_
    rw [decide_eq_true hfree] at hcan
    obtain ⟨hsta, hstb, hbk⟩ := hfree
    have hcell : s.mem.cell b = s.mem.cell a := by rw [Mem.cell, Mem.cell, hsta, hstb, hbk]
    obtain ⟨s₁, F₁, nxt₁, prv₁, hrun₁, hrel₁, hfree₁, hinv₁, hnull₁⟩ := h.unlink hnull ha hsta
    obtain ⟨s₂, F₂, nxt₂, prv₂, hrun₂, hrel₂, hfree₂, hinv₂, hnull₂⟩ :=
      hinv₁.unlink hnull₁ hb (by rw [hrel₁.node b hb, hstb])
    have hbk₂ : ∀ c, Block n C c → (s₂.mem.node c).bucket = (s.mem.node c).bucket := fun c hc => by
      rw [hrel₂.node c hc, hrel₁.node c hc]
    obtain ⟨m', hjoin, hnode, hbucket, hkeep, hfree₃, hinv₃⟩ :=
      hinv₂.join (.inl (.inr rfl)) (.inr rfl) hk hC (by rw [hbk₂ a ha, hbk₂ b hb, hbk])
    have hab : a ≠ b := by
      rintro rfl
      have hnd := (h.phys.tiles k hk).nodup
      simp [hC, List.nodup_append] at hnd
    have hbx : (s.mem.node a).bucket = (s.mem.node x).bucket := by
      rcases hx with rfl | rfl
      · rfl
      · exact hbk
    refine ⟨_, F₂, run_bind hcan (run_bind hrun₁ (run_bind hrun₂ (run_bind hjoin rfl))),
      (hfree₁.trans hfree₂).trans hfree₃, hinv₃.congr_loose fun c => ?_, ?_, ?_, ?_, hcell,
      fun c hc hca => ?_⟩
    · constructor
      · rintro rfl
        exact ⟨.inl (.inr rfl), hab⟩
      · rintro ⟨(hc | hc) | hc, hcb⟩
        · exact hx.elim (fun hxa => hc.trans hxa) fun hxb => absurd (hc.trans hxb) hcb
        · exact hc
        · exact absurd hc hcb
    · rintro c rfl
      simp only [hnode]
      exact hnull₂ c (.inl (.inr rfl))
    · rw [hbucket, hbk₂ a ha, hbx]
    · rw [Mem.cell, hbx, decide_eq_true hsta]
    · rw [hkeep c hc hca, hrel₂.cell hc, hrel₁.cell hc]
  · refine .inl ?_
    rw [decide_eq_false hfree] at hcan
    refine ⟨run_bind hcan rfl, fun hca hcb he => hfree ⟨?_, ?_, ?_⟩⟩
    · exact of_decide_eq_true hca
    · exact of_decide_eq_true hcb
    · exact UInt16.toNat_inj.1 he

/-- The place of a block in its chunk. -/
def At (m : Mem) (C : ℕ → List Ptr) (k : ℕ) (x : Ptr) (p : Place) : Prop :=
  ∃ xs ys, C k = xs ++ x :: ys ∧ p = (xs.map m.cell, (m.node x).bucket.toNat, ys.map m.cell)

/-- The rows of the other chunks when two blocks of a chunk are joined. -/
theorem rows_join {k : ℕ} {xs ys : List Ptr} {m' : Mem} (hP : Phys s n C) (hk : k < n)
    (hC : C k = xs ++ a :: b :: ys)
    (hkeep : ∀ c, Block n C c → c ≠ a → m'.cell c = s.mem.cell c) :
    xs.map m'.cell = xs.map s.mem.cell ∧ ys.map m'.cell = ys.map s.mem.cell ∧
      ∀ j < n, j ≠ k → rows m' (fun j => if j = k then xs ++ a :: ys else C j) j =
        rows s.mem C j := by
  have hmem : ∀ c ∈ xs ++ b :: ys, m'.cell c = s.mem.cell c := fun c hc => by
    obtain ⟨hB, hne⟩ := mem_chunk hP hk hC hc
    exact hkeep c hB hne
  refine ⟨List.map_congr_left fun c hc => hmem c (by simp [hc]),
    List.map_congr_left fun c hc => hmem c (by simp [hc]), fun j hj hjk => ?_⟩
  rw [rows, if_neg hjk, rows]
  refine List.map_congr_left fun c hc => hkeep c ⟨j, hj, hc⟩ ?_
  rintro rfl
  exact hjk (hP.eq_of_mem hj hk hc (by simp [hC]))

/-- The loose block is joined with the one in front of it, or stays. -/
theorem coalesce_below {k : ℕ} {p : Place} (h : Inv s n C F (· = x) U)
    (hnull : NullLinks s.mem (· = x)) (hk : k < n) (hat : At s.mem C k x p) :
    (c4aDoCoalesce s (s.mem.node x).physPrev x = some (false, s) ∧
      ∀ c ∈ p.1.getLast?, Apart c ⟨p.2.1, true⟩) ∨
    ∃ s' C' F' p', c4aDoCoalesce s (s.mem.node x).physPrev x = some (true, s') ∧
      KeepsFree s s' ∧ Inv s' n C' F' (· = (s.mem.node x).physPrev) U ∧
      NullLinks s'.mem (· = (s.mem.node x).physPrev) ∧
      (s'.mem.node (s.mem.node x).physPrev).bucket.toNat = (s.mem.node x).bucket.toNat + 1 ∧
      At s'.mem C' k (s.mem.node x).physPrev p' ∧ Join p p' ∧
      ∀ j < n, j ≠ k → rows s'.mem C' j = rows s.mem C j := by
  obtain ⟨xs, ys, hC, rfl⟩ := hat
  have hprev := ((hC ▸ h.phys.links k hk).links).1
  rcases List.eq_nil_or_concat xs with rfl | ⟨xs, a, rfl⟩
  · refine .inl ⟨run_bind (a := false) ?_ rfl, by simp⟩
    rw [c4aCanCoalesce, if_pos (.inl hprev)]
  · rw [List.concat_eq_append, List.getLastD_concat] at hprev
    rw [List.concat_eq_append, List.append_assoc, List.singleton_append] at hC
    rw [hprev]
    rcases h.doCoalesce hnull (.inr rfl) hk hC with
      ⟨hrun, hap⟩ | ⟨s', F', hrun, hst, hinv, hnull', hbk, hca, -, hkeep⟩
    · refine .inl ⟨hrun, fun c hc => ?_⟩
      simp only [List.concat_eq_append, List.map_append, List.map_cons, List.map_nil,
        List.getLast?_concat, Option.mem_def, Option.some.injEq] at hc
      rw [← hc]
      rwa [h.cell_loose rfl rfl] at hap
    · obtain ⟨hxs, hys, hrows⟩ := rows_join h.phys hk hC hkeep
      refine .inr ⟨s', _, F', _, hrun, hst, hinv, hnull', hbk, ⟨xs, ys, if_pos rfl, rfl⟩, ?_, hrows⟩
      rw [hxs, hys, hbk, List.concat_eq_append, List.map_append, List.map_singleton, hca]
      exact .below

/-- The loose block is joined with the one behind it, or stays. -/
theorem coalesce_above {k : ℕ} {p : Place} (h : Inv s n C F (· = x) U)
    (hnull : NullLinks s.mem (· = x)) (hk : k < n) (hat : At s.mem C k x p) :
    (c4aDoCoalesce s x (s.mem.node x).physNext = some (false, s) ∧
      ∀ c ∈ p.2.2.head?, Apart ⟨p.2.1, true⟩ c) ∨
    ∃ s' C' F' p', c4aDoCoalesce s x (s.mem.node x).physNext = some (true, s') ∧
      KeepsFree s s' ∧ Inv s' n C' F' (· = x) U ∧ NullLinks s'.mem (· = x) ∧
      (s'.mem.node x).bucket.toNat = (s.mem.node x).bucket.toNat + 1 ∧
      At s'.mem C' k x p' ∧ Join p p' ∧
      ∀ j < n, j ≠ k → rows s'.mem C' j = rows s.mem C j := by
  obtain ⟨xs, ys, hC, rfl⟩ := hat
  have hnext := ((hC ▸ h.phys.links k hk).links).2
  cases ys with
  | nil =>
    refine .inl ⟨run_bind (a := false) ?_ rfl, by simp⟩
    rw [c4aCanCoalesce, if_pos (.inr hnext)]
  | cons b ys =>
    rw [List.headD_cons] at hnext
    rw [hnext]
    rcases h.doCoalesce hnull (.inl rfl) hk hC with
      ⟨hrun, hap⟩ | ⟨s', F', hrun, hst, hinv, hnull', hbk, hca, hcb, hkeep⟩
    · refine .inl ⟨hrun, fun c hc => ?_⟩
      simp only [List.map_cons, List.head?_cons, Option.mem_def, Option.some.injEq] at hc
      rw [← hc]
      rwa [h.cell_loose rfl rfl] at hap
    · obtain ⟨hxs, hys, hrows⟩ := rows_join h.phys hk hC hkeep
      refine .inr ⟨s', _, F', _, hrun, hst, hinv, hnull', hbk, ⟨xs, ys, if_pos rfl, rfl⟩, ?_, hrows⟩
      rw [hxs, hys, hbk, List.map_cons, hcb, hca]
      exact .above

/-- The loop ends, with one loose block that has no neighbour to be joined with. -/
theorem coalesceLoop_spec {l : ℕ} (hl : l < n) :
    ∀ {k : ℕ} {s : State} {C F : ℕ → List Ptr} {x : Ptr} {p : Place},
    Inv s n C F (· = x) U → NullLinks s.mem (· = x) → At s.mem C l x p →
    14 < (s.mem.node x).bucket.toNat + k →
    ∃ y s' C' F' p', coalesceLoop k s x = some (y, s') ∧ KeepsFree s s' ∧
      Inv s' n C' F' (· = y) U ∧ At s'.mem C' l y p' ∧ ReflTransGen Join p p' ∧
      (∀ c ∈ p'.1.getLast?, Apart c ⟨p'.2.1, true⟩) ∧
      (∀ c ∈ p'.2.2.head?, Apart ⟨p'.2.1, true⟩ c) ∧
      ∀ j < n, j ≠ l → rows s'.mem C' j = rows s.mem C j
  | 0, s, C, F, x, p, h, _, _, hk => by
    have hle : (s.mem.node x).bucket.toNat ≤ 14 := h.phys.bucket_le (h.loose_free x rfl).1
    omega
  | k + 1, s, C, F, x, p, h, hnull, hat, hk => by
    have hload := h.phys.nodes.load (h.loose_free x rfl).1
    rcases h.coalesce_below hnull hl hat with
      ⟨hbelow, hapb⟩ | ⟨s₁, C₁, F₁, p₁, hbelow, hst₁, h₁, hnull₁, hbk₁, hat₁, hj₁, hrows₁⟩
    · rcases h.coalesce_above hnull hl hat with
        ⟨habove, hapa⟩ | ⟨s₂, C₂, F₂, p₂, habove, hst₂, h₂, hnull₂, hbk₂, hat₂, hj₂, hrows₂⟩
      · exact ⟨x, s, C, F, p,
          run_bind hload (run_bind hbelow (run_bind hload (run_bind habove rfl))), .refl s, h, hat,
          .refl, hapb, hapa, fun _ _ _ => rfl⟩
      · obtain ⟨y, s', C', F', p', hrun, hst, hinv, hat', hj, hb, ha, hrows⟩ :=
          coalesceLoop_spec hl (k := k) h₂ hnull₂ hat₂ (by omega)
        exact ⟨y, s', C', F', p',
          run_bind hload (run_bind hbelow (run_bind hload (run_bind habove hrun))),
          hst₂.trans hst, hinv, hat', .head hj₂ hj, hb, ha,
          fun j hjn hjl => (hrows j hjn hjl).trans (hrows₂ j hjn hjl)⟩
    · have hload₁ := h₁.phys.nodes.load (h₁.loose_free _ rfl).1
      rcases h₁.coalesce_above hnull₁ hl hat₁ with
        ⟨habove, -⟩ | ⟨s₂, C₂, F₂, p₂, habove, hst₂, h₂, hnull₂, hbk₂, hat₂, hj₂, hrows₂⟩
      · obtain ⟨y, s', C', F', p', hrun, hst, hinv, hat', hj, hb, ha, hrows⟩ :=
          coalesceLoop_spec hl (k := k) h₁ hnull₁ hat₁ (by omega)
        exact ⟨y, s', C', F', p',
          run_bind hload (run_bind hbelow (run_bind hload₁ (run_bind habove hrun))),
          hst₁.trans hst, hinv, hat', .head hj₁ hj, hb, ha,
          fun j hjn hjl => (hrows j hjn hjl).trans (hrows₁ j hjn hjl)⟩
      · obtain ⟨y, s', C', F', p', hrun, hst, hinv, hat', hj, hb, ha, hrows⟩ :=
          coalesceLoop_spec hl (k := k) h₂ hnull₂ hat₂ (by omega)
        exact ⟨y, s', C', F', p',
          run_bind hload (run_bind hbelow (run_bind hload₁ (run_bind habove hrun))),
          (hst₁.trans hst₂).trans hst, hinv, hat', .head hj₁ (.head hj₂ hj), hb, ha,
          fun j hjn hjl =>
            (hrows j hjn hjl).trans ((hrows₂ j hjn hjl).trans (hrows₁ j hjn hjl))⟩

theorem keepsFree_release (hP : Phys s n C) (hB : Block n C a) :
    KeepsFree s ⟨s.heap, s.mem.update a fun n =>
      { n with status := c4aStatusFree, next := 0, previous := 0 }⟩ := by
  have hkeeps : StaysFree (s.heap.start.toNat % 32) s.mem (s.mem.update a fun n =>
      { n with status := c4aStatusFree, next := 0, previous := 0 }) :=
    .update (hP.grid hB) fun _ _ => rfl
  exact ⟨rfl, hkeeps⟩

/-- **`c4a_free` of a used block returns, and the block is no longer used.** -/
theorem free {p : Ptr} (h : Inv s n C F (fun _ => False) U) (ha : U a i)
    (hp : p - UInt32.ofNat nodeSize = a) :
    ∃ s' C' F', c4aFree s p = some s' ∧ KeepsFree s s' ∧
      (s'.mem.node a).status = c4aStatusFree ∧
      Inv s' n C' F' (fun _ => False) (fun b j => U b j ∧ b ≠ a) ∧
      FreeRows n (rows s.mem C) (rows s'.mem C') := by
  obtain ⟨hB, hst, -⟩ := (h.used a i).1 ha
  have hN := h.phys.nodes
  obtain ⟨k, hk, hak⟩ := id hB
  obtain ⟨xs, ys, hC⟩ := List.append_of_mem hak
  have hrel : Inv _ n C F (· = a) _ :=
    (h.release ha).congr_loose fun b => (false_or (b = a)).symm.to_iff
  have hnull : NullLinks (s.mem.update a fun n =>
      { n with status := c4aStatusFree, next := 0, previous := 0 }) (· = a) := by
    rintro b rfl
    rw [hN.node_update hB hB, if_pos rfl]
    exact ⟨rfl, rfl⟩
  have hcell : ∀ b, Block n C b → b ≠ a → (s.mem.update a fun n =>
      { n with status := c4aStatusFree, next := 0, previous := 0 }).cell b = s.mem.cell b :=
    fun b hb hne => by rw [Mem.cell, hN.node_update hB hb, if_neg hne, Mem.cell]
  obtain ⟨y, s₁, C₁, F₁, p', hrun, hcoalesced, hinv, hat, hjoin, hbelow, habove, hrows⟩ :=
    coalesceLoop_spec hk (k := 2 ^ 16) hrel hnull ⟨xs, ys, hC, rfl⟩ (by omega)
  obtain ⟨s', nxt, prv, hins, hrel', hfree', hinv'⟩ := hinv.insert rfl rfl
  have hfree := hcoalesced.trans hfree'
  have hreleased := keepsFree_release h.phys hB
  have hself : (s'.mem.node a).status = c4aStatusFree :=
    hfree.free a (h.phys.grid hB) (by rw [hN.node_update hB hB, if_pos rfl])
  refine ⟨s', C₁, _, ?_, hreleased.trans hfree, hself, hinv'.congr_loose fun b => ?_, ?_⟩
  · rw [c4aFree, hp]
    refine run_bind (hN.load hB) ?_
    rw [if_neg (not_not.2 hst)]
    exact run_bind (hN.modify hB) <| run_bind hrun <|
      run_bind (hinv.phys.nodes.load (hinv.loose_free y rfl).1) hins
  · exact ⟨False.elim, fun hb => hb.2 hb.1⟩
  · have hbk : ((s.mem.update a fun n => { n with
        status := c4aStatusFree, next := 0, previous := 0 }).node a).bucket =
        (s.mem.node a).bucket := by
      rw [hN.node_update hB hB, if_pos rfl]
    have hmap : ∀ l : List Ptr, (∀ b ∈ l, b ∈ xs ++ ys) → l.map (s.mem.update a fun n =>
        { n with status := c4aStatusFree, next := 0, previous := 0 }).cell = l.map s.mem.cell :=
      fun l hl => List.map_congr_left fun b hb => by
        obtain ⟨hBb, hne⟩ := mem_chunk h.phys hk hC (hl b hb)
        exact hcell b hBb hne
    rw [hmap xs fun b hb => by simp [hb], hmap ys fun b hb => by simp [hb], hbk] at hjoin
    obtain ⟨xs', ys', hC₁, rfl⟩ := hat
    have hrow : ∀ j < n, rows s'.mem C₁ j = rows s₁.mem C₁ j := fun j hj =>
      List.map_congr_left fun b hb => hrel'.cell ⟨j, hj, hb⟩
    have hR : rows s.mem C k = xs.map s.mem.cell ++ ⟨(s.mem.node a).bucket.toNat, false⟩ ::
        ys.map s.mem.cell := by
      rw [rows, hC, List.map_append, List.map_cons, Mem.cell, hst,
        decide_eq_false used_ne_free]
    refine .intro hk hR (.intro hjoin hbelow habove) fun j hj => ?_
    · rw [hrow j hj]
      split
      · next hjk =>
        rw [hjk, rows, hC₁, List.map_append, List.map_cons, hinv.cell_loose rfl rfl]
      · next hjk =>
        rw [hrows j hj hjk]
        refine List.map_congr_left fun b hb => hcell b ⟨j, hj, hb⟩ ?_
        rintro rfl
        exact hjk (h.phys.eq_of_mem hj hk hb hak)

end Inv

end C4OS.C4alloc
