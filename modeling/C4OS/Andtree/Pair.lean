import C4OS.Andtree.Operations

/-!
# Two trees in one memory

Two trees that share a memory, and with it the sentinel, but no node. `Pair m t u D E` says that
`t` holds the data `D` and `u` the data `E`, in order. An operation on one tree leaves the other
as it is, so a user that keeps data in two trees can follow both as sequences of data, without
looking at a node.
-/

namespace C4OS.Andtree

open Foundations

/-- Two trees without common nodes, with data `D` and `E`. -/
def Pair (m : Mem) (t u : AndTree) (D E : List Ptr) : Prop :=
  ∃ s r, Holds m t s ∧ Holds m u r ∧ (∀ p ∈ addrs s, p ∉ addrs r) ∧
    s.toList.map Item.data = D ∧ r.toList.map Item.data = E

namespace Pair

variable {m : Mem} {t u : AndTree} {D E : List Ptr} {getKey : Ptr → ℤ}

theorem symm (h : Pair m t u D E) : Pair m u t E D := by
  obtain ⟨s, r, hs, hr, hd, hD, hE⟩ := h
  exact ⟨r, s, hr, hs, fun p hp hp' => hd p hp' hp, hE, hD⟩

/-- The keys of the data are sorted. -/
def Sorted (getKey : Ptr → ℤ) (D : List Ptr) : Prop := D.Pairwise fun a b => getKey a ≤ getKey b

/-- The differences between a key and the keys of the data fit in an `int`. -/
def Fits (getKey : Ptr → ℤ) (key : ℤ) (D : List Ptr) : Prop :=
  ∀ d ∈ D, -2 ^ 31 ≤ key - getKey d ∧ key - getKey d < 2 ^ 31

theorem sortedBy_of {s : AATree Item} (h : Sorted getKey (s.toList.map Item.data)) :
    SortedBy getKey s.toList := by
  rw [Sorted, List.pairwise_map] at h
  exact h

theorem fitsInt_of {s : AATree Item} {key : ℤ} (h : Fits getKey key (s.toList.map Item.data)) :
    FitsInt getKey key s.toList := fun b hb => h b.data (List.mem_map_of_mem hb)

theorem nodes_eq (h : Pair m t u D E) : t.nodes = D.length := by
  obtain ⟨s, r, hs, -, -, rfl, -⟩ := h
  rw [hs.nodes, List.length_map]

/-- The in-order walk through the first tree. -/
theorem inorder_eq (h : Pair m t u D E) :
    (inorder t.fuel m t.root).map (List.map Item.data) = some D := by
  obtain ⟨s, r, hs, -, -, rfl, -⟩ := h
  rw [hs.inorder_eq, Option.map_some]

/-- An insertion into the first tree. -/
theorem insert (h : Pair m t u D E) (calloc : Allocator AndNode) (d : Ptr)
    (hsort : Sorted getKey D) (hfit : Fits getKey (getKey d) D) :
    ∃ m' t' a xs ys, andtreeInsert calloc getKey m t d = some (m', t', a) ∧
      Pair m' t' u (xs ++ d :: ys) E ∧ D = xs ++ ys ∧ Sorted getKey (xs ++ d :: ys) := by
  obtain ⟨s, r, hs, hr, hd, rfl, rfl⟩ := h
  obtain ⟨m', t', a, s', xs, ys, heq, hs', hfresh, hag, hxs, hxs', hle, hlt⟩ :=
    hs.insert calloc d (sortedBy_of hsort) (fitsInt_of hfit)
  have har : a ∉ addrs r := hr.focus.sub.notMem_of_get hfresh
  have hsr : sentinel ∉ addrs r := hr.focus.sub.sentinel_notMem
  refine ⟨m', t', a, xs.map Item.data, ys.map Item.data, heq,
    ⟨s', r, hs', hr.frame (fun p hp => hag p ?_) hs'.focus.sent, ?_, by simp [hxs'], rfl⟩, ?_, ?_⟩
  · rw [Set.mem_insert_iff, mem_footprint]
    rintro (rfl | rfl | hps)
    · exact har hp
    · exact hsr hp
    · exact hd p hps hp
  · intro p hp hpr
    rw [addrs, hxs', List.map_append, List.map_cons, List.mem_append, List.mem_cons] at hp
    have hmem : ∀ b ∈ xs ++ ys, b.addr ∉ addrs r := fun b hb =>
      hd b.addr (List.mem_map_of_mem (hxs ▸ hb))
    rcases hp with hp | rfl | hp
    · obtain ⟨b, hb, rfl⟩ := List.mem_map.1 hp
      exact hmem b (List.mem_append_left _ hb) hpr
    · exact har hpr
    · obtain ⟨b, hb, rfl⟩ := List.mem_map.1 hp
      exact hmem b (List.mem_append_right _ hb) hpr
  · rw [hxs, List.map_append]
  · rw [hxs, List.map_append, Sorted, List.pairwise_append] at hsort
    obtain ⟨hx, hy, hxy⟩ := hsort
    rw [Sorted, List.pairwise_append, List.pairwise_cons]
    simp only [List.forall_mem_map] at hxy ⊢
    refine ⟨hx, ⟨fun y hy => (hlt y hy).le, hy⟩, fun x hx y hy => ?_⟩
    rcases List.mem_cons.1 hy with rfl | hy
    · exact hle x hx
    · obtain ⟨c, hc, rfl⟩ := List.mem_map.1 hy
      exact hxy x hx c hc

/-- The removal of data from the first tree. -/
theorem removeData (h : Pair m t u D E) {d : Ptr} (hsort : Sorted getKey D)
    (hfit : Fits getKey (getKey d) D) (hnd : D.Nodup) (hd : d ∈ D) :
    ∃ m' t', andtreeRemoveData getKey m t d = some (m', t', d) ∧
      Pair m' t' u (D.erase d) E := by
  obtain ⟨s, r, hs, hr, hdisj, rfl, rfl⟩ := h
  rcases hs.removeData (d := d) (sortedBy_of hsort) (fitsInt_of hfit) with
    ⟨m', t', s', b, xs, ys, heq, hs', rfl, hag, hsub, hxs, hdata⟩ | ⟨-, hnone⟩
  · refine ⟨m', t', heq, s', r, hs', hr.frame (fun p hp => hag p ?_) hs'.focus.sent,
      fun p hp => hdisj p (hsub p hp), ?_, rfl⟩
    · rw [mem_footprint]
      rintro (rfl | hps)
      · exact hr.focus.sub.sentinel_notMem hp
      · exact hdisj p hps hp
    · rw [hdata, hxs]
      rw [hxs, List.map_append, List.map_cons, List.nodup_append] at hnd
      rw [List.map_append, List.map_append, List.map_cons, List.erase_append_right,
        List.erase_cons_head]
      exact fun hmem => hnd.2.2 _ hmem b.data (by simp) rfl
  · obtain ⟨b, hb, rfl⟩ := List.mem_map.1 hd
    exact absurd rfl (hnone b hb)

/-- A search by key in the first tree. -/
theorem findKey (h : Pair m t u D E) {key : ℤ} (hsort : Sorted getKey D)
    (hfit : Fits getKey key D) :
    ∃ p, andtreeFindKey getKey m t key = some p ∧
      ((p ≠ null ∧ ∃ n, m.get p = some n ∧ n.data ∈ D ∧ getKey n.data = key) ∨
        (p = null ∧ ∀ d ∈ D, getKey d ≠ key)) := by
  obtain ⟨s, r, hs, -, -, rfl, rfl⟩ := h
  obtain ⟨p, hp, hfound⟩ := findKeyLoop_eq hs.focus.sub hs.focus.sent (sortedBy_of hsort)
    (fitsInt_of hfit) hs.fuel_lt
  refine ⟨p, by rw [andtreeFindKey, hs.root_eq, hp], hfound.imp ?_ ?_⟩
  · rintro ⟨hp0, b, hb, rfl, hkey⟩
    obtain ⟨n, hn, hnd⟩ := hs.focus.sub.get_mem hb
    exact ⟨hp0, n, hn, by rw [hnd]; exact List.mem_map_of_mem hb, by rw [hnd, hkey]⟩
  · rintro ⟨hp0, hnone⟩
    exact ⟨hp0, List.forall_mem_map.2 hnone⟩

/-- A search for a lower bound in the first tree. -/
theorem findAtLeast (h : Pair m t u D E) {key : ℤ} (hsort : Sorted getKey D)
    (hfit : Fits getKey key D) :
    ∃ p, andtreeFindAtLeast getKey m t key = some p ∧
      ((p ≠ null ∧ ∃ n, m.get p = some n ∧ n.data ∈ D ∧ key ≤ getKey n.data ∧
          ∀ d ∈ D, key ≤ getKey d → getKey n.data ≤ getKey d) ∨
        (p = null ∧ ∀ d ∈ D, getKey d < key)) := by
  obtain ⟨s, r, hs, -, -, rfl, rfl⟩ := h
  obtain ⟨p, hp, hfound⟩ := doFindAtLeast_eq hs.focus.sub hs.focus.sent (sortedBy_of hsort)
    (fitsInt_of hfit) hs.fuel_lt
  refine ⟨p, by rw [andtreeFindAtLeast, hs.root_eq, hp], hfound.imp ?_ ?_⟩
  · rintro ⟨hp0, b, hb, rfl, hkey, hmin⟩
    obtain ⟨n, hn, hnd⟩ := hs.focus.sub.get_mem hb
    refine ⟨hp0, n, hn, ?_, by rw [hnd]; exact hkey, ?_⟩
    · rw [hnd]
      exact List.mem_map_of_mem hb
    · rw [hnd]
      exact List.forall_mem_map.2 hmin
  · rintro ⟨hp0, hnone⟩
    exact ⟨hp0, List.forall_mem_map.2 hnone⟩

/-- The node of some data in the first tree, and its neighbours. -/
theorem neighbours (h : Pair m t u D E) {d : Ptr} {xs ys : List Ptr} (hsort : Sorted getKey D)
    (hfit : Fits getKey (getKey d) D) (hnd : D.Nodup) (hD : D = xs ++ d :: ys) :
    ∃ p q r, andtreeFindData getKey m t d = some p ∧ andtreePrevious t.fuel m p = some q ∧
      andtreeNext t.fuel m p = some r ∧
      ((q = null ∧ xs = []) ∨ (q ≠ null ∧ ∃ n xs', m.get q = some n ∧ xs = xs' ++ [n.data])) ∧
      ((r = null ∧ ys = []) ∨ (r ≠ null ∧ ∃ n ys', m.get r = some n ∧ ys = n.data :: ys')) := by
  obtain ⟨s, r, hs, -, -, rfl, rfl⟩ := h
  obtain ⟨p, hp, ⟨-, b, hb, rfl, rfl⟩ | ⟨-, hnone⟩⟩ := findDataLoop_eq hs.focus.sub hs.focus.sent
    (sortedBy_of hsort) (fitsInt_of hfit) hs.fuel_lt
  · obtain ⟨as, bs, hab⟩ := List.append_of_mem hb
    -- the data are distinct, so the two splits of the sequence are the same
    obtain ⟨rfl, rfl⟩ : as.map Item.data = xs ∧ bs.map Item.data = ys := by
      rw [hab, List.map_append, List.map_cons] at hD hnd
      rw [List.nodup_append, List.nodup_cons] at hnd
      obtain ⟨-, ⟨hbs, -⟩, has⟩ := hnd
      have hnot : b.data ∉ as.map Item.data := fun hm => has _ hm b.data (by simp) rfl
      obtain ⟨h₁, -, h₂⟩ := (List.append_cons_inj_of_notMem hnot hbs).1 hD
      exact ⟨h₁, h₂⟩
    refine ⟨b.addr, lastAddr as, headAddr bs, by rw [andtreeFindData, hs.root_eq, hp],
      andtreePrevious_eq hs.focus hab hs.fuel_lt, andtreeNext_eq hs.focus hab hs.fuel_lt, ?_, ?_⟩
    · rcases List.eq_nil_or_concat as with rfl | ⟨cs, c, rfl⟩
      · exact .inl ⟨rfl, rfl⟩
      · obtain ⟨n, hn, hnd⟩ := hs.focus.sub.get_mem (c := c) (by simp [hab])
        refine .inr ⟨?_, n, cs.map Item.data, ?_, ?_⟩
        · simpa [lastAddr] using Store.ne_zero_of_get hn
        · simpa [lastAddr] using hn
        · simp [hnd]
    · cases bs with
      | nil => exact .inl ⟨rfl, rfl⟩
      | cons c cs =>
        obtain ⟨n, hn, hnd⟩ := hs.focus.sub.get_mem (c := c) (by simp [hab])
        refine .inr ⟨?_, n, cs.map Item.data, ?_, ?_⟩
        · simpa [headAddr] using Store.ne_zero_of_get hn
        · simpa [headAddr] using hn
        · simp [hnd]
  · have hmem : d ∈ s.toList.map Item.data := by simp [hD]
    obtain ⟨b, hb, rfl⟩ := List.mem_map.1 hmem
    exact absurd rfl (hnone b hb)

end Pair

end C4OS.Andtree
