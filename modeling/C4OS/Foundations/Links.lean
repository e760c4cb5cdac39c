import Mathlib.Data.List.Nodup

/-!
# Doubly linked lists

A list of distinct elements linked in both directions by two functions. `Seg nxt prv p l q` says
that the elements of `l` follow each other by `nxt` and precede each other by `prv`, with `p` in
front of the first and `q` behind the last element. A segment depends on the links of its elements
alone (`Seg.congr`), and it is cut and joined with `seg_append`; the usual changes of a doubly
linked list are `Seg.push`, `Seg.remove`, `Seg.insertAfter` and `Seg.removeAfter`, each stated for
any new links that differ from the old ones in the places where they have to.
-/

namespace C4OS.Foundations

variable {α : Type*} {nxt prv nxt' prv' : α → α}

/-- The elements of `l` are linked, between `p` and `q`. -/
def Seg (nxt prv : α → α) : α → List α → α → Prop
  | _, [], _ => True
  | p, a :: l, q => prv a = p ∧ nxt a = l.headD q ∧ Seg nxt prv a l q

@[simp] theorem seg_nil {p q : α} : Seg nxt prv p [] q := trivial

@[simp] theorem seg_cons {p q a : α} {l : List α} :
    Seg nxt prv p (a :: l) q ↔ prv a = p ∧ nxt a = l.headD q ∧ Seg nxt prv a l q := Iff.rfl

theorem seg_append {p q : α} {l m : List α} :
    Seg nxt prv p (l ++ m) q ↔
      Seg nxt prv p l (m.headD q) ∧ Seg nxt prv (l.getLastD p) m q := by
  induction l generalizing p with
  | nil => simp
  | cons a l ih =>
    have hhead : (l ++ m).headD q = l.headD (m.headD q) := by cases l <;> rfl
    have hlast : (a :: l).getLastD p = l.getLastD a := by cases l <;> rfl
    rw [List.cons_append, seg_cons, seg_cons, ih, hhead, hlast]
    tauto

theorem headD_reverse (l : List α) (p : α) : l.reverse.headD p = l.getLastD p := by
  rw [List.headD_eq_head?_getD, List.head?_reverse, List.getLastD_eq_getLast?]

/-- A segment read backwards. -/
theorem seg_reverse {p q : α} {l : List α} :
    Seg nxt prv p l q ↔ Seg prv nxt q l.reverse p := by
  induction l generalizing p with
  | nil => exact Iff.rfl
  | cons a l ih =>
    have hlast : l.reverse.getLastD q = l.headD q := by
      rw [← headD_reverse, List.reverse_reverse]
    rw [List.reverse_cons, seg_cons, seg_append, seg_cons, hlast, ih]
    simp only [List.headD_cons, List.headD_nil, seg_nil, and_true]
    tauto

namespace Seg

variable {p q p' q' a t : α} {l xs ys : List α}

theorem congr (h : Seg nxt prv p l q) (hn : ∀ c ∈ l, nxt' c = nxt c)
    (hp : ∀ c ∈ l, prv' c = prv c) : Seg nxt' prv' p l q := by
  induction l generalizing p with
  | nil => trivial
  | cons a l ih =>
    obtain ⟨h₁, h₂, h₃⟩ := h
    refine ⟨?_, ?_, ih h₃ (fun c hc => hn c ?_) fun c hc => hp c ?_⟩
    · rw [hp a List.mem_cons_self, h₁]
    · rw [hn a List.mem_cons_self, h₂]
    · exact List.mem_cons_of_mem _ hc
    · exact List.mem_cons_of_mem _ hc

/-- A segment with another element behind it. -/
theorem relast (h : Seg nxt prv p l q) (hn : ∀ c ∈ l.dropLast, nxt' c = nxt c)
    (hlast : ∀ c ∈ l.getLast?, nxt' c = q') (hp : ∀ c ∈ l, prv' c = prv c) :
    Seg nxt' prv' p l q' := by
  induction l generalizing p with
  | nil => trivial
  | cons a l ih =>
    obtain ⟨h₁, h₂, h₃⟩ := h
    cases l with
    | nil => exact ⟨by rw [hp a (by simp), h₁], hlast a (by simp), trivial⟩
    | cons b l =>
      refine ⟨?_, ?_, ih h₃ (fun c hc => hn c ?_) (fun c hc => hlast c ?_) fun c hc => hp c ?_⟩
      · rw [hp a (by simp), h₁]
      · rw [hn a (by simp), h₂]
        rfl
      · simp [hc]
      · simpa using hc
      · exact List.mem_cons_of_mem _ hc

/-- A segment with another element in front of it. -/
theorem rehead (h : Seg nxt prv p l q) (hn : ∀ c ∈ l, nxt' c = nxt c)
    (hhead : ∀ c ∈ l.head?, prv' c = p') (hp : ∀ c ∈ l.tail, prv' c = prv c) :
    Seg nxt' prv' p' l q := by
  cases l with
  | nil => trivial
  | cons a l =>
    obtain ⟨h₁, h₂, h₃⟩ := h
    refine ⟨hhead a (by simp), by rw [hn a (by simp), h₂], h₃.congr (fun c hc => hn c ?_) hp⟩
    exact List.mem_cons_of_mem _ hc

/-- The links of an element in a segment. -/
theorem links (h : Seg nxt prv p (xs ++ a :: ys) q) :
    prv a = xs.getLastD p ∧ nxt a = ys.headD q := by
  obtain ⟨-, h₂, h₃, -⟩ := seg_append.1 h
  exact ⟨h₂, h₃⟩

end Seg

/-! ## Lists that end in a null pointer

Both ends of the list are the pointer `z`, which is no element of it. The new links are given as a
program makes them: with an assignment to the element a link leads to, whenever it is not `z`.
-/

section Null

variable {z a t : α} {l xs ys : List α}

theorem ne_headD_of_mem_tail {c : α} (hnd : l.Nodup) (hc : c ∈ l.tail) : c ≠ l.headD z := by
  cases l with
  | nil => cases hc
  | cons b l =>
    rintro rfl
    exact (List.nodup_cons.1 hnd).1 hc

theorem headD_eq_of_mem_head? {c : α} (hc : c ∈ l.head?) : c = l.headD z := by
  cases l with
  | nil => cases hc
  | cons b l => exact (Option.some.inj hc).symm

theorem headD_mem (h : l.headD z ≠ z) : l.headD z ∈ l := by
  cases l with
  | nil => exact absurd rfl h
  | cons b l => exact List.mem_cons_self

theorem getLastD_mem (h : l.getLastD z ≠ z) : l.getLastD z ∈ l := by
  cases l with
  | nil => exact absurd rfl h
  | cons b l =>
    rw [List.getLastD_cons]
    exact List.getLastD_mem_cons

theorem getLastD_eq_of_mem_getLast? {c : α} (hc : c ∈ l.getLast?) : c = l.getLastD z := by
  rw [List.getLastD_eq_getLast?, Option.mem_def.1 hc, Option.getD_some]

theorem ne_getLastD_of_mem_dropLast {c : α} (hnd : l.Nodup) (hc : c ∈ l.dropLast) :
    c ≠ l.getLastD z := by
  rcases List.eq_nil_or_concat l with rfl | ⟨l, b, rfl⟩
  · cases hc
  · rw [List.concat_eq_append, List.nodup_append] at hnd
    rw [List.concat_eq_append, List.dropLast_concat] at hc
    rw [List.concat_eq_append, List.getLastD_concat]
    exact hnd.2.2 c hc b (List.mem_singleton_self b)

namespace Seg

/-- The links of an element lead to other elements. -/
theorem neighbours (h : Seg nxt prv z l z) (hnd : l.Nodup) (ha : a ∈ l) :
    (prv a = z ∨ prv a ∈ l ∧ prv a ≠ a) ∧ (nxt a = z ∨ nxt a ∈ l ∧ nxt a ≠ a) := by
  obtain ⟨xs, ys, rfl⟩ := List.append_of_mem ha
  obtain ⟨hprv, hnxt⟩ := h.links
  rw [hprv, hnxt]
  constructor
  · by_cases h₀ : xs.getLastD z = z
    · exact .inl h₀
    · have hmem := getLastD_mem h₀
      exact .inr ⟨List.mem_append_left _ hmem,
        (List.nodup_append.1 hnd).2.2 _ hmem _ List.mem_cons_self⟩
  · by_cases h₀ : ys.headD z = z
    · exact .inl h₀
    · have hmem := headD_mem h₀
      refine .inr ⟨List.mem_append_right _ (List.mem_cons_of_mem _ hmem), fun he => ?_⟩
      exact (List.nodup_cons.1 (List.nodup_append.1 hnd).2.1).1 (he ▸ hmem)

/-- The link of an element leads to the one behind it. -/
theorem exists_behind (h : Seg nxt prv z l z) (ha : a ∈ l) (hne : nxt a ≠ z) :
    ∃ xs ys, l = xs ++ a :: nxt a :: ys := by
  obtain ⟨xs, ys, rfl⟩ := List.append_of_mem ha
  cases ys with
  | nil => exact absurd h.links.2 hne
  | cons b ys => exact ⟨xs, ys, by rw [h.links.2]; rfl⟩

variable [DecidableEq α]

/-- A new first element. -/
theorem push (h : Seg nxt prv z l z) (hnd : l.Nodup) (hprv : prv' t = z)
    (hnxt : nxt' t = l.headD z) (hn : ∀ c ∈ l, nxt' c = nxt c)
    (hp : ∀ c ∈ l, prv' c = if c = l.headD z then t else prv c) : Seg nxt' prv' z (t :: l) z := by
  refine ⟨hprv, hnxt, h.rehead hn (fun c hc => ?_) fun c hc => ?_⟩
  · rw [hp c (List.mem_of_mem_head? hc), if_pos (headD_eq_of_mem_head? hc)]
  · rw [hp c (List.mem_of_mem_tail hc), if_neg (ne_headD_of_mem_tail hnd hc)]

/-- A new last element. -/
theorem concat (h : Seg nxt prv z l z) (hnd : l.Nodup) (hnxt : nxt' t = z)
    (hprv : prv' t = l.getLastD z) (hn : ∀ c ∈ l, nxt' c = if c = l.getLastD z then t else nxt c)
    (hp : ∀ c ∈ l, prv' c = prv c) : Seg nxt' prv' z (l ++ [t]) z := by
  rw [seg_reverse] at h ⊢
  rw [List.reverse_append, List.reverse_singleton, List.singleton_append]
  refine h.push (List.nodup_reverse.2 hnd) hnxt ?_ (fun c hc => hp c (List.mem_reverse.1 hc))
    fun c hc => ?_
  · rw [headD_reverse, hprv]
  · rw [headD_reverse, hn c (List.mem_reverse.1 hc)]

/-- An element is taken out. -/
theorem remove (h : Seg nxt prv z (xs ++ a :: ys) z) (hz : z ∉ xs ++ ys) (hnd : (xs ++ ys).Nodup)
    (hn : ∀ c ∈ xs ++ ys, nxt' c = if c = prv a then nxt a else nxt c)
    (hp : ∀ c ∈ xs ++ ys, prv' c = if c = nxt a then prv a else prv c) :
    Seg nxt' prv' z (xs ++ ys) z := by
  obtain ⟨h₁, h₂, h₃, h₄⟩ := seg_append.1 h
  rw [h₂, h₃] at hn hp
  obtain ⟨hxs, hys, hdisj⟩ := List.nodup_append.1 hnd
  simp only [List.mem_append, not_or] at hz hn hp
  refine seg_append.2 ⟨h₁.relast (fun c hc => ?_) (fun c hc => ?_) fun c hc => ?_,
    h₄.rehead (fun c hc => ?_) (fun c hc => ?_) fun c hc => ?_⟩
  · have hcx := List.dropLast_subset xs hc
    rw [hn c (.inl hcx), if_neg (ne_getLastD_of_mem_dropLast hxs hc)]
  · rw [hn c (.inl (List.mem_of_mem_getLast? hc)), if_pos (getLastD_eq_of_mem_getLast? hc)]
  · rw [hp c (.inl hc), if_neg]
    rintro rfl
    have hmem := headD_mem (l := ys) (z := z) fun he => hz.1 (he ▸ hc)
    exact hdisj _ hc _ hmem rfl
  · rw [hn c (.inr hc), if_neg]
    rintro rfl
    have hmem := getLastD_mem (l := xs) (z := z) fun he => hz.2 (he ▸ hc)
    exact hdisj _ hmem _ hc rfl
  · rw [hp c (.inr (List.mem_of_mem_head? hc)), if_pos (headD_eq_of_mem_head? hc)]
  · rw [hp c (.inr (List.mem_of_mem_tail hc)), if_neg (ne_headD_of_mem_tail hys hc)]

/-- An element of the list is erased. -/
theorem erase (h : Seg nxt prv z l z) (ha : a ∈ l) (hz : z ∉ l) (hnd : l.Nodup)
    (hn : ∀ c ∈ l.erase a, nxt' c = if c = prv a then nxt a else nxt c)
    (hp : ∀ c ∈ l.erase a, prv' c = if c = nxt a then prv a else prv c) :
    Seg nxt' prv' z (l.erase a) z ∧
      (l.erase a).headD z = if a = l.headD z then nxt a else l.headD z := by
  obtain ⟨xs, ys, rfl⟩ := List.append_of_mem ha
  have hax : a ∉ xs := fun hx => (List.nodup_append.1 hnd).2.2 a hx a List.mem_cons_self rfl
  have herase : (xs ++ a :: ys).erase a = xs ++ ys := by
    rw [List.erase_append_right _ hax, List.erase_cons_head]
  have hsub := List.erase_sublist (a := a) (l := xs ++ a :: ys)
  rw [herase] at hn hp hsub ⊢
  refine ⟨h.remove (fun hz' => hz (hsub.subset hz')) (hnd.sublist hsub) hn hp, ?_⟩
  cases xs with
  | nil => exact (h.2.1.symm).trans (if_pos rfl).symm
  | cons x xs =>
    rw [if_neg]
    · rfl
    · rintro rfl
      exact hax List.mem_cons_self

/-- The last element after another one is erased. -/
theorem getLastD_erase (h : Seg nxt prv z l z) (ha : a ∈ l) (hz : z ∉ l) (hnd : l.Nodup) :
    (l.erase a).getLastD z = if a = l.getLastD z then prv a else l.getLastD z := by
  have hreverse : l.reverse.erase a = (l.erase a).reverse := by
    rw [(List.nodup_reverse.2 hnd).erase_eq_filter, hnd.erase_eq_filter, List.filter_reverse]
  have herase := ((seg_reverse.1 h).erase (List.mem_reverse.2 ha) (mt List.mem_reverse.1 hz)
    (List.nodup_reverse.2 hnd) (fun _ _ => rfl) fun _ _ => rfl).2
  rwa [hreverse, headD_reverse, headD_reverse] at herase

/-- The elements up to `a` keep their links when the one in front of those behind it changes. -/
theorem front (h : Seg nxt prv z xs a) (ha : prv a = xs.getLastD z) (hz : z ∉ xs ++ a :: ys)
    (hnd : (xs ++ a :: ys).Nodup) (hn : ∀ c ∈ xs, nxt' c = nxt c)
    (hp : ∀ c ∈ xs ++ [a], prv' c = if c = ys.headD z then t else prv c) :
    Seg nxt' prv' z xs a ∧ prv' a = xs.getLastD z := by
  have hkeep : ∀ c ∈ xs ++ [a], prv' c = prv c := by
    intro c hc
    have hc' : c ∈ xs ++ a :: ys := by
      rw [List.append_cons]
      exact List.mem_append_left _ hc
    rw [hp c hc, if_neg]
    rintro rfl
    have hmem := headD_mem (l := ys) (z := z) fun he => hz (he ▸ hc')
    rw [List.append_cons] at hnd
    exact (List.nodup_append.1 hnd).2.2 _ hc _ hmem rfl
  refine ⟨h.congr hn fun c hc => hkeep c (List.mem_append_left _ hc), ?_⟩
  rw [hkeep a (by simp), ha]

/-- A new element behind another one. -/
theorem insertAfter (h : Seg nxt prv z (xs ++ a :: ys) z) (hz : z ∉ xs ++ a :: ys)
    (hnd : (xs ++ a :: ys).Nodup) (hna : nxt' a = t) (hnt : nxt' t = nxt a) (hpt : prv' t = a)
    (hn : ∀ c ∈ xs ++ ys, nxt' c = nxt c)
    (hp : ∀ c ∈ xs ++ a :: ys, prv' c = if c = nxt a then t else prv c) :
    Seg nxt' prv' z (xs ++ a :: t :: ys) z := by
  obtain ⟨h₁, h₂, h₃, h₄⟩ := seg_append.1 h
  rw [h₃] at hp
  have hys : ys.Nodup := (List.nodup_cons.1 (List.nodup_append.1 hnd).2.1).2
  obtain ⟨h₅, h₆⟩ := h₁.front h₂ hz hnd (fun c hc => hn c (List.mem_append_left _ hc))
    fun c hc => hp c (by simp at hc ⊢; tauto)
  refine seg_append.2 ⟨h₅, h₆, hna, hpt, hnt.trans h₃,
    h₄.rehead (fun c hc => hn c (List.mem_append_right _ hc)) (fun c hc => ?_) fun c hc => ?_⟩
  · have := List.mem_of_mem_head? hc
    rw [hp c (by simp [this]), if_pos (headD_eq_of_mem_head? hc)]
  · have := List.mem_of_mem_tail hc
    rw [hp c (by simp [this]), if_neg (ne_headD_of_mem_tail hys hc)]

/-- The element behind another one is taken out. -/
theorem removeAfter (h : Seg nxt prv z (xs ++ a :: t :: ys) z) (hz : z ∉ xs ++ a :: ys)
    (hnd : (xs ++ a :: ys).Nodup) (hna : nxt' a = nxt t) (hn : ∀ c ∈ xs ++ ys, nxt' c = nxt c)
    (hp : ∀ c ∈ xs ++ a :: ys, prv' c = if c = nxt t then a else prv c) :
    Seg nxt' prv' z (xs ++ a :: ys) z := by
  obtain ⟨h₁, h₂, -, -, h₃, h₄⟩ := seg_append.1 h
  rw [h₃] at hp
  have hys : ys.Nodup := (List.nodup_cons.1 (List.nodup_append.1 hnd).2.1).2
  obtain ⟨h₅, h₆⟩ := h₁.front h₂ hz hnd (fun c hc => hn c (List.mem_append_left _ hc))
    fun c hc => hp c (by simp at hc ⊢; tauto)
  refine seg_append.2 ⟨h₅, h₆, hna.trans h₃,
    h₄.rehead (fun c hc => hn c (List.mem_append_right _ hc)) (fun c hc => ?_) fun c hc => ?_⟩
  · have := List.mem_of_mem_head? hc
    rw [hp c (by simp [this]), if_pos (headD_eq_of_mem_head? hc)]
  · have := List.mem_of_mem_tail hc
    rw [hp c (by simp [this]), if_neg (ne_headD_of_mem_tail hys hc)]

end Seg

end Null

end C4OS.Foundations
