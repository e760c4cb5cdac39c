import C4OS.Andtree.Runs
import Mathlib.Order.Bounds.Basic

/-!
# Lookups in the balanced trees

The three searches of `andtree.c` in the states of a run, where several data may share a key and
the rotations have moved them to either side of each other. The stored data are read off the nodes
that can be reached from the root (`State.Stored`).

* `andtree_lookups_exact`: the searches by key and by data return a node with what they look for
  exactly when one is stored.
* `andtree_find_at_least_exact`: the search for a lower bound returns a node with the least stored
  key that is at least the given one, or `NULL` when all stored keys are below.
-/

namespace C4OS.Andtree

open Foundations

/-- The node `p` is in the tree and its data is `d`. -/
def State.Stored (st : State) (p d : Ptr) : Prop :=
  InTree st.mem st.tree p ∧ ∃ n, st.mem.get p = some n ∧ n.data = d

/-- The result of a lookup: not `NULL` exactly when some stored data has the property, and then a
node whose data has it. -/
def State.Exact (st : State) (P : Ptr → Prop) (p : Ptr) : Prop :=
  (p ≠ null ↔ ∃ q d, st.Stored q d ∧ P d) ∧ (p ≠ null → ∃ d, st.Stored p d ∧ P d)

section Stored

variable {st : State} {s : AATree Item}

/-- The stored data are the items of the in-order list. -/
theorem State.Inv.stored_iff (h : st.Inv s) {p d : Ptr} : st.Stored p d ↔ ⟨p, d⟩ ∈ s.toList := by
  unfold State.Stored
  rw [h.1.inTree_iff]
  constructor
  · rintro ⟨hp, n, hn, rfl⟩
    obtain ⟨b, hb, rfl⟩ := List.mem_map.1 hp
    obtain ⟨n', hn', hdata⟩ := h.1.focus.sub.get_mem hb
    obtain rfl : n' = n := Option.some.inj (hn'.symm.trans hn)
    rw [hdata]
    exact hb
  · intro hb
    exact ⟨List.mem_map_of_mem hb, h.1.focus.sub.get_mem hb⟩

theorem State.Inv.exact_of_found (h : st.Inv s) {P : Ptr → Prop} {p : Ptr}
    (hp : Found (fun b => P b.data) s.toList p) : st.Exact P p := by
  rcases hp with ⟨hp, b, hb, rfl, hP⟩ | ⟨rfl, hnone⟩
  · have hstored : st.Stored b.addr b.data := h.stored_iff.2 hb
    exact ⟨⟨fun _ => ⟨_, _, hstored, hP⟩, fun _ => hp⟩, fun _ => ⟨_, hstored, hP⟩⟩
  · refine ⟨⟨fun hne => absurd rfl hne, ?_⟩, fun hne => absurd rfl hne⟩
    rintro ⟨q, d, hd, hP⟩
    exact absurd hP (hnone _ (h.stored_iff.1 hd))

end Stored

/-- The stored keys and their differences are `int`s. -/
def State.KeysFit (st : State) : Prop :=
  ∃ l, st.items = some l ∧
    ∀ b ∈ l, IsInt (st.getKey b.data) ∧ FitsInt st.getKey (st.getKey b.data) l

/-- **Lookups are sound and complete.** In every state of a run `andtree_find_key` returns a node
with the key exactly when the tree has one, and `andtree_find_data` a node with the data exactly
when the data is in the tree, whatever else shares its key. The key that is looked up is any
`int`: its differences with the stored keys may wrap. -/
theorem andtree_lookups_exact {st : State} (h : Reachable st) (hfit : st.KeysFit) :
    (∀ key, IsInt key → ∃ p, andtreeFindKey st.getKey st.mem st.tree key = some p ∧
      st.Exact (fun d => st.getKey d = key) p) ∧
    ∀ d, ∃ p, andtreeFindData st.getKey st.mem st.tree d = some p ∧ st.Exact (· = d) p := by
  obtain ⟨s, hs⟩ := h.inv
  obtain ⟨l, hl, hfit⟩ := hfit
  obtain rfl : s.toList = l := Option.some.inj (hs.items_eq.symm.trans hl)
  have hsent := hs.1.focus.sent
  refine ⟨fun key hkey => ?_, fun d => ?_⟩
  · unfold andtreeFindKey
    rw [hs.1.root_eq]
    by_cases hstored : ∃ b ∈ s.toList, st.getKey b.data = key
    · obtain ⟨b, hb, rfl⟩ := hstored
      obtain ⟨p, hp, hfound⟩ :=
        findKeyLoop_eq hs.1.focus.sub hsent hs.2 (hfit b hb).2 hs.1.fuel_lt
      exact ⟨p, hp, hs.exact_of_found hfound⟩
    · refine ⟨null, findKeyLoop_null hs.1.focus.sub hsent (fun b hb hz => ?_) hs.1.fuel_lt,
        hs.exact_of_found (.inr ⟨rfl, fun b hb heq => hstored ⟨b, hb, heq⟩⟩)⟩
      exact hstored ⟨b, hb, (intSub_eq_zero hkey (hfit b hb).1 hz).symm⟩
  · unfold andtreeFindData
    rw [hs.1.root_eq]
    by_cases hstored : ∃ b ∈ s.toList, b.data = d
    · obtain ⟨b, hb, rfl⟩ := hstored
      obtain ⟨p, hp, hfound⟩ :=
        findDataLoop_eq hs.1.focus.sub hsent hs.2 (hfit b hb).2 hs.1.fuel_lt
      exact ⟨p, hp, hs.exact_of_found hfound⟩
    · exact ⟨null, findDataLoop_null hs.1.focus.sub hsent (fun b hb heq => hstored ⟨b, hb, heq⟩)
        hs.1.fuel_lt, hs.exact_of_found (.inr ⟨rfl, fun b hb heq => hstored ⟨b, hb, heq⟩⟩)⟩

/-- Three of four data share a key; the difference of the least `int` and a stored key wraps. -/
theorem andtree_lookups_exact_dupes : ∃ st, Reachable st ∧
    (∃ p, andtreeFindKey st.getKey st.mem st.tree 5 = some p ∧
      st.Exact (fun d => st.getKey d = 5) p) ∧
    (∃ p, andtreeFindKey st.getKey st.mem st.tree (-2 ^ 31) = some p ∧
      st.Exact (fun d => st.getKey d = -2 ^ 31) p) ∧
    ∃ p, andtreeFindData st.getKey st.mem st.tree 11 = some p ∧ st.Exact (· = 11) p := by
  have h₁ := State.start_reachable.step (.insert .bump 10) ⟨_, rfl, by decide⟩ rfl
  have h₂ := h₁.step (.insert .bump 11) ⟨_, rfl, by decide⟩ rfl
  have h₃ := h₂.step (.insert .bump 10) ⟨_, rfl, by decide⟩ rfl
  have h₄ := h₃.step (.insert .bump 8) ⟨_, rfl, by decide⟩ rfl
  obtain ⟨hkey, hdata⟩ := andtree_lookups_exact h₄ ⟨_, rfl, by decide⟩
  exact ⟨_, h₄, hkey 5 (by decide), hkey (-2 ^ 31) (by decide), hdata 11⟩

/-- **Find-at-least is exact.** In every state of a run `andtree_find_at_least` returns `NULL`
exactly when all stored keys are below the given one, and otherwise a node with the least of the
others. -/
theorem andtree_find_at_least_exact {st : State} (h : Reachable st) :
    ∃ l, st.items = some l ∧ ∀ key, FitsInt st.getKey key l → ∃ p,
      andtreeFindAtLeast st.getKey st.mem st.tree key = some p ∧
        (p = null ↔ ∀ q d, st.Stored q d → st.getKey d < key) ∧
        (p ≠ null → ∃ d, st.Stored p d ∧
          IsLeast {k | key ≤ k ∧ ∃ q d, st.Stored q d ∧ st.getKey d = k} (st.getKey d)) := by
  obtain ⟨s, hs⟩ := h.inv
  refine ⟨s.toList, hs.items_eq, fun key hfit => ?_⟩
  obtain ⟨p, hp, hfound⟩ :=
    doFindAtLeast_eq hs.1.focus.sub hs.1.focus.sent hs.2 hfit hs.1.fuel_lt
  unfold andtreeFindAtLeast
  rw [hs.1.root_eq]
  refine ⟨p, hp, ?_⟩
  rcases hfound with ⟨hp, b, hb, rfl, hle, hmin⟩ | ⟨rfl, hbelow⟩
  · have hstored : st.Stored b.addr b.data := hs.stored_iff.2 hb
    refine ⟨⟨fun hnull => absurd hnull hp, fun hbelow => ?_⟩, fun _ => ⟨_, hstored, ?_⟩⟩
    · have := hbelow _ _ hstored
      omega
    · refine ⟨⟨hle, _, _, hstored, rfl⟩, ?_⟩
      rintro _ ⟨hk, q, d, hd, rfl⟩
      exact hmin _ (hs.stored_iff.1 hd) hk
  · refine ⟨⟨fun _ q d hd => hbelow _ (hs.stored_iff.1 hd), fun _ => rfl⟩, ?_⟩
    exact fun hne => absurd rfl hne

/-- Between the stored keys `4` and `7` the bound is `7`, and above `7` there is none. -/
theorem andtree_find_at_least_exact_between : ∃ st, Reachable st ∧
    (∃ p, andtreeFindAtLeast st.getKey st.mem st.tree 5 = some p ∧
      (p ≠ null → ∃ d, st.Stored p d ∧
        IsLeast {k | 5 ≤ k ∧ ∃ q d, st.Stored q d ∧ st.getKey d = k} (st.getKey d))) ∧
    ∃ p, andtreeFindAtLeast st.getKey st.mem st.tree 8 = some p ∧
      (p = null ↔ ∀ q d, st.Stored q d → st.getKey d < 8) := by
  have h₁ := State.start_reachable.step (.insert .bump 14) ⟨_, rfl, by decide⟩ rfl
  have h₂ := h₁.step (.insert .bump 8) ⟨_, rfl, by decide⟩ rfl
  have h₃ := h₂.step (.insert .bump 15) ⟨_, rfl, by decide⟩ rfl
  obtain ⟨l, hl, hfind⟩ := andtree_find_at_least_exact h₃
  obtain rfl : _ = l := Option.some.inj hl
  obtain ⟨p, hp, -, hleast⟩ := hfind 5 (by decide)
  obtain ⟨q, hq, hnull, -⟩ := hfind 8 (by decide)
  exact ⟨_, h₃, ⟨p, hp, hleast⟩, q, hq, hnull⟩

end C4OS.Andtree
