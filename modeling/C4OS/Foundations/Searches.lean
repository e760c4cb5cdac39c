import C4OS.Foundations.Histories
import Mathlib.Data.List.Basic

/-!
# Searches that print

Code over a state that has an output prints a list when it appends it, from every state
(`Prints`); the code may stop in between. A loop over a list searches for a result: a turn goes on,
leaves the loop, or ends the search (`search`). Nested loops whose turns go to some items, one after
the other, print like one walk over all of these items (`Prints.search`), and the walk is made of
what is done at each item (`walk`).
-/

namespace C4OS.Foundations

variable {σ ι κ α β W : Type} {out : σ → List W} {m : Code σ α} {k : α → Code σ β} {a : α}
  {l l' : List W}

/-- From every state, the code has the result and appends the list to the output. -/
def Prints (out : σ → List W) (m : Code σ α) (r : Option α) (l : List W) : Prop :=
  ∀ s, (m s).1 = r ∧ out (m s).2 = out s ++ l

namespace Prints

theorem pure (a : α) : Prints out (pure a : Code σ α) (some a) [] :=
  fun _ => ⟨rfl, (List.append_nil _).symm⟩

theorem failure : Prints out (failure : Code σ α) none [] :=
  fun _ => ⟨rfl, (List.append_nil _).symm⟩

theorem bind {r : Option β} (hm : Prints out m (some a) l) (hk : Prints out (k a) r l') :
    Prints out (m >>= k) r (l ++ l') := by
  intro s
  obtain ⟨hfirst, hout⟩ := hm s
  rcases hms : m s with ⟨_, t⟩
  rw [hms] at hfirst hout
  obtain rfl : _ = some a := hfirst
  obtain ⟨hrest, hout'⟩ := hk t
  rw [Code.bind_some hms]
  refine ⟨hrest, hout'.trans ?_⟩
  have hfirst' : out t = out s ++ l := hout
  rw [hfirst', List.append_assoc]

/-- Code that prints nothing in front. -/
theorem bind_silent {r : Option β} (hm : Prints out m (some a) []) (hk : Prints out (k a) r l) :
    Prints out (m >>= k) r l :=
  hm.bind hk

theorem bind_none (hm : Prints out m none l) : Prints out (m >>= k) none l := by
  intro s
  obtain ⟨hfirst, hout⟩ := hm s
  rcases hms : m s with ⟨_, t⟩
  rw [hms] at hfirst hout
  obtain rfl : _ = none := hfirst
  rw [Code.bind_none hms]
  exact ⟨rfl, hout⟩

end Prints

/-- What a turn of a loop ends with. -/
inductive TurnEnd (β : Type)
  | next
  | leave
  | result (b : β)

/-- The turn goes on, unless there is a result. -/
def TurnEnd.ofResult : Option β → TurnEnd β
  | none => .next
  | some b => .result b

/-- A loop that searches for a result. -/
def search (body : ι → Code σ (TurnEnd β)) : List ι → Code σ (Option β)
  | [] => pure none
  | i :: is => do
    match ← body i with
    | .next => search body is
    | .leave => pure none
    | .result b => pure (some b)

/-- A walk over items, with what is printed at each of them, up to the first result or to where the
program stops. -/
def walk (visit : ι → Option (Option β) × List W) : List ι → Option (Option β) × List W
  | [] => (some none, [])
  | i :: is =>
    match visit i with
    | (some none, l) => ((walk visit is).1, l ++ (walk visit is).2)
    | (some (some b), l) => (some (some b), l)
    | (none, l) => (none, l)

variable {visit : κ → Option (Option β) × List W} {body : ι → Code σ (TurnEnd β)} {is : List ι}
  {ks ks' : List κ} {b : β}

theorem walk_append (h : walk visit ks = (some none, l)) :
    walk visit (ks ++ ks') = ((walk visit ks').1, l ++ (walk visit ks').2) := by
  induction ks generalizing l with
  | nil =>
    obtain rfl : l = [] := (congrArg Prod.snd h).symm
    rfl
  | cons k ks ih =>
    rw [walk] at h
    rw [List.cons_append, walk]
    rcases hk : visit k with ⟨_ | _ | b, l₀⟩
    · rw [hk] at h
      cases h
    · rw [hk] at h
      obtain ⟨hrest, rfl⟩ := Prod.mk.inj h
      have hwalk : walk visit ks = (some none, (walk visit ks).2) := by rw [← hrest]
      simp only [ih hwalk, List.append_assoc]
    · rw [hk] at h
      cases h

theorem walk_append_of_ne (h : (walk visit ks).1 ≠ some none) :
    walk visit (ks ++ ks') = walk visit ks := by
  induction ks with
  | nil => exact absurd rfl h
  | cons k ks ih =>
    rw [walk] at h
    rw [List.cons_append, walk, walk]
    rcases hk : visit k with ⟨_ | _ | b, l₀⟩
    · rfl
    · rw [hk] at h
      simp only [ih h]
    · rfl

/-- An inner loop as a turn of the outer one. -/
theorem Prints.ofResult {m : Code σ (Option β)} {r : Option (Option β)} (h : Prints out m r l) :
    Prints out (do let found ← m; return .ofResult found) (r.map TurnEnd.ofResult) l := by
  cases r with
  | none => exact h.bind_none
  | some found =>
    rw [← List.append_nil l]
    exact h.bind (.pure _)

/-- **A loop prints like the walk over the items of its turns.** -/
theorem Prints.search {items : ι → List κ} (h : ∀ i ∈ is,
    Prints out (body i) ((walk visit (items i)).1.map TurnEnd.ofResult) (walk visit (items i)).2) :
    Prints out (search body is) (walk visit (is.flatMap items)).1
      (walk visit (is.flatMap items)).2 := by
  induction is with
  | nil => exact .pure none
  | cons i is ih =>
    obtain ⟨hfirst, hrest⟩ := List.forall_mem_cons.1 h
    rw [List.flatMap_cons]
    rcases hi : walk visit (items i) with ⟨_ | _ | b, l₀⟩
    · rw [walk_append_of_ne (by rw [hi]; simp), hi]
      rw [hi] at hfirst
      exact .bind_none hfirst
    · rw [walk_append hi]
      rw [hi] at hfirst
      exact hfirst.bind (ih hrest)
    · rw [walk_append_of_ne (by rw [hi]; simp), hi, ← List.append_nil l₀]
      rw [hi] at hfirst
      exact hfirst.bind (.pure (some b))

/-- A search that prints nothing finds the first item. -/
theorem walk_find (p : κ → Bool) :
    walk (fun k => (some (if p k then some k else none), ([] : List W))) ks =
      (some (ks.find? p), []) := by
  induction ks with
  | nil => rfl
  | cons k ks ih =>
    rw [walk, List.find?_cons]
    cases hp : p k with
    | true => simp
    | false => simp [ih]

/-- A walk that prints goes up to the first item where the program stops. -/
theorem walk_print (ok : κ → Bool) (text : κ → List W) :
    walk (fun k => (if ok k then some (none : Option β) else none, text k)) ks =
      (if ks.all ok then some none else none,
        (ks.takeWhile ok ++ (ks.dropWhile ok).take 1).flatMap text) := by
  induction ks with
  | nil => rfl
  | cons k ks ih =>
    rw [walk]
    cases hk : ok k with
    | true => simp [ih, hk]
    | false => simp [hk]

end C4OS.Foundations
