import Mathlib.Data.Finset.Card
import Mathlib.Data.List.Nodup
import Mathlib.Data.Nat.Notation

/-!
# The table of the name server

`bind_name` and `lookup_name` keep endpoints under the hashes of their names, in an array of
`MAX_NAME_ENTRIES` entries that is searched from the front. An entry with the hash zero ends the
table. Binding a name to a table that is full writes behind the array, and has no result here.

The table is meant to be a finite map: `latest` is that map, after a sequence of binds. `Holds` says
which entries a table has, and `bind_holds` what one call does to them. `tableLaw_iff` says for
which sequences the table is the map after every call: all hashes and all endpoints must be
different from zero, and there must be at most `MAX_NAME_ENTRIES` names.
-/

namespace C4OS.Nameserver

/-- A `name_entry_t`. -/
structure NameEntry where
  hash : UInt32
  endpoint : UInt32
  deriving DecidableEq

/-- `MAX_NAME_ENTRIES`. -/
abbrev maxNameEntries : ℕ := 512

/-- The array `names`. -/
structure Names where
  entries : List NameEntry
  length_eq : entries.length = maxNameEntries

/-- The array before the first call. -/
def Names.initial : Names where
  entries := List.replicate maxNameEntries ⟨0, 0⟩
  length_eq := List.length_replicate

/-- The index at which the loop of `bind_name` ends. -/
def bindIndex (name : UInt32) : List NameEntry → ℕ
  | [] => 0
  | entry :: entries =>
    if entry.hash = 0 then 0
    else if name = entry.hash then 0
    else bindIndex name entries + 1

/-- `bind_name`: there is no entry behind the last one. -/
def bindName (names : Names) (endpoint name : UInt32) : Option Names :=
  let i := bindIndex name names.entries
  if i < maxNameEntries then
    some ⟨names.entries.set i ⟨name, endpoint⟩, List.length_set.trans names.length_eq⟩
  else none

/-- The loop of `lookup_name`. -/
def lookupLoop (name : UInt32) : List NameEntry → UInt32
  | [] => 0
  | entry :: entries =>
    if entry.hash = 0 then 0
    else if name = entry.hash then entry.endpoint
    else lookupLoop name entries

/-- `lookup_name`. -/
def lookupName (names : Names) (name : UInt32) : UInt32 := lookupLoop name names.entries

/-- `nameserver_hash` of the bytes in front of the zero; a `char` has a sign. -/
def nameserverHash (str : List UInt8) : UInt32 :=
  str.foldl (fun hash c => (hash <<< 7) + hash + c.toInt8.toInt32.toUInt32) 757

/-! ## Runs -/

/-- The arguments of a call of `bind_name`. -/
structure Bind where
  endpoint : UInt32
  hash : UInt32
  deriving DecidableEq

/-- The calls of `bind_name`, one after another. -/
def bindAll (names : Names) : List Bind → Option Names
  | [] => some names
  | b :: binds => do
    let names ← bindName names b.endpoint b.hash
    bindAll names binds

/-- The finite map that the table is meant to be: the endpoint bound last to each hash. -/
def latest (binds : List Bind) : UInt32 → Option UInt32 :=
  binds.foldl (fun m b => Function.update m b.hash (some b.endpoint)) fun _ => none

/-- The calls return, and every lookup after them gives the endpoint that was bound last, and zero
exactly for the hashes that were never bound. Lookups leave the table as it is, so this also holds
where they stand between the calls. -/
def TableLaw (binds : List Bind) : Prop :=
  ∃ names, bindAll Names.initial binds = some names ∧
    ∀ h, lookupName names h = (latest binds h).getD 0 ∧
      (lookupName names h = 0 ↔ h ∉ binds.map Bind.hash)

/-- Neither hashes nor endpoints are zero, and the table has an entry for every hash. -/
structure Bindable (binds : List Bind) : Prop where
  hash_ne : ∀ b ∈ binds, b.hash ≠ 0
  endpoint_ne : ∀ b ∈ binds, b.endpoint ≠ 0
  card_le : (binds.map Bind.hash).toFinset.card ≤ maxNameEntries

/-! ## The map -/

theorem latest_append (binds : List Bind) (b : Bind) :
    latest (binds ++ [b]) = Function.update (latest binds) b.hash (some b.endpoint) := by
  rw [latest, List.foldl_append]
  rfl

theorem bindAll_append (names : Names) (binds : List Bind) (b : Bind) :
    bindAll names (binds ++ [b]) =
      (bindAll names binds).bind fun names => bindName names b.endpoint b.hash := by
  induction binds generalizing names with
  | nil =>
    show (bindName names b.endpoint b.hash).bind some = bindName names b.endpoint b.hash
    exact Option.bind_fun_some _
  | cons c binds ih =>
    show (bindName names c.endpoint c.hash).bind (fun names => bindAll names (binds ++ [b])) = _
    simp only [ih, bindAll, Option.bind_eq_bind, Option.bind_assoc]

/-- The hashes that are bound are those of the calls. -/
theorem latest_eq_none_iff (binds : List Bind) (h : UInt32) :
    latest binds h = none ↔ h ∉ binds.map Bind.hash := by
  induction binds using List.reverseRecOn with
  | nil => exact ⟨fun _ => List.not_mem_nil, fun _ => rfl⟩
  | append_singleton binds b ih =>
    rw [latest_append, List.map_append, List.mem_append, not_or, ← ih]
    by_cases he : h = b.hash
    · rw [he, Function.update_self]
      simp
    · rw [Function.update_of_ne he]
      simp [he]

/-- What is bound to a hash was the argument of a call. -/
theorem exists_of_latest {binds : List Bind} {h e : UInt32} (hl : latest binds h = some e) :
    ∃ b ∈ binds, b.endpoint = e := by
  induction binds using List.reverseRecOn with
  | nil => cases hl
  | append_singleton binds b ih =>
    rw [latest_append] at hl
    by_cases he : h = b.hash
    · rw [he, Function.update_self] at hl
      exact ⟨b, List.mem_append_right _ (List.mem_singleton_self b), Option.some.inj hl⟩
    · rw [Function.update_of_ne he] at hl
      obtain ⟨c, hc, hce⟩ := ih hl
      exact ⟨c, List.mem_append_left _ hc, hce⟩

/-! ## The entries of a table -/

/-- The map of a list of entries. -/
def assoc (h : UInt32) : List NameEntry → Option UInt32
  | [] => none
  | entry :: entries => if h = entry.hash then some entry.endpoint else assoc h entries

/-- The table has the entries `used`, with different hashes, and is empty behind them. -/
structure Holds (names : Names) (used : List NameEntry) : Prop where
  entries_eq : names.entries =
    used ++ List.replicate (maxNameEntries - used.length) ⟨0, 0⟩
  length_le : used.length ≤ maxNameEntries
  zero_not_mem : 0 ∉ used.map NameEntry.hash
  nodup : (used.map NameEntry.hash).Nodup

theorem assoc_eq_none_iff (h : UInt32) (l : List NameEntry) :
    assoc h l = none ↔ h ∉ l.map NameEntry.hash := by
  induction l with
  | nil => exact ⟨fun _ => List.not_mem_nil, fun _ => rfl⟩
  | cons entry l ih =>
    rw [assoc, List.map_cons, List.mem_cons, not_or, ← ih]
    by_cases he : h = entry.hash
    · simp [he]
    · simp [he]

theorem assoc_append (h : UInt32) (l₁ l₂ : List NameEntry) :
    assoc h (l₁ ++ l₂) = (assoc h l₁).or (assoc h l₂) := by
  induction l₁ with
  | nil => rfl
  | cons entry l₁ ih =>
    rw [List.cons_append, assoc, assoc, ih]
    split <;> rfl

/-- The loop of `bind_name` passes the entries of other names. -/
theorem bindIndex_append {h : UInt32} {l₁ : List NameEntry}
    (hzero : 0 ∉ l₁.map NameEntry.hash) (hout : h ∉ l₁.map NameEntry.hash) (l₂ : List NameEntry) :
    bindIndex h (l₁ ++ l₂) = l₁.length + bindIndex h l₂ := by
  induction l₁ with
  | nil => exact (Nat.zero_add _).symm
  | cons entry l₁ ih =>
    rw [List.map_cons, List.mem_cons, not_or] at hzero hout
    rw [List.cons_append, bindIndex, if_neg (Ne.symm hzero.1), if_neg hout.1, ih hzero.2 hout.2,
      List.length_cons]
    omega

theorem bindIndex_replicate (h : UInt32) (k : ℕ) :
    bindIndex h (List.replicate k ⟨0, 0⟩) = 0 := by
  cases k <;> rfl

/-- Where the loop ends inside the array, the entry there is replaced. -/
theorem bindName_of_lt {names : Names} {name : UInt32} {i : ℕ} (endpoint : UInt32)
    (hindex : bindIndex name names.entries = i) (hi : i < maxNameEntries) :
    ∃ names', bindName names endpoint name = some names' ∧
      names'.entries = names.entries.set i ⟨name, endpoint⟩ := by
  simp only [bindName, hindex, if_pos hi]
  exact ⟨_, rfl, rfl⟩

/-- The loop of `lookup_name` finds what the entries say. -/
theorem lookupLoop_append {l : List NameEntry} (hzero : 0 ∉ l.map NameEntry.hash) (h : UInt32)
    (k : ℕ) : lookupLoop h (l ++ List.replicate k ⟨0, 0⟩) = (assoc h l).getD 0 := by
  induction l with
  | nil => cases k <;> rfl
  | cons entry l ih =>
    rw [List.map_cons, List.mem_cons, not_or] at hzero
    rw [List.cons_append, lookupLoop, if_neg (Ne.symm hzero.1), assoc, ih hzero.2]
    split <;> rfl

/-- Zero is never found. -/
theorem lookupLoop_zero (l : List NameEntry) : lookupLoop 0 l = 0 := by
  induction l with
  | nil => rfl
  | cons entry l ih =>
    rw [lookupLoop, ih]
    split
    · rfl
    · next hne => rw [if_neg (Ne.symm hne)]

/-- An entry of the name changes the map at the name. -/
theorem assoc_update {name : UInt32} {l₁ l₂ l₃ : List NameEntry} (endpoint : UInt32)
    (hout : name ∉ l₁.map NameEntry.hash)
    (hrest : ∀ h ≠ name, assoc h l₂ = assoc h l₃) :
    (fun h => assoc h (l₁ ++ ⟨name, endpoint⟩ :: l₂)) =
      Function.update (fun h => assoc h (l₁ ++ l₃)) name (some endpoint) := by
  funext h
  rw [assoc_append, assoc]
  by_cases he : h = name
  · rw [he, Function.update_self, (assoc_eq_none_iff _ _).2 hout, if_pos rfl]
    rfl
  · rw [Function.update_of_ne he, assoc_append, if_neg he, hrest h he]

namespace Holds

variable {names : Names} {used : List NameEntry} {name : UInt32}

theorem initial : Holds Names.initial [] := by
  constructor
  · rfl
  · exact Nat.zero_le _
  · exact List.not_mem_nil
  · exact List.nodup_nil

theorem lookup (h : Holds names used) (name : UInt32) :
    lookupName names name = (assoc name used).getD 0 := by
  rw [lookupName, h.entries_eq, lookupLoop_append h.zero_not_mem]

theorem bindIndex_of_not_mem (h : Holds names used) (hnew : name ∉ used.map NameEntry.hash) :
    bindIndex name names.entries = used.length := by
  rw [h.entries_eq, bindIndex_append h.zero_not_mem hnew, bindIndex_replicate, Nat.add_zero]

/-- Binding a name again replaces its endpoint. -/
theorem bind_mem (h : Holds names used) (endpoint : UInt32)
    (hmem : name ∈ used.map NameEntry.hash) :
    ∃ names' used', bindName names endpoint name = some names' ∧ Holds names' used' ∧
      (fun h => assoc h used') = Function.update (fun h => assoc h used) name (some endpoint) := by
  obtain ⟨entry, hentry, rfl⟩ := List.mem_map.1 hmem
  obtain ⟨l₁, l₂, rfl⟩ := List.append_of_mem hentry
  have hnodup := h.nodup
  have hzero := h.zero_not_mem
  have hlength := h.length_le
  rw [List.map_append, List.map_cons] at hnodup hzero
  rw [List.length_append, List.length_cons] at hlength
  have hout : entry.hash ∉ l₁.map NameEntry.hash :=
    fun hin => (List.nodup_append.1 hnodup).2.2 _ hin _ List.mem_cons_self rfl
  rw [List.mem_append, not_or, List.mem_cons, not_or] at hzero
  have hindex : bindIndex entry.hash names.entries = l₁.length := by
    rw [h.entries_eq, List.append_assoc, bindIndex_append hzero.1 hout, List.cons_append, bindIndex,
      if_neg (Ne.symm hzero.2.1), if_pos rfl, Nat.add_zero]
  obtain ⟨names', hbind, hentries⟩ := bindName_of_lt endpoint hindex (by omega)
  refine ⟨names', l₁ ++ ⟨entry.hash, endpoint⟩ :: l₂, hbind, ?_, ?_⟩
  · constructor
    · simp [hentries, h.entries_eq]
    · simpa using h.length_le
    · simpa using h.zero_not_mem
    · simpa using h.nodup
  · apply assoc_update endpoint hout
    intro c hc
    rw [assoc, if_neg hc]

/-- Binding a new name adds an entry. -/
theorem bind_new (h : Holds names used) (endpoint : UInt32) (hname : name ≠ 0)
    (hnew : name ∉ used.map NameEntry.hash) (hroom : used.length < maxNameEntries) :
    ∃ names' used', bindName names endpoint name = some names' ∧ Holds names' used' ∧
      (fun h => assoc h used') = Function.update (fun h => assoc h used) name (some endpoint) := by
  obtain ⟨k, hk⟩ := Nat.exists_eq_add_of_lt hroom
  have hrest : maxNameEntries - used.length = k + 1 := by omega
  obtain ⟨names', hbind, hentries⟩ :=
    bindName_of_lt endpoint (h.bindIndex_of_not_mem hnew) hroom
  refine ⟨names', used ++ [⟨name, endpoint⟩], hbind, ?_, ?_⟩
  · constructor
    · have hless : maxNameEntries - (used ++ [(⟨name, endpoint⟩ : NameEntry)]).length = k := by
        rw [List.length_append, List.length_singleton]
        omega
      rw [hentries, h.entries_eq, hrest, hless]
      simp [List.replicate_succ]
    · rw [List.length_append]
      exact hroom
    · simpa [Ne.symm hname] using h.zero_not_mem
    · rw [List.map_append]
      exact h.nodup.append (List.nodup_singleton _) (List.disjoint_singleton.2 hnew)
  · have hup : (fun h => assoc h (used ++ [⟨name, endpoint⟩])) =
        Function.update (fun h => assoc h (used ++ [])) name (some endpoint) :=
      assoc_update endpoint hnew fun _ _ => rfl
    rwa [List.append_nil] at hup

/-- There is no room for another name in a full table. -/
theorem bind_full (h : Holds names used) (endpoint : UInt32)
    (hnew : name ∉ used.map NameEntry.hash) (hfull : used.length = maxNameEntries) :
    bindName names endpoint name = none := by
  simp only [bindName, h.bindIndex_of_not_mem hnew, hfull, Nat.lt_irrefl, if_false]

/-- A table that is the map of the calls has an entry for every hash. -/
theorem length_eq_card {binds : List Bind} (h : Holds names used)
    (hmap : (fun h => assoc h used) = latest binds) :
    used.length = (binds.map Bind.hash).toFinset.card := by
  have hsets : (used.map NameEntry.hash).toFinset = (binds.map Bind.hash).toFinset := by
    ext c
    rw [List.mem_toFinset, List.mem_toFinset, ← not_iff_not, ← assoc_eq_none_iff,
      ← latest_eq_none_iff, ← congrFun hmap c]
  rw [← hsets, List.toFinset_card_of_nodup h.nodup, List.length_map]

end Holds

/-! ## The law -/

/-- A table that is the map of the calls satisfies the law, if no endpoint is zero. -/
theorem Holds.tableLaw {names : Names} {used : List NameEntry} {binds : List Bind}
    (h : Holds names used) (hrun : bindAll Names.initial binds = some names)
    (hmap : (fun h => assoc h used) = latest binds) (hne : ∀ b ∈ binds, b.endpoint ≠ 0) :
    TableLaw binds := by
  refine ⟨names, hrun, fun c => ?_⟩
  have hlookup : lookupName names c = (latest binds c).getD 0 := by
    rw [h.lookup, ← congrFun hmap c]
  refine ⟨hlookup, ?_⟩
  rw [hlookup, ← latest_eq_none_iff]
  cases hl : latest binds c with
  | none => exact iff_of_true rfl rfl
  | some e =>
    obtain ⟨b, hb, rfl⟩ := exists_of_latest hl
    exact iff_of_false (hne b hb) (Option.some_ne_none _)

namespace Bindable

variable {binds : List Bind}

theorem of_prefix {bs : List Bind} (h : Bindable binds) (hbs : bs <+: binds) : Bindable bs := by
  constructor
  · exact fun b hb => h.hash_ne b (hbs.subset hb)
  · exact fun b hb => h.endpoint_ne b (hbs.subset hb)
  · refine Nat.le_trans (Finset.card_le_card ?_) h.card_le
    intro c hc
    rw [List.mem_toFinset] at hc ⊢
    exact (hbs.map Bind.hash).subset hc

/-- What a run leaves in the table. -/
theorem holds (h : Bindable binds) : ∃ names used, bindAll Names.initial binds = some names ∧
    Holds names used ∧ (fun h => assoc h used) = latest binds := by
  induction binds using List.reverseRecOn with
  | nil => exact ⟨_, _, rfl, Holds.initial, rfl⟩
  | append_singleton binds b ih =>
    obtain ⟨names, used, hrun, hholds, hmap⟩ := ih (h.of_prefix (List.prefix_append _ _))
    rw [bindAll_append, hrun, latest_append, ← hmap]
    by_cases hmem : b.hash ∈ used.map NameEntry.hash
    · obtain ⟨names', used', hbind, hholds', hmap'⟩ := hholds.bind_mem b.endpoint hmem
      exact ⟨names', used', hbind, hholds', hmap'⟩
    · have hnew : b.hash ∉ binds.map Bind.hash := by
        rwa [← latest_eq_none_iff, ← congrFun hmap b.hash, assoc_eq_none_iff]
      have hroom : used.length < maxNameEntries := by
        have hcard := h.card_le
        rw [List.map_append, List.toFinset_append, List.map_singleton, List.toFinset_cons,
          List.toFinset_nil, insert_empty_eq, Finset.union_singleton,
          Finset.card_insert_of_notMem (by rwa [List.mem_toFinset])] at hcard
        rw [hholds.length_eq_card hmap]
        exact hcard
      have hne : b.hash ≠ 0 := h.hash_ne b (List.mem_append_right _ (List.mem_singleton_self b))
      obtain ⟨names', used', hbind, hholds', hmap'⟩ := hholds.bind_new b.endpoint hne hmem hroom
      exact ⟨names', used', hbind, hholds', hmap'⟩

end Bindable

/-- The law after every call, from the law after the last one. -/
theorem bindable_append {binds : List Bind} {b : Bind} (h : Bindable binds)
    (hlaw : TableLaw (binds ++ [b])) : Bindable (binds ++ [b]) := by
  obtain ⟨names', hrun', hlookup⟩ := hlaw
  have hbound : b.hash ∈ (binds ++ [b]).map Bind.hash :=
    List.mem_map_of_mem (List.mem_append_right _ (List.mem_singleton_self b))
  have hne : lookupName names' b.hash ≠ 0 := fun hzero => (hlookup b.hash).2.1 hzero hbound
  have hhash : b.hash ≠ 0 := by
    intro hzero
    rw [hzero] at hne
    exact hne (lookupLoop_zero _)
  have hendpoint : b.endpoint ≠ 0 := by
    intro hzero
    rw [(hlookup b.hash).1, latest_append, Function.update_self, hzero] at hne
    exact hne rfl
  constructor
  · intro c hc
    rcases List.mem_append.1 hc with hc | hc
    · exact h.hash_ne c hc
    · rw [List.mem_singleton.1 hc]
      exact hhash
  · intro c hc
    rcases List.mem_append.1 hc with hc | hc
    · exact h.endpoint_ne c hc
    · rw [List.mem_singleton.1 hc]
      exact hendpoint
  · obtain ⟨names, used, hrun, hholds, hmap⟩ := h.holds
    rw [List.map_append, List.toFinset_append, List.map_singleton, List.toFinset_cons,
      List.toFinset_nil, insert_empty_eq, Finset.union_singleton]
    by_cases hmem : b.hash ∈ binds.map Bind.hash
    · rw [Finset.insert_eq_of_mem (by rwa [List.mem_toFinset])]
      exact h.card_le
    · -- a full table has no result for a new name
      rw [Finset.card_insert_of_notMem (by rwa [List.mem_toFinset]), ← hholds.length_eq_card hmap]
      refine Nat.lt_of_le_of_ne hholds.length_le fun hfull => ?_
      have hnew : b.hash ∉ used.map NameEntry.hash := by
        rwa [← assoc_eq_none_iff, congrFun hmap b.hash, latest_eq_none_iff]
      rw [bindAll_append, hrun, Option.bind_some, hholds.bind_full b.endpoint hnew hfull] at hrun'
      cases hrun'

/-- **The table is a finite map after every call exactly when no hash and no endpoint is zero and
there are at most as many names as entries.** -/
theorem tableLaw_iff (binds : List Bind) :
    (∀ bs, bs <+: binds → TableLaw bs) ↔ Bindable binds := by
  constructor
  · intro hlaw
    induction binds using List.reverseRecOn with
    | nil =>
      constructor
      · exact fun _ hb => absurd hb List.not_mem_nil
      · exact fun _ hb => absurd hb List.not_mem_nil
      · exact Nat.zero_le _
    | append_singleton binds b ih =>
      have hprefix : binds <+: binds ++ [b] := List.prefix_append _ _
      exact bindable_append (ih fun bs hbs => hlaw bs (hbs.trans hprefix)) (hlaw _ List.prefix_rfl)
  · intro h bs hbs
    have hb := h.of_prefix hbs
    obtain ⟨names, used, hrun, hholds, hmap⟩ := hb.holds
    exact hholds.tableLaw hrun hmap hb.endpoint_ne

/-- The name `xmxchwl` has the hash zero. A lookup does not find what was bound to it. -/
theorem tableLaw_zero_hash : nameserverHash [120, 109, 120, 99, 104, 119, 108] = 0 ∧
    ¬ TableLaw [⟨7, nameserverHash [120, 109, 120, 99, 104, 119, 108]⟩] := by
  have hhash : nameserverHash [120, 109, 120, 99, 104, 119, 108] = 0 := by decide +kernel
  refine ⟨hhash, ?_⟩
  rw [hhash]
  rintro ⟨names, -, hlookup⟩
  exact (hlookup 0).2.1 (lookupLoop_zero _) List.mem_cons_self

end C4OS.Nameserver
