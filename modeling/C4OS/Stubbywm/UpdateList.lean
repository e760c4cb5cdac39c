import C4OS.Stubbywm.Updates

/-!
# The list of updates over many requests

Requests for an update come one after another, until the event loop empties the list. The list never
becomes full: the request that would fill it empties it, notes the whole screen, and writes its own
rectangle into the last entry, which is then behind the end of the list. So nothing that was
requested is lost (`Pending.serve`).
-/

namespace C4OS.Stubbywm

variable {p : Point} {wm : Wm} {s : Set Point} {window : Window}

/-! ## The entries that are handed out -/

/-- The entries that the calls of `alloc_update` hand out, in the order in which they return. -/
def allocEntries : ℕ → Wm → List ℕ
  | 0, wm => [wm.numUpdates]
  | depth + 1, wm =>
    if wm.numUpdates + 1 ≥ maxUpdates then
      allocEntries depth (resetUpdates wm) ++ [wm.numUpdates]
    else [wm.numUpdates]

section Entries

variable {depth : ℕ}

/-- An empty list has room. -/
theorem allocUpdate_resetUpdates (depth : ℕ) (wm : Wm) :
    allocUpdate (depth + 1) (resetUpdates wm) = ({ wm with numUpdates := 1 }, 0) := rfl

/-- The calls are nested at most twice. -/
theorem allocUpdate_depth (depth : ℕ) (wm : Wm) :
    allocUpdate (depth + 2) wm = allocUpdate 2 wm := by
  rw [allocUpdate, allocUpdate_resetUpdates, allocUpdate, allocUpdate_resetUpdates]

theorem allocEntries_depth (depth : ℕ) (wm : Wm) :
    allocEntries (depth + 2) wm = allocEntries 2 wm := rfl

/-- The last of the entries is the one of the outer call. -/
theorem getLast?_allocEntries (depth : ℕ) (wm : Wm) :
    (allocEntries depth wm).getLast? = some (allocUpdate depth wm).2 := by
  cases depth with
  | zero => rfl
  | succ depth =>
    rw [allocEntries]
    split
    · exact List.getLast?_concat ..
    · rfl

/-- The entries are in the array. -/
theorem allocEntries_lt (h : wm.numUpdates < maxUpdates) :
    ∀ entry ∈ allocEntries depth wm, entry < maxUpdates := by
  induction depth generalizing wm with
  | zero =>
    intro entry hmem
    rwa [List.mem_singleton.mp hmem]
  | succ depth ih =>
    rw [allocEntries]
    split
    · intro entry hmem
      rcases List.mem_append.mp hmem with hmem | hmem
      · exact ih (show 0 < maxUpdates by decide) entry hmem
      · rwa [List.mem_singleton.mp hmem]
    · intro entry hmem
      rwa [List.mem_singleton.mp hmem]

/-- An allocation writes into entries that it hands out. -/
theorem allocUpdate_updates {k : ℕ} (h : k ∉ allocEntries depth wm) :
    (allocUpdate depth wm).1.updates k = wm.updates k := by
  induction depth generalizing wm with
  | zero => rfl
  | succ depth ih =>
    rw [allocEntries] at h
    simp only [allocUpdate]
    split at h
    · rename_i hfull
      rw [if_pos hfull]
      have hinner : k ∉ allocEntries depth (resetUpdates wm) :=
        fun hmem => h (List.mem_append_left _ hmem)
      have hne : k ≠ (allocUpdate depth (resetUpdates wm)).2 := by
        rintro rfl
        exact hinner (List.mem_of_getLast? (getLast?_allocEntries depth (resetUpdates wm)))
      exact (Function.update_of_ne hne ..).trans (ih hinner)
    · rename_i hroom
      rw [if_neg hroom]

end Entries

/-! ## Requests -/

/-- A request: for the update of a rectangle, whose corners are in order, for that of the whole
screen, or to forget all updates. -/
inductive Request where
  | region (a b : Point) (hx : a.x ≤ b.x) (hy : a.y ≤ b.y)
  | full
  | reset

namespace Request

/-- The function that is called. -/
def serve (wm : Wm) : Request → Wm
  | region a b _ _ => updateRegion wm a b
  | full => setFullUpdate wm
  | reset => resetUpdates wm

/-- The entries that are handed out for a request. -/
def entries (wm : Wm) : Request → List ℕ
  | region .. => allocEntries 2 wm
  | full => allocEntries 2 wm
  | reset => []

/-- What is requested after one more request. -/
def add (info : Info) (s : Set Point) : Request → Set Point
  | region a b _ _ => s ∪ {p | a.x ≤ p.x ∧ p.x < b.x ∧ a.y ≤ p.y ∧ p.y < b.y}
  | full => s ∪ {p | info.OnScreen p}
  | reset => ∅

end Request

/-- Requests one after another. -/
def serveAll (wm : Wm) (requests : List Request) : Wm := requests.foldl Request.serve wm

/-- What has been requested since the last time that the event loop emptied the list. -/
def requested (info : Info) (requests : List Request) : Set Point :=
  requests.foldl (Request.add info) ∅

/-- The corner of a window with its decoration and the opposite one are in order, and so the update
of a window is a request for its place. -/
theorem updateWindowRegion_request (h : window.Placed wm.info) :
    ∃ r : Request, updateWindowRegion wm window = r.serve wm ∧
      ∀ p, wm.info.OnScreen p → p ∈ window.box → p ∈ r.add wm.info ∅ := by
  obtain ⟨hmaxx, hmaxy⟩ := rectMaxCoord_eq h
  obtain ⟨h₁, h₂, h₃, h₄, -, -, -, -⟩ := h
  refine ⟨.region _ _ ?_ ?_, rfl, ?_⟩
  · simp only [normalizePoint_x, hmaxx, borderSize]
    omega
  · simp only [normalizePoint_y, hmaxy, borderSize, titlebarSize]
    omega
  · rintro p ⟨hx, hx', hy, hy'⟩ ⟨hbx, hbx', hby, hby'⟩
    refine Or.inr ?_
    show _ ∧ _ ∧ _ ∧ _
    simp only [normalizePoint_x, normalizePoint_y, hmaxx, hmaxy, borderSize, titlebarSize]
    omega

/-- The update of the mouse is a request for the place of the cursor. -/
theorem updateMouseRegion_request (hp : wm.info.OnScreen p) (h : wm.MouseOk) :
    ∃ r : Request, updateMouseRegion wm = r.serve wm ∧
      ∀ p, p ∈ wm.cursor.area → p ∈ r.add wm.info ∅ := by
  have hw := hp.width_le
  have hh := hp.height_le
  obtain ⟨h₁, h₂, h₃, h₄, h₅, h₆⟩ := h
  have hx : int32 (wm.mouse.x + wm.mouseCursor.width) = wm.mouse.x + wm.mouseCursor.width :=
    int32_eq (by omega) (by omega)
  have hy : int32 (wm.mouse.y + wm.mouseCursor.height) = wm.mouse.y + wm.mouseCursor.height :=
    int32_eq (by omega) (by omega)
  refine ⟨.region _ _ ?_ ?_, rfl, ?_⟩
  · dsimp only
    omega
  · dsimp only
    omega
  · rintro p ⟨⟨hpx, hpx', hpy, hpy'⟩, -⟩
    refine Or.inr ?_
    show _ ∧ _ ∧ _ ∧ _
    dsimp only at hpx hpx' hpy hpy' ⊢
    omega

/-! ## Runs -/

/-- The points of `s` wait for the next frame. -/
structure Pending (s : Set Point) (wm : Wm) : Prop where
  num_lt : wm.numUpdates < maxUpdates
  inScreen : ∀ k < wm.numUpdates, (wm.updates k).InScreen wm.info
  covers : ∀ p ∈ s, wm.info.OnScreen p → p ∈ wm.damage

theorem pending_resetUpdates (wm : Wm) : Pending ∅ (resetUpdates wm) :=
  ⟨show 0 < 128 by decide, fun k hk => absurd hk (Nat.not_lt_zero k), fun _ hp => hp.elim⟩

theorem serve_info (wm : Wm) (r : Request) : (r.serve wm).info = wm.info := by
  cases r with
  | region => exact updateRegion_info ..
  | full => exact allocUpdate_info 2 wm
  | reset => rfl

/-- An update into the list. -/
theorem Pending.noteUpdate (h : Pending s wm) {up : Update} (hup : up.InScreen wm.info)
    {t : Set Point} (hcovers : ∀ p ∈ t, wm.info.OnScreen p → p ∈ up.area) :
    Pending (s ∪ t) (noteUpdate wm up) := by
  have hnotes := noteUpdate_notes h.num_lt hup
  refine ⟨hnotes.num_lt, ?_, ?_⟩
  · rw [hnotes.info_eq]
    exact noteUpdate_inScreen h.num_lt h.inScreen hup
  · intro p hp hscreen
    rw [hnotes.info_eq] at hscreen
    rcases hp with hs | ht
    · exact hnotes.old p hscreen (h.covers p hs hscreen)
    · exact hnotes.new p hscreen (hcovers p ht hscreen)

/-- No request loses what was requested before. -/
theorem Pending.serve (h : Pending s wm) (r : Request) :
    Pending (r.add wm.info s) (r.serve wm) := by
  cases r with
  | region a b hx hy =>
    rw [Request.serve, updateRegion_eq]
    apply h.noteUpdate (normalized_inScreen wm _ _)
    exact fun p hp hscreen => mem_normalized hscreen hp
  | full =>
    rw [Request.serve, setFullUpdate_eq]
    apply h.noteUpdate (fullUpdate_inScreen wm.info)
    exact fun p hp _ => mem_fullUpdate_iff.mpr hp
  | reset => exact pending_resetUpdates wm

theorem Pending.serveAll (h : Pending s wm) (requests : List Request) :
    Pending (requests.foldl (Request.add wm.info) s) (serveAll wm requests) := by
  induction requests generalizing wm s with
  | nil => exact h
  | cons r requests ih =>
    have hstep := ih (h.serve r)
    rwa [serve_info] at hstep

theorem serveAll_info (wm : Wm) (requests : List Request) :
    (serveAll wm requests).info = wm.info := by
  induction requests generalizing wm with
  | nil => rfl
  | cons r requests ih => exact (ih (r.serve wm)).trans (serve_info wm r)

/-- A request writes into entries that are handed out for it. -/
theorem serve_updates (r : Request) {k : ℕ} (h : k ∉ r.entries wm) :
    (r.serve wm).updates k = wm.updates k := by
  have hne (h : k ∉ allocEntries 2 wm) : k ≠ (allocUpdate 2 wm).2 := by
    rintro rfl
    exact h (List.mem_of_getLast? (getLast?_allocEntries 2 wm))
  cases r with
  | region => exact (Function.update_of_ne (hne h) ..).trans (allocUpdate_updates h)
  | full => exact (Function.update_of_ne (hne h) ..).trans (allocUpdate_updates h)
  | reset => rfl

theorem Pending.entries_lt (h : Pending s wm) (r : Request) :
    ∀ entry ∈ r.entries wm, entry < maxUpdates := by
  cases r with
  | region => exact allocEntries_lt h.num_lt
  | full => exact allocEntries_lt h.num_lt
  | reset => exact fun _ hmem => absurd hmem List.not_mem_nil

/-- **Nothing requested is lost.** The event loop begins with an empty list. After any requests, the
list has room for one more update, all entries that a request is given are in the array and are the
only ones that it writes, the updates in the list are inside the screen, and they have all points of
the screen that were requested since the list was emptied by the event loop. -/
theorem updates_pending (wm : Wm) (requests : List Request) :
    (serveAll (resetUpdates wm) requests).numUpdates < maxUpdates ∧
      (∀ r : Request, (∀ entry ∈ r.entries (serveAll (resetUpdates wm) requests),
          entry < maxUpdates) ∧
        ∀ k ∉ r.entries (serveAll (resetUpdates wm) requests),
          (r.serve (serveAll (resetUpdates wm) requests)).updates k =
            (serveAll (resetUpdates wm) requests).updates k) ∧
      (∀ k < (serveAll (resetUpdates wm) requests).numUpdates,
        ((serveAll (resetUpdates wm) requests).updates k).InScreen wm.info) ∧
      ∀ p, wm.info.OnScreen p → p ∈ requested wm.info requests →
        p ∈ (serveAll (resetUpdates wm) requests).damage := by
  have hpending := (pending_resetUpdates wm).serveAll requests
  have hinfo : (serveAll (resetUpdates wm) requests).info = wm.info := serveAll_info _ requests
  refine ⟨hpending.num_lt, ?_, ?_, ?_⟩
  · exact fun r => ⟨hpending.entries_lt r, fun k hk => serve_updates r hk⟩
  · rw [← hinfo]
    exact hpending.inScreen
  · intro p hp hrequested
    rw [← hinfo] at hp
    exact hpending.covers p hrequested hp

end C4OS.Stubbywm
