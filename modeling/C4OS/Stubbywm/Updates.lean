import C4OS.Stubbywm.Drawing

/-!
# What the window manager notes for an update

The list of updates has a fixed size. Where it becomes full, one update of the whole screen replaces
all others, and the one that did not fit is written behind the end of the list, where nothing reads
it. So an update covers at least the points that it was asked for, and no point is lost
(`updateRegion_notes`).
-/

namespace C4OS.Stubbywm

open Foundations

variable {p : Point} {wm wm' wm'' : Wm} {window : Window} {s t : Set Point}

/-- The updates are inside the screen. -/
def Wm.UpdatesOk (wm : Wm) : Prop := ∀ p ∈ wm.damage, wm.info.OnScreen p

/-- The points of `s` are noted for an update, and nothing else happens. -/
structure Notes (s : Set Point) (wm wm' : Wm) : Prop where
  rest : wm' = { wm with updates := wm'.updates, numUpdates := wm'.numUpdates }
  num_lt : wm'.numUpdates < maxUpdates
  updatesOk : wm.UpdatesOk → wm'.UpdatesOk
  old : ∀ p, wm.info.OnScreen p → p ∈ wm.damage → p ∈ wm'.damage
  new : ∀ p, wm.info.OnScreen p → p ∈ s → p ∈ wm'.damage

namespace Notes

theorem info_eq (h : Notes s wm wm') : wm'.info = wm.info := by rw [h.rest]

theorem winlist_eq (h : Notes s wm wm') : wm'.winlist = wm.winlist := by rw [h.rest]

theorem mouse_eq (h : Notes s wm wm') : wm'.mouse = wm.mouse := by rw [h.rest]

theorem mouseCursor_eq (h : Notes s wm wm') : wm'.mouseCursor = wm.mouseCursor := by rw [h.rest]

theorem shown_eq (h : Notes s wm wm') : wm'.shown = wm.shown := by
  rw [h.rest]
  rfl

theorem mono (h : Notes s wm wm') (hts : ∀ p, wm.info.OnScreen p → p ∈ t → p ∈ s) :
    Notes t wm wm' :=
  ⟨h.rest, h.num_lt, h.updatesOk, h.old, fun p hp ht => h.new p hp (hts p hp ht)⟩

end Notes

/-- There is room for an update. -/
theorem allocUpdate_lt (h : wm.numUpdates + 1 < maxUpdates) :
    allocUpdate 2 wm = ({ wm with numUpdates := wm.numUpdates + 1 }, wm.numUpdates) := by
  simp only [allocUpdate, if_neg (Nat.not_le_of_lt h), Nat.mod_eq_of_lt h]

/-- There is no room: the whole screen is noted first. -/
theorem allocUpdate_full (h : wm.numUpdates + 1 = maxUpdates) :
    allocUpdate 2 wm = ({ writeFullUpdate wm 0 with numUpdates := 1 }, wm.numUpdates) := by
  have hge : wm.numUpdates + 1 ≥ maxUpdates := Nat.le_of_eq h.symm
  simp only [allocUpdate, if_pos hge]
  rfl

/-- An allocation changes the list of updates alone. -/
theorem allocUpdate_rest (depth : ℕ) (wm : Wm) : (allocUpdate depth wm).1 = { wm with
    updates := (allocUpdate depth wm).1.updates
    numUpdates := (allocUpdate depth wm).1.numUpdates } := by
  induction depth generalizing wm with
  | zero => rfl
  | succ depth ih =>
    simp only [allocUpdate]
    split
    · rw [writeFullUpdate, ih]
      rfl
    · rfl

theorem allocUpdate_info (depth : ℕ) (wm : Wm) : (allocUpdate depth wm).1.info = wm.info := by
  rw [allocUpdate_rest]

theorem updateRegion_winlist (wm : Wm) (a b : Point) :
    (updateRegion wm a b).winlist = wm.winlist := by
  show (allocUpdate 2 wm).1.winlist = _
  rw [allocUpdate_rest]

theorem updateRegion_info (wm : Wm) (a b : Point) : (updateRegion wm a b).info = wm.info :=
  allocUpdate_info 2 wm

/-- The update is inside the screen, also where it has no points. -/
structure Update.InScreen (info : Info) (up : Update) : Prop where
  x_nonneg : 0 ≤ up.lower.x
  y_nonneg : 0 ≤ up.lower.y
  x_le : up.upper.x ≤ info.width
  y_le : up.upper.y ≤ info.height

theorem Update.InScreen.onScreen {info : Info} {up : Update} (h : up.InScreen info)
    (hp : p ∈ up.area) : info.OnScreen p := by
  obtain ⟨h₁, h₂, h₃, h₄⟩ := h
  obtain ⟨hx, hx', hy, hy'⟩ := hp
  constructor <;> omega

/-- The update of two corners is inside the screen. -/
theorem normalized_inScreen (wm : Wm) (a b : Point) :
    (Update.mk (normalizePoint wm a) (normalizePoint wm b)).InScreen wm.info := by
  constructor <;> simp only [normalizePoint_x, normalizePoint_y] <;> omega

theorem fullUpdate_inScreen (info : Info) :
    (Update.mk ⟨0, 0⟩ ⟨info.width, info.height⟩).InScreen info :=
  ⟨le_rfl, le_rfl, le_rfl, le_rfl⟩

/-- The update of two corners has the points between them. -/
theorem mem_normalized {a b : Point} (hp : wm.info.OnScreen p)
    (h : a.x ≤ p.x ∧ p.x < b.x ∧ a.y ≤ p.y ∧ p.y < b.y) :
    p ∈ (Update.mk (normalizePoint wm (if pointLessThan a b then a else b))
      (normalizePoint wm (if pointLessThan a b then b else a))).area := by
  have hless : pointLessThan a b = true := by
    rw [pointLessThan, decide_eq_true_eq]
    omega
  obtain ⟨hx, hx', hy, hy'⟩ := hp
  rw [if_pos hless, if_pos hless]
  refine ⟨?_, ?_, ?_, ?_⟩ <;> simp only [normalizePoint_x, normalizePoint_y] <;> omega

/-- The update of the whole screen. -/
theorem mem_fullUpdate_iff :
    p ∈ (Update.mk ⟨0, 0⟩ ⟨wm.info.width, wm.info.height⟩).area ↔ wm.info.OnScreen p := by
  constructor
  · rintro ⟨hx, hx', hy, hy'⟩
    exact ⟨hx, hx', hy, hy'⟩
  · rintro ⟨hx, hx', hy, hy'⟩
    exact ⟨hx, hx', hy, hy'⟩

/-- An update is written into the entry that is allocated for it. -/
def noteUpdate (wm : Wm) (up : Update) : Wm :=
  let (wm, entry) := allocUpdate 2 wm
  { wm with updates := Function.update wm.updates entry up }

theorem updateRegion_eq (wm : Wm) (a b : Point) : updateRegion wm a b =
    noteUpdate wm ⟨normalizePoint wm (if pointLessThan a b then a else b),
      normalizePoint wm (if pointLessThan a b then b else a)⟩ := by
  have hnormalize (pt : Point) : normalizePoint (allocUpdate 2 wm).1 pt = normalizePoint wm pt := by
    simp only [normalizePoint, allocUpdate_info]
  simp only [updateRegion, noteUpdate, hnormalize]

theorem setFullUpdate_eq (wm : Wm) :
    setFullUpdate wm = noteUpdate wm ⟨⟨0, 0⟩, ⟨wm.info.width, wm.info.height⟩⟩ := by
  simp only [setFullUpdate, noteUpdate, writeFullUpdate, allocUpdate_info]

theorem noteUpdate_lt (up : Update) (h : wm.numUpdates + 1 < maxUpdates) :
    noteUpdate wm up = { wm with
      updates := Function.update wm.updates wm.numUpdates up
      numUpdates := wm.numUpdates + 1 } := by
  rw [noteUpdate, allocUpdate_lt h]

/-- The update that finds no room is written behind the one of the whole screen. -/
theorem noteUpdate_full (up : Update) (h : wm.numUpdates + 1 = maxUpdates) :
    (noteUpdate wm up).numUpdates = 1 ∧
      (noteUpdate wm up).updates 0 = ⟨⟨0, 0⟩, ⟨wm.info.width, wm.info.height⟩⟩ := by
  have hne : 0 ≠ wm.numUpdates := by
    intro heq
    rw [← heq] at h
    cases h
  rw [noteUpdate, allocUpdate_full h]
  refine ⟨rfl, ?_⟩
  dsimp only [writeFullUpdate]
  rw [Function.update_of_ne hne, Function.update_self]

theorem noteUpdate_rest (wm : Wm) (up : Update) : noteUpdate wm up =
    { wm with
      updates := (noteUpdate wm up).updates
      numUpdates := (noteUpdate wm up).numUpdates } := by
  simp only [noteUpdate]
  rw [allocUpdate_rest]

/-- An update notes its points. -/
theorem noteUpdate_notes (hnum : wm.numUpdates < maxUpdates) {up : Update}
    (hup : up.InScreen wm.info) : Notes up.area wm (noteUpdate wm up) := by
  have hrest := noteUpdate_rest wm up
  have hinfo : (noteUpdate wm up).info = wm.info := by rw [hrest]
  by_cases hlt : wm.numUpdates + 1 < maxUpdates
  · have heq := noteUpdate_lt up hlt
    refine ⟨hrest, ?_, ?_, ?_, ?_⟩
    · rw [heq]
      exact hlt
    · rintro hok p ⟨k, hk, hp⟩
      rw [heq] at hk hp
      rw [hinfo]
      dsimp only at hk hp
      rcases Nat.lt_succ_iff_lt_or_eq.mp hk with hk | rfl
      · rw [Function.update_of_ne (Nat.ne_of_lt hk)] at hp
        exact hok p ⟨k, hk, hp⟩
      · rw [Function.update_self] at hp
        exact hup.onScreen hp
    · rintro p _ ⟨k, hk, hp⟩
      rw [heq]
      refine ⟨k, Nat.lt_succ_of_lt hk, ?_⟩
      dsimp only
      rwa [Function.update_of_ne (Nat.ne_of_lt hk)]
    · intro p _ hp
      rw [heq]
      refine ⟨wm.numUpdates, Nat.lt_succ_self _, ?_⟩
      dsimp only
      rwa [Function.update_self]
  · have hfull : wm.numUpdates + 1 = maxUpdates := by omega
    obtain ⟨hone, hzero⟩ := noteUpdate_full up hfull
    have hmem {p : Point} : p ∈ (noteUpdate wm up).damage ↔ wm.info.OnScreen p := by
      rw [← mem_fullUpdate_iff, ← hzero]
      constructor
      · rintro ⟨k, hk, hp⟩
        rw [hone] at hk
        obtain rfl : k = 0 := Nat.lt_one_iff.mp hk
        exact hp
      · intro hp
        exact ⟨0, hone ▸ Nat.one_pos, hp⟩
    refine ⟨hrest, ?_, ?_, ?_, ?_⟩
    · rw [hone]
      decide
    · intro _ p hp
      rw [hinfo]
      exact hmem.mp hp
    · exact fun p hp _ => hmem.mpr hp
    · exact fun p hp _ => hmem.mpr hp

/-- All updates stay inside the screen. -/
theorem noteUpdate_inScreen (hnum : wm.numUpdates < maxUpdates)
    (h : ∀ k < wm.numUpdates, (wm.updates k).InScreen wm.info) {up : Update}
    (hup : up.InScreen wm.info) : ∀ k < (noteUpdate wm up).numUpdates,
      ((noteUpdate wm up).updates k).InScreen wm.info := by
  intro k hk
  by_cases hlt : wm.numUpdates + 1 < maxUpdates
  · rw [noteUpdate_lt up hlt] at hk ⊢
    dsimp only at hk ⊢
    rcases Nat.lt_succ_iff_lt_or_eq.mp hk with hk | rfl
    · rw [Function.update_of_ne (Nat.ne_of_lt hk)]
      exact h k hk
    · rwa [Function.update_self]
  · have hfull : wm.numUpdates + 1 = maxUpdates := by omega
    obtain ⟨hone, hzero⟩ := noteUpdate_full up hfull
    rw [hone] at hk
    obtain rfl : k = 0 := Nat.lt_one_iff.mp hk
    rw [hzero]
    exact fullUpdate_inScreen wm.info

/-- An update notes the points between its corners. -/
theorem updateRegion_notes (hnum : wm.numUpdates < maxUpdates) (a b : Point) :
    Notes {p | a.x ≤ p.x ∧ p.x < b.x ∧ a.y ≤ p.y ∧ p.y < b.y} wm (updateRegion wm a b) := by
  rw [updateRegion_eq]
  apply (noteUpdate_notes hnum (normalized_inScreen wm _ _)).mono
  exact fun p hp hbetween => mem_normalized hp hbetween

/-- The place of a window with its decoration. -/
def Window.box (window : Window) : Set Point :=
  {p | window.rect.coord.x - 3 ≤ p.x ∧ p.x < window.rect.coord.x + window.rect.width + 3 ∧
    window.rect.coord.y - 25 ≤ p.y ∧ p.y < window.rect.coord.y + window.rect.height + 3}

/-- The update of a window has the place of the window. -/
theorem updateWindowRegion_notes (hnum : wm.numUpdates < maxUpdates)
    (h : window.Placed wm.info) : Notes window.box wm (updateWindowRegion wm window) := by
  apply (updateRegion_notes hnum _ _).mono
  intro p hp hbox
  have hw := hp.width_le
  have hh := hp.height_le
  obtain ⟨hmaxx, hmaxy⟩ := rectMaxCoord_eq h
  obtain ⟨hx, hx', hy, hy'⟩ := hp
  obtain ⟨hbx, hbx', hby, hby'⟩ := hbox
  show _ ∧ _ ∧ _ ∧ _
  simp only [normalizePoint_x, normalizePoint_y, hmaxx, hmaxy, borderSize, titlebarSize]
  omega

/-- The update of the mouse has the place of the cursor. -/
theorem updateMouseRegion_notes (hnum : wm.numUpdates < maxUpdates) (h : wm.MouseOk) :
    Notes wm.cursor.area wm (updateMouseRegion wm) := by
  apply (updateRegion_notes hnum _ _).mono
  rintro p hp ⟨⟨hx, hx', hy, hy'⟩, -⟩
  have hw := hp.width_le
  have hh := hp.height_le
  obtain ⟨h₁, h₂, h₃, h₄, h₅, h₆⟩ := h
  dsimp only at hx hx' hy hy'
  show _ ∧ _ ∧ _ ∧ _
  dsimp only
  rw [int32_eq (by omega) (by omega), int32_eq (by omega) (by omega)]
  omega

/-- The beginning of the event loop notes the whole screen. -/
theorem eventLoopStart_eq (wm : Wm) : eventLoopStart wm = { wm with
    updates := Function.update wm.updates 0 ⟨⟨0, 0⟩, ⟨wm.info.width, wm.info.height⟩⟩
    numUpdates := 1 } := by
  have hlt : (resetUpdates wm).numUpdates + 1 < maxUpdates := by
    show 0 + 1 < 128
    decide
  rw [eventLoopStart, setFullUpdate, allocUpdate_lt hlt]
  rfl

theorem mem_damage_eventLoopStart_iff :
    p ∈ (eventLoopStart wm).damage ↔ wm.info.OnScreen p := by
  rw [← mem_fullUpdate_iff, eventLoopStart_eq]
  constructor
  · rintro ⟨k, hk, hp⟩
    obtain rfl : k = 0 := Nat.lt_one_iff.mp hk
    dsimp only at hp
    rwa [Function.update_self] at hp
  · intro hp
    refine ⟨0, Nat.one_pos, ?_⟩
    dsimp only
    rwa [Function.update_self]

end C4OS.Stubbywm
