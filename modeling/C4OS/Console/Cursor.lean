import C4OS.Console.Scrolling

/-!
# The cursor

Where the console draws, in runs of messages of any kind. A back end that is `Steady` changes only
the buffer, as the two of the server do. The cursor stays in the rows of the screen, and at most one
column behind the last one (`Inside`): `do_draw_char` looks whether the old column was in the row,
so that the character after the last one of a row is drawn behind it. `draws_inside_iff` says that
this is the only way out of the screen: the messages alone decide, by whether every row that they
write fits into the width of the console (`RowsFit`).
-/

namespace C4OS.Console

open Foundations

variable {α : Type} {b : Backend α} {s s₀ : Display α} {x y : ℕ}

/-! ## Calls -/

/-- A call of `draw_char`. -/
structure DrawCall where
  x : ℕ
  y : ℕ
  c : UInt8
  deriving DecidableEq

section

variable (b)

/-- `do_draw_char`, with the calls of `draw_char`. -/
def doDrawCharCalls (s : Display α) (c : UInt8) : Display α × List DrawCall :=
  if c = 10 then (doNewline b s, [])
  else if c = 8 ∧ s.x > 0 then
    let s := { s with x := s.x - 1 }
    (b.drawChar s s.x s.y 32, [⟨s.x, s.y, 32⟩])
  else
    let calls : List DrawCall := [⟨s.x, s.y, c⟩]
    let s := b.drawChar s s.x s.y c
    let x := s.x
    let s := { s with x := (x + 1) % wordSize }
    (if x ≥ s.width then doNewline b s else s, calls)

/-- A turn of the loop of `main`, with the calls of `draw_char`. The other functions make none. -/
def handleCalls (s : Display α) : Request → Display α × List DrawCall
  | .putChar c => doDrawCharCalls b s c
  | request => (handle b s request, [])

/-- The console after some messages. -/
def handleAll (s : Display α) (requests : List Request) : Display α :=
  requests.foldl (handle b) s

/-- The calls of `draw_char` for some messages. -/
def drawCalls : Display α → List Request → List DrawCall
  | _, [] => []
  | s, request :: requests =>
    (handleCalls b s request).2 ++ drawCalls (handleCalls b s request).1 requests

end

theorem handleCalls_fst (b : Backend α) (s : Display α) (request : Request) :
    (handleCalls b s request).1 = handle b s request := by
  cases request with
  | putChar c =>
    show (doDrawCharCalls b s c).1 = doDrawChar b s c
    rw [doDrawCharCalls, doDrawChar]
    split_ifs <;> rfl
  | setPosition x y => rfl
  | clear => rfl

/-! ## The cursor -/

/-- A back end that changes only the buffer. -/
structure Backend.Steady (b : Backend α) : Prop where
  drawChar : ∀ s x y c, ∃ buf, b.drawChar s x y c = { s with buf := buf }
  scroll : ∀ s, ∃ buf, b.scroll s = { s with buf := buf }

theorem steady_textBackend : textBackend.Steady :=
  ⟨fun _ _ _ _ => ⟨_, rfl⟩, fun _ => ⟨_, rfl⟩⟩

theorem steady_framebufBackend (font : Font) : (framebufBackend font).Steady :=
  ⟨fun _ _ _ _ => ⟨_, rfl⟩, fun _ => ⟨_, rfl⟩⟩

/-- A console of some size, with the cursor in the upper left corner. -/
structure Home (s : Display α) : Prop where
  width_lt : s.width < wordSize
  height_lt : s.height < wordSize
  x_eq : s.x = 0
  y_eq : s.y = 0

/-- The size of the console stays, and the cursor is in a row of it, if it has one, and at most one
column behind the last one. -/
structure Inside (s₀ s : Display α) : Prop where
  width_eq : s.width = s₀.width
  height_eq : s.height = s₀.height
  x_le : s.x ≤ s₀.width
  y_lt : 0 < s₀.height → s.y < s₀.height

theorem Home.inside (h : Home s) : Inside s s where
  width_eq := rfl
  height_eq := rfl
  x_le := by rw [h.x_eq]; exact Nat.zero_le _
  y_lt hpos := by rwa [h.y_eq]

namespace Inside

/-- A newline, from anywhere. -/
theorem doNewline (hb : b.Steady) (h₀ : Home s₀) (hwidth : s.width = s₀.width)
    (hheight : s.height = s₀.height) : Inside s₀ (doNewline b s) := by
  have hlt := h₀.height_lt
  obtain ⟨buf, hscroll⟩ := hb.scroll { s with y := (s.y + 1) % wordSize }
  simp only [Console.doNewline]
  split_ifs with hlast
  · simp only [hscroll]
    refine ⟨hwidth, hheight, Nat.zero_le _, fun hpos => ?_⟩
    show sub s.height 1 < s₀.height
    rw [hheight, sub_eq hpos hlt]
    exact Nat.sub_lt hpos Nat.one_pos
  · refine ⟨hwidth, hheight, Nat.zero_le _, fun hpos => ?_⟩
    show (s.y + 1) % wordSize < s₀.height
    rw [hheight, sub_eq hpos hlt] at hlast
    omega

theorem doSetPosition (h : Inside s₀ s) (x y : ℕ) : Inside s₀ (doSetPosition s x y) := by
  rw [Console.doSetPosition]
  split_ifs with hin
  · exact ⟨h.width_eq, h.height_eq, Nat.le_of_lt (h.width_eq ▸ hin.1),
      fun _ => h.height_eq ▸ hin.2⟩
  · exact h

theorem doDrawChar (hb : b.Steady) (h₀ : Home s₀) (h : Inside s₀ s) (c : UInt8) :
    Inside s₀ (doDrawChar b s c) := by
  have hlt := h₀.width_lt
  have hx := h.x_le
  rw [Console.doDrawChar]
  split_ifs with hnewline hback
  · exact doNewline hb h₀ h.width_eq h.height_eq
  · obtain ⟨buf, hdraw⟩ := hb.drawChar { s with x := s.x - 1 } (s.x - 1) s.y 32
    rw [hdraw]
    exact ⟨h.width_eq, h.height_eq, by show s.x - 1 ≤ _; omega, h.y_lt⟩
  · obtain ⟨buf, hdraw⟩ := hb.drawChar s s.x s.y c
    simp only [hdraw]
    split_ifs with hwrap
    · exact doNewline hb h₀ h.width_eq h.height_eq
    · have hright : s.x < s₀.width := h.width_eq ▸ Nat.lt_of_not_le hwrap
      have hmod : (s.x + 1) % wordSize = s.x + 1 := Nat.mod_eq_of_lt (by omega)
      exact ⟨h.width_eq, h.height_eq, hmod.trans_le hright, h.y_lt⟩

/-- The newlines of `do_clear`. -/
theorem newlines (hb : b.Steady) (h₀ : Home s₀) (h : Inside s₀ s) (n : ℕ) :
    Inside s₀ (loop n (fun _ s => Console.doNewline b s) s) :=
  loop_induction (fun _ s => Inside s₀ s) h fun _ _ _ hs =>
    doNewline hb h₀ hs.width_eq hs.height_eq

/-- **What a message preserves.** -/
theorem handle (hb : b.Steady) (h₀ : Home s₀) (h : Inside s₀ s) (request : Request) :
    Inside s₀ (handle b s request) := by
  cases request with
  | putChar c => exact h.doDrawChar hb h₀ c
  | setPosition x y => exact h.doSetPosition x y
  | clear => exact doSetPosition (h.newlines hb h₀ s.height) 0 0

/-- What a run preserves. -/
theorem handleAll (hb : b.Steady) (h₀ : Home s₀) (h : Inside s₀ s) (requests : List Request) :
    Inside s₀ (handleAll b s requests) := by
  induction requests generalizing s with
  | nil => exact h
  | cons request requests ih => exact ih (h.handle hb h₀ request)

end Inside

/-! ## The calls of a run -/

/-- A call is in a cell of the screen. -/
def DrawCall.In (s : Display α) (call : DrawCall) : Prop := call.x < s.width ∧ call.y < s.height

/-- A character other than a newline and a backspace has a column left in a row where the next
character stands in column `k`. -/
def FitsRow (width k : ℕ) : Request → Prop
  | .putChar c => c ≠ 10 → c ≠ 8 → k < width
  | _ => True

/-- The column of the next character behind a message, in a row that does not break by itself. -/
def columnAfter (width height k : ℕ) : Request → ℕ
  | .putChar c => if c = 10 then 0 else if c = 8 ∧ k > 0 then k - 1 else k + 1
  | .setPosition x y => if x < width ∧ y < height then x else k
  | .clear => 0

/-- What the messages write into a row, from column `k` of the first one on, fits into the width: no
character follows the one in the last column without a newline, a backspace or a jump in between. -/
def RowsFit (width height : ℕ) : ℕ → List Request → Prop
  | _, [] => True
  | k, request :: requests =>
    FitsRow width k request ∧ RowsFit width height (columnAfter width height k request) requests

instance (width k : ℕ) (request : Request) : Decidable (FitsRow width k request) :=
  match request with
  | .putChar c => inferInstanceAs (Decidable (c ≠ 10 → c ≠ 8 → k < width))
  | .setPosition _ _ => .isTrue trivial
  | .clear => .isTrue trivial

instance decidableRowsFit (width height : ℕ) :
    (k : ℕ) → (requests : List Request) → Decidable (RowsFit width height k requests)
  | _, [] => .isTrue trivial
  | k, request :: requests =>
    @instDecidableAnd _ _ _
      (decidableRowsFit width height (columnAfter width height k request) requests)

/-- **When a message draws inside of the screen.** -/
theorem Inside.calls_iff (h : Inside s₀ s) (hwidth : 0 < s₀.width) (hheight : 0 < s₀.height)
    (b : Backend α) (request : Request) :
    (∀ call ∈ (handleCalls b s request).2, call.In s₀) ↔ FitsRow s₀.width s.x request := by
  have hx := h.x_le
  have hy := h.y_lt hheight
  have hw := h.width_eq
  cases request with
  | putChar c =>
    show (∀ call ∈ (doDrawCharCalls b s c).2, _) ↔ (_ → _ → _)
    rw [doDrawCharCalls]
    split_ifs with hnewline hback
    · exact iff_of_true (fun call hc => absurd hc List.not_mem_nil) fun hne => absurd hnewline hne
    · refine iff_of_true ?_ fun _ hne => absurd hback.1 hne
      rw [List.forall_mem_singleton]
      exact ⟨by show s.x - 1 < _; omega, hy⟩
    · rw [List.forall_mem_singleton, forall_prop_of_true hnewline, DrawCall.In, and_iff_left hy]
      refine ⟨fun hin _ => hin, fun hin => ?_⟩
      by_cases heq : c = 8
      · -- a backspace that is drawn stands in the first column
        have hzero : ¬ s.x > 0 := fun hpos => hback ⟨heq, hpos⟩
        show s.x < s₀.width
        omega
      · exact hin heq
  | setPosition x y => exact iff_of_true (fun call hc => absurd hc List.not_mem_nil) trivial
  | clear => exact iff_of_true (fun call hc => absurd hc List.not_mem_nil) trivial

/-- Where the cursor is behind a message that fits into its row. -/
theorem Inside.column (hb : b.Steady) (h₀ : Home s₀) (h : Inside s₀ s) (hwidth : 0 < s₀.width)
    (hheight : 0 < s₀.height) {request : Request} (hfit : FitsRow s₀.width s.x request) :
    (Console.handle b s request).x = columnAfter s₀.width s₀.height s.x request := by
  have hlt := h₀.width_lt
  cases request with
  | putChar c =>
    simp only [Console.handle, Console.doDrawChar, columnAfter]
    split_ifs with hnewline hback hwrap
    · rfl
    · obtain ⟨buf, hdraw⟩ := hb.drawChar { s with x := s.x - 1 } (s.x - 1) s.y 32
      rw [hdraw]
    · -- the row is left only where the message does not fit into it
      obtain ⟨buf, hdraw⟩ := hb.drawChar s s.x s.y c
      have hle : s₀.width ≤ s.x := by simpa only [hdraw, h.width_eq] using hwrap
      by_cases heq : c = 8
      · have hpos : s.x > 0 := by omega
        exact absurd ⟨heq, hpos⟩ hback
      · have : s.x < s₀.width := hfit hnewline heq
        omega
    · obtain ⟨buf, hdraw⟩ := hb.drawChar s s.x s.y c
      have hright : s.x < s₀.width := by
        simpa only [hdraw, h.width_eq, ge_iff_le, not_le] using hwrap
      simp only [hdraw]
      exact Nat.mod_eq_of_lt (by omega)
  | setPosition x y =>
    simp only [Console.handle, Console.doSetPosition, columnAfter, h.width_eq, h.height_eq]
    split_ifs <;> rfl
  | clear =>
    have hloop := h.newlines hb h₀ s.height
    simp only [Console.handle, Console.doClear, Console.doSetPosition, columnAfter]
    rw [if_pos ⟨hloop.width_eq ▸ hwidth, hloop.height_eq ▸ hheight⟩]

/-- **When a run draws inside of the screen.** For every console of at least one column and one row
and every sequence of messages: just when what they write into each row fits into it. -/
theorem draws_inside_iff (hb : b.Steady) (h₀ : Home s₀) (hwidth : 1 ≤ s₀.width)
    (hheight : 1 ≤ s₀.height) (requests : List Request) :
    (∀ call ∈ drawCalls b s₀ requests, call.In s₀) ↔
      RowsFit s₀.width s₀.height 0 requests := by
  have hrun : ∀ s, Inside s₀ s → ((∀ call ∈ drawCalls b s requests, call.In s₀) ↔
      RowsFit s₀.width s₀.height s.x requests) := by
    induction requests with
    | nil => exact fun s _ => iff_of_true (fun call hc => absurd hc List.not_mem_nil) trivial
    | cons request requests ih =>
      intro s hs
      rw [drawCalls, List.forall_mem_append, hs.calls_iff hwidth hheight, handleCalls_fst,
        ih _ (hs.handle hb h₀ request)]
      refine and_congr_right fun hfit => ?_
      rw [hs.column hb h₀ hwidth hheight hfit]
  rw [hrun s₀ h₀.inside, h₀.x_eq]

theorem home_textbufferInit (textbuf : ℕ → VgaChar) : Home (textbufferInit textbuf) where
  width_lt := by show 80 < 2 ^ 32; decide
  height_lt := by show 25 < 2 ^ 32; decide
  x_eq := rfl
  y_eq := rfl

/-- The last two columns of the last row, a backspace and one more character there, and the next
line. -/
def lastColumns : List Request :=
  [.setPosition 78 24, .putChar 65, .putChar 66, .putChar 8, .putChar 67, .putChar 10, .putChar 68]

theorem draws_inside_iff_lastColumns :
    RowsFit 80 25 0 lastColumns ∧
      ∀ call ∈ drawCalls textBackend (textbufferInit fun _ => ⟨0, 0⟩) lastColumns,
        call.In (textbufferInit fun _ => ⟨0, 0⟩) := by
  have hfit : RowsFit 80 25 0 lastColumns := by decide
  exact ⟨hfit, (draws_inside_iff steady_textBackend (home_textbufferInit _)
    (by show 1 ≤ 80; decide) (by show 1 ≤ 25; decide) _).2 hfit⟩

/-- The last one of 81 characters in its last row is not. -/
theorem row_left : ¬ ∀ (α : Type) (b : Backend α) (s₀ : Display α) (requests : List Request),
    b.Steady → Home s₀ → 1 ≤ s₀.width → 2 ≤ s₀.height →
    ∀ call ∈ drawCalls b s₀ requests, call.In s₀ := by
  intro h
  have hcall : (⟨80, 24, 65⟩ : DrawCall) ∈ drawCalls textBackend (textbufferInit fun _ => ⟨0, 0⟩)
      (.setPosition 0 24 :: List.replicate 81 (.putChar 65)) := by decide +kernel
  have hin := h VgaChar textBackend (textbufferInit fun _ => ⟨0, 0⟩) _ steady_textBackend
    (home_textbufferInit _) (by decide) (by decide) _ hcall
  exact absurd hin.1 (by decide)

end C4OS.Console
