import C4OS.Foundations.Readers
import C4OS.Peripherals.Model

/-!
# The shift keys

The functions of `keyboard.c`. The driver keeps two notes of the shift keys: one bit of `modifiers`
for each key, which is set exactly while the key is held (`modifiers_shift`), and one flag for both,
which says whether the last scancode of a shift key was one for down (`isUppercase_concat`). They
agree as long as no shift key goes up while the other one is held (`shift_follows_iff`).
-/

namespace C4OS.Peripherals

open Foundations

/-! ## The driver -/

/-- `CODE_LEFT_SHIFT`. -/
abbrev codeLeftShift : UInt8 := 4

/-- `CODE_RIGHT_SHIFT`. -/
abbrev codeRightShift : UInt8 := 5

/-- `CODE_END`. -/
abbrev codeEnd : UInt8 := 6

/-- `lowercase`. -/
def lowercase : List UInt8 :=
  [0x60, 0x00, 0x31, 0x32, 0x33, 0x34, 0x35, 0x36, 0x37, 0x38, 0x39, 0x30, 0x2d,
    0x3d, 0x08, 0x01, 0x71, 0x77, 0x65, 0x72, 0x74, 0x79, 0x75, 0x69, 0x6f, 0x70,
    0x5b, 0x5d, 0x0a, 0x02, 0x61, 0x73, 0x64, 0x66, 0x67, 0x68, 0x6a,
    0x6b, 0x6c, 0x3b, 0x27, 0x3f, 0x04, 0x3f, 0x7a, 0x78, 0x63, 0x76, 0x62,
    0x6e, 0x6d, 0x2c, 0x2e, 0x2f, 0x05, 0x5f, 0x5f, 0x20, 0x5f, 0x5f, 0x5f,
    0x5f, 0x5f, 0x5f, 0x5f, 0x5f, 0x5f, 0x5f, 0x5f, 0x5f, 0x5f, 0x5f, 0x5f]

/-- `uppercase`. -/
def uppercase : List UInt8 :=
  [0x7e, 0x00, 0x21, 0x40, 0x23, 0x24, 0x25, 0x5e, 0x26, 0x2a, 0x28, 0x29, 0x5f,
    0x2b, 0x08, 0x01, 0x51, 0x57, 0x45, 0x52, 0x54, 0x59, 0x55, 0x49, 0x4f, 0x50,
    0x7b, 0x7d, 0x0a, 0x02, 0x41, 0x53, 0x44, 0x46, 0x47, 0x48, 0x4a,
    0x4b, 0x4c, 0x3a, 0x22, 0x3f, 0x04, 0x3f, 0x5a, 0x58, 0x43, 0x56, 0x42,
    0x4e, 0x4d, 0x3c, 0x3e, 0x3f, 0x05, 0x5f, 0x5f, 0x20, 0x5f, 0x5f, 0x5f,
    0x5f, 0x5f, 0x5f, 0x5f, 0x5f, 0x5f, 0x5f, 0x5f, 0x5f, 0x5f, 0x5f, 0x5f]

/-- `is_modifier`. -/
def isModifier (c : UInt8) : Bool := c < codeEnd

/-- A scancode of a key in the tables. -/
structure Scancode where
  code : UInt8
  inTables : (code &&& ~~~0x80).toNat < lowercase.length

namespace Scancode

/-- The key goes up. -/
def isKeyup (code : Scancode) : Bool := code.code &&& 0x80 ≠ 0

/-- The place of the key in the tables. -/
def key (code : Scancode) : ℕ := (code.code &&& ~~~0x80).toNat

end Scancode

/-- The table in which `decode_scancode` looks a key up. -/
def table (isUppercase : Bool) : List UInt8 := if isUppercase then uppercase else lowercase

/-- `decode_scancode`, with `is_uppercase` before and after the call. -/
def decodeScancode (isUppercase : Bool) (code : Scancode) : UInt8 × Bool :=
  let c := (table isUppercase).getD code.key 0
  if c = codeLeftShift ∨ c = codeRightShift then (c, !code.isKeyup) else (c, isUppercase)

/-- The variables of the driver. -/
structure Keyboard where
  isUppercase : Bool
  modifiers : BitVec 32

/-- `get_event`, with the scancode that the port gives. -/
def getEvent (s : Keyboard) (scancode : Scancode) : KeyboardEvent × Keyboard :=
  let event := if scancode.isKeyup then keyUp else keyDown
  let (c, isUppercase) := decodeScancode s.isUppercase scancode
  let modifiers :=
    if isModifier c then
      if event = keyDown then s.modifiers ||| 1#32 <<< c.toNat
      else s.modifiers &&& ~~~(1#32 <<< c.toNat)
    else s.modifiers
  ({ character := c.toNat
     modifiers := modifiers.toNat
     scancode := scancode.code.toNat
     event := event },
    { isUppercase := isUppercase, modifiers := modifiers })

/-- `event_thread`: the events that it sends to the clients. -/
def keyboardThread : Reader Keyboard Scancode KeyboardEvent where
  next s scancode := (getEvent s scancode).2
  out s scancode := [(getEvent s scancode).1]

/-- The variables after some scancodes. -/
def keyboardAfter (codes : List Scancode) : Keyboard := keyboardThread.after ⟨false, 0⟩ codes

/-! ## The keys that are held -/

/-- The place of `CODE_LEFT_SHIFT` in the tables. -/
abbrev keyLeftShift : ℕ := 42

/-- The place of `CODE_RIGHT_SHIFT` in the tables. -/
abbrev keyRightShift : ℕ := 54

/-- The last scancode of the key was one for down. -/
def held (key : ℕ) (codes : List Scancode) : Bool :=
  codes.foldl (fun h code => if code.key = key then !code.isKeyup else h) false

/-- A shift key is held. -/
def shiftHeld (codes : List Scancode) : Bool := held keyLeftShift codes || held keyRightShift codes

/-- One of the bits of the shift keys is set. -/
def shiftBits (modifiers : BitVec 32) : Bool :=
  modifiers.getLsbD codeLeftShift.toNat || modifiers.getLsbD codeRightShift.toNat

/-- A key goes up only after it went down. -/
def Proper (codes : List Scancode) : Prop :=
  ∀ i, (hi : i < codes.length) → codes[i].isKeyup = true → held codes[i].key (codes.take i) = true

/-- Each key is looked up in the table for upper case exactly when a shift key is held at that
moment, and exactly when one of the bits is set. -/
def ShiftFollows (codes : List Scancode) : Prop :=
  ∀ i < codes.length,
    (table (keyboardAfter (codes.take i)).isUppercase = uppercase ↔
        shiftHeld (codes.take i) = true) ∧
      (table (keyboardAfter (codes.take i)).isUppercase = uppercase ↔
        shiftBits (keyboardAfter (codes.take i)).modifiers = true)

/-- A shift key goes up while the other one is held. -/
def UpWhileOther (codes : List Scancode) (i : ℕ) : Prop :=
  ∃ hi : i < codes.length, codes[i].isKeyup = true ∧
    ((codes[i].key = keyLeftShift ∧ held keyRightShift (codes.take i) = true) ∨
      (codes[i].key = keyRightShift ∧ held keyLeftShift (codes.take i) = true))

section Steps

variable {codes : List Scancode} {code : Scancode}

theorem held_concat (key : ℕ) (codes : List Scancode) (code : Scancode) :
    held key (codes ++ [code]) = if code.key = key then !code.isKeyup else held key codes := by
  rw [held, List.foldl_append]
  rfl

theorem keyboardAfter_concat (codes : List Scancode) (code : Scancode) :
    keyboardAfter (codes ++ [code]) = (getEvent (keyboardAfter codes) code).2 :=
  keyboardThread.after_append _ codes [code]

theorem table_eq_uppercase_iff {isUppercase : Bool} :
    table isUppercase = uppercase ↔ isUppercase = true := by
  cases isUppercase <;> decide

/-- Both tables have the codes of the shift keys at the places of these keys, and nowhere else. -/
theorem table_shift : ∀ isUppercase : Bool, ∀ key < lowercase.length,
    ((table isUppercase).getD key 0 = codeLeftShift ↔ key = keyLeftShift) ∧
      ((table isUppercase).getD key 0 = codeRightShift ↔ key = keyRightShift) := by
  decide +kernel

theorem decodeScancode_snd (isUppercase : Bool) (code : Scancode) :
    (decodeScancode isUppercase code).2 =
      if code.key = keyLeftShift ∨ code.key = keyRightShift then !code.isKeyup
      else isUppercase := by
  obtain ⟨hleft, hright⟩ := table_shift isUppercase code.key code.inTables
  simp only [decodeScancode, hleft, hright]
  split <;> rfl

/-- The flag is that of the last scancode of a shift key. -/
theorem isUppercase_concat (codes : List Scancode) (code : Scancode) :
    (keyboardAfter (codes ++ [code])).isUppercase =
      if code.key = keyLeftShift ∨ code.key = keyRightShift then !code.isKeyup
      else (keyboardAfter codes).isUppercase := by
  rw [keyboardAfter_concat]
  exact decodeScancode_snd ..

/-- The bit of a modifier. -/
theorem getLsbD_modifier {c i : ℕ} (hi : i < 32) :
    (1#32 <<< c).getLsbD i = decide (c = i) := by
  rw [BitVec.getLsbD_shiftLeft, BitVec.getLsbD_one]
  grind

/-- A scancode changes the bit of its own modifier. -/
theorem getEvent_modifiers (s : Keyboard) (code : Scancode) {i : ℕ} (hi : i < codeEnd.toNat) :
    (getEvent s code).2.modifiers.getLsbD i =
      if ((table s.isUppercase).getD code.key 0).toNat = i then !code.isKeyup
      else s.modifiers.getLsbD i := by
  have hlt : i < 32 := Nat.lt_trans hi (by decide)
  have hfst : (decodeScancode s.isUppercase code).1 = (table s.isUppercase).getD code.key 0 := by
    simp only [decodeScancode]
    split <;> rfl
  simp only [getEvent, hfst]
  generalize (table s.isUppercase).getD code.key 0 = c
  by_cases hc : isModifier c = true
  · rw [if_pos hc]
    cases code.isKeyup
    · have hdown : (if false = true then keyUp else keyDown) = keyDown := rfl
      rw [if_pos hdown, BitVec.getLsbD_or, getLsbD_modifier hlt]
      split <;> simp_all
    · have hup : ¬(if true = true then keyUp else keyDown) = keyDown := by decide
      rw [if_neg hup, BitVec.getLsbD_and, BitVec.getLsbD_not, getLsbD_modifier hlt]
      split <;> simp_all
  · have hne : c.toNat ≠ i := by
      rintro rfl
      exact hc (decide_eq_true hi)
    rw [if_neg hc, if_neg hne]

/-- The bits say which shift keys are held. -/
theorem modifiers_shift (codes : List Scancode) :
    (keyboardAfter codes).modifiers.getLsbD codeLeftShift.toNat = held keyLeftShift codes ∧
      (keyboardAfter codes).modifiers.getLsbD codeRightShift.toNat = held keyRightShift codes := by
  apply keyboardThread.after_induction fun codes s =>
    s.modifiers.getLsbD codeLeftShift.toNat = held keyLeftShift codes ∧
      s.modifiers.getLsbD codeRightShift.toNat = held keyRightShift codes
  · exact ⟨rfl, rfl⟩
  · rintro codes code s ⟨hleft, hright⟩
    obtain ⟨hkeyLeft, hkeyRight⟩ := table_shift s.isUppercase code.key code.inTables
    rw [held_concat, held_concat, ← hleft, ← hright]
    constructor
    · refine (getEvent_modifiers s code (by decide)).trans ?_
      simp only [UInt8.toNat_inj, hkeyLeft]
    · refine (getEvent_modifiers s code (by decide)).trans ?_
      simp only [UInt8.toNat_inj, hkeyRight]

theorem shiftBits_eq (codes : List Scancode) :
    shiftBits (keyboardAfter codes).modifiers = shiftHeld codes := by
  obtain ⟨hleft, hright⟩ := modifiers_shift codes
  rw [shiftBits, hleft, hright, shiftHeld]

/-- Where the flag says what is held, it still does after a scancode other than that of a shift key
that goes up while the other one is held. -/
theorem isUppercase_concat_eq (h : (keyboardAfter codes).isUppercase = shiftHeld codes)
    (hup : code.isKeyup = true →
      ¬((code.key = keyLeftShift ∧ held keyRightShift codes = true) ∨
        (code.key = keyRightShift ∧ held keyLeftShift codes = true))) :
    (keyboardAfter (codes ++ [code])).isUppercase = shiftHeld (codes ++ [code]) := by
  rw [isUppercase_concat, shiftHeld, held_concat, held_concat, h, shiftHeld]
  by_cases hleft : code.key = keyLeftShift
  · have hright : ¬code.key = keyRightShift := by
      rw [hleft]
      decide
    rw [if_pos (Or.inl hleft), if_pos hleft, if_neg hright]
    cases hkeyup : code.isKeyup
    · rfl
    · have hother : held keyRightShift codes = false := by
        rw [← Bool.not_eq_true]
        exact fun hheld => hup hkeyup (Or.inl ⟨hleft, hheld⟩)
      rw [hother]
      rfl
  · rw [if_neg hleft]
    by_cases hright : code.key = keyRightShift
    · rw [if_pos (Or.inr hright), if_pos hright]
      cases hkeyup : code.isKeyup
      · exact (Bool.or_true _).symm
      · have hother : held keyLeftShift codes = false := by
          rw [← Bool.not_eq_true]
          exact fun hheld => hup hkeyup (Or.inr ⟨hright, hheld⟩)
        rw [hother]
        rfl
    · rw [if_neg (not_or.mpr ⟨hleft, hright⟩), if_neg hright]

/-- Where a shift key goes up while the other one is held, the flag is wrong afterwards. -/
theorem UpWhileOther.isUppercase {i : ℕ} (h : UpWhileOther codes i) :
    (keyboardAfter (codes.take (i + 1))).isUppercase = false ∧
      shiftHeld (codes.take (i + 1)) = true := by
  obtain ⟨hi, hup, hkey⟩ := h
  rw [List.take_succ_eq_append_getElem hi, isUppercase_concat, shiftHeld, held_concat, held_concat,
    hup]
  rcases hkey with ⟨hkey, hheld⟩ | ⟨hkey, hheld⟩
  · rw [hkey, hheld]
    exact ⟨rfl, rfl⟩
  · rw [hkey, hheld]
    exact ⟨rfl, rfl⟩

end Steps

/-- **Shift state follows the keys** exactly in the sequences in which no shift key goes up, before
the last scancode, while the other one is held. -/
theorem shift_follows_iff (codes : List Scancode) :
    ShiftFollows codes ↔ ∀ i, i + 1 < codes.length → ¬UpWhileOther codes i := by
  constructor
  · intro hfollows i hi hother
    obtain ⟨hflag, hheld⟩ := hother.isUppercase
    have htable := (hfollows (i + 1) hi).1.mpr hheld
    rw [table_eq_uppercase_iff, hflag] at htable
    cases htable
  · intro hnone
    have hagree : ∀ i < codes.length,
        (keyboardAfter (codes.take i)).isUppercase = shiftHeld (codes.take i) := by
      intro i
      induction i with
      | zero => exact fun _ => rfl
      | succ i ih =>
        intro hi
        have hlt : i < codes.length := Nat.lt_of_succ_lt hi
        rw [List.take_succ_eq_append_getElem hlt]
        apply isUppercase_concat_eq (ih hlt)
        exact fun hup hkey => hnone i hi ⟨hlt, hup, hkey⟩
    intro i hi
    rw [table_eq_uppercase_iff, hagree i hi, shiftBits_eq]
    exact ⟨Iff.rfl, Iff.rfl⟩

/-- The left shift key goes down, then the right one, the left one goes up, and A goes down. -/
def twoShifts : List Scancode :=
  [⟨0x2a, by decide⟩, ⟨0x36, by decide⟩, ⟨0xaa, by decide⟩, ⟨0x1e, by decide⟩]

/-- A small letter is typed with a shift key held. -/
theorem shift_follows_twoShifts : ¬∀ codes, Proper codes → ShiftFollows codes := by
  intro h
  have hproper : Proper twoShifts := by
    unfold Proper
    decide
  have hlast := (h twoShifts hproper 3 (by decide)).1
  revert hlast
  decide

end C4OS.Peripherals
