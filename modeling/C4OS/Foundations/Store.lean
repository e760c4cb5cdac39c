import Mathlib.Data.Nat.Notation
import Mathlib.Logic.Function.Basic

/-!
# Stores of records

The memory of a program that reaches its records of type `β` through pointers: a pointer is a
number, `0` is the null pointer, and finitely many addresses hold a record. An access through the
null pointer or to an address that holds no record has no result, so a program that gets through
has made no such access. An `Allocator` is any way to choose an address that is not in use.
-/

namespace C4OS.Foundations

variable {β : Type*}

/-- A finite set of records, each at an address. -/
structure Store (β : Type*) where
  /-- The record at an address. -/
  cell : ℕ → Option β
  /-- No address from `bound` on is in use. -/
  bound : ℕ
  unused : ∀ a, bound ≤ a → cell a = none

namespace Store

/-- The store without records. -/
def empty : Store β := ⟨fun _ => none, 0, fun _ _ => rfl⟩

/-- The record `a` points to. -/
def get (s : Store β) (a : ℕ) : Option β := if a = 0 then none else s.cell a

/-- The store with the record `b` at `a`. -/
def set (s : Store β) (a : ℕ) (b : β) : Store β :=
  ⟨Function.update s.cell a (some b), max s.bound (a + 1), fun c hc => by
    rw [Function.update_of_ne (by omega)]
    exact s.unused c (by omega)⟩

/-- The store without the record at `a`. -/
def free (s : Store β) (a : ℕ) : Store β :=
  ⟨Function.update s.cell a none, s.bound, fun c hc => by
    by_cases h : c = a
    · rw [h, Function.update_self]
    · rw [Function.update_of_ne h]
      exact s.unused c hc⟩

/-- Change the record `a` points to. -/
def modify (s : Store β) (a : ℕ) (f : β → β) : Option (Store β) :=
  (s.get a).map fun b => s.set a (f b)

@[simp] theorem get_zero (s : Store β) : s.get 0 = none := rfl

theorem ne_zero_of_get {s : Store β} {a : ℕ} {b : β} (h : s.get a = some b) : a ≠ 0 := by
  rintro rfl
  simp at h

theorem get_set_self (s : Store β) {a : ℕ} (ha : a ≠ 0) (b : β) : (s.set a b).get a = some b := by
  simp [get, set, ha]

theorem get_set_of_ne (s : Store β) {a c : ℕ} (h : c ≠ a) (b : β) :
    (s.set a b).get c = s.get c := by
  simp [get, set, Function.update_of_ne h]

theorem get_free_of_ne (s : Store β) {a c : ℕ} (h : c ≠ a) : (s.free a).get c = s.get c := by
  simp [get, free, Function.update_of_ne h]

theorem modify_eq {s : Store β} {a : ℕ} {b : β} (h : s.get a = some b) (f : β → β) :
    s.modify a f = some (s.set a (f b)) := by
  simp [modify, h]

/-- Two stores that hold the same records, except at the addresses in `S`. -/
def AgreeOff (S : Set ℕ) (s s' : Store β) : Prop := ∀ a, a ∉ S → s'.get a = s.get a

namespace AgreeOff

variable {S T : Set ℕ} {s s' s'' : Store β}

theorem refl (S : Set ℕ) (s : Store β) : AgreeOff S s s := fun _ _ => rfl

theorem trans (h : AgreeOff S s s') (h' : AgreeOff S s' s'') : AgreeOff S s s'' :=
  fun a ha => (h' a ha).trans (h a ha)

theorem mono (h : AgreeOff S s s') (hST : S ⊆ T) : AgreeOff T s s' :=
  fun a ha => h a fun h => ha (hST h)

theorem set {a : ℕ} (h : AgreeOff S s s') (ha : a ∈ S) (b : β) : AgreeOff S s (s'.set a b) :=
  fun c hc => by
    rw [get_set_of_ne _ (by rintro rfl; exact hc ha)]
    exact h c hc

end AgreeOff

end Store

/-- A choice of an address for a new record: never null, and not in use. -/
structure Allocator (β : Type*) where
  pick : Store β → ℕ
  ne_zero : ∀ s : Store β, pick s ≠ 0
  fresh : ∀ s : Store β, s.get (pick s) = none

/-- The allocator that takes the first address above all records. -/
def Allocator.bump : Allocator β where
  pick s := s.bound + 1
  ne_zero _ := Nat.succ_ne_zero _
  fresh s := by simp [Store.get, s.unused]

end C4OS.Foundations
