import Mathlib.Data.Set.Basic
import Mathlib.Data.List.Forall2

/-!
# Pictures in layers

A picture gives each point a color. A layer has an area and a color at each point of it, and is
painted over a picture; `compose` paints several layers over each other, the first one first. What a
composition shows at a point depends on the layers at the point alone (`compose_congr`), so that
layers may be clipped to an area that has the point, and those that do not reach it may be left out
or moved (`compose_flatMap_filter`).
-/

namespace C4OS.Foundations

/-- A color for each point of an area. -/
structure Layer (P C : Type*) where
  area : Set P
  color : P → C

namespace Layer

variable {P C : Type*} {l m : Layer P C} {ls ms : List (Layer P C)} {f g : P → C} {p : P}
  {s : Set P}

open Classical in
/-- The picture with a layer over it. -/
noncomputable def paint (l : Layer P C) (f : P → C) (p : P) : C :=
  if p ∈ l.area then l.color p else f p

theorem paint_of_mem (h : p ∈ l.area) : l.paint f p = l.color p := if_pos h

theorem paint_of_notMem (h : p ∉ l.area) : l.paint f p = f p := if_neg h

/-- The part of a layer inside an area. -/
def clip (l : Layer P C) (s : Set P) : Layer P C := ⟨l.area ∩ s, l.color⟩

/-- Two layers are the same at a point. -/
def AgreeAt (p : P) (l m : Layer P C) : Prop :=
  (p ∈ l.area ↔ p ∈ m.area) ∧ (p ∈ l.area → l.color p = m.color p)

theorem AgreeAt.refl (p : P) (l : Layer P C) : AgreeAt p l l := ⟨Iff.rfl, fun _ => rfl⟩

theorem AgreeAt.of_notMem (hl : p ∉ l.area) (hm : p ∉ m.area) : AgreeAt p l m :=
  ⟨iff_of_false hl hm, fun h => absurd h hl⟩

theorem AgreeAt.paint (h : AgreeAt p l m) (hf : f p = g p) : l.paint f p = m.paint g p := by
  by_cases hp : p ∈ l.area
  · rw [paint_of_mem hp, paint_of_mem (h.1.mp hp), h.2 hp]
  · rw [paint_of_notMem hp, paint_of_notMem (mt h.1.mpr hp), hf]

/-- The picture with several layers over it. -/
noncomputable def compose (ls : List (Layer P C)) (f : P → C) : P → C :=
  ls.foldl (fun f l => l.paint f) f

@[simp] theorem compose_nil : compose [] f = f := rfl

@[simp] theorem compose_cons : compose (l :: ls) f = compose ls (l.paint f) := rfl

theorem compose_append : compose (ls ++ ms) f = compose ms (compose ls f) := List.foldl_append ..

/-- A composition shows at a point what the layers and the picture are there. -/
theorem compose_congr (h : List.Forall₂ (AgreeAt p) ls ms) (hf : f p = g p) :
    compose ls f p = compose ms g p := by
  induction h generalizing f g with
  | nil => exact hf
  | cons h _ ih => exact ih (h.paint hf)

theorem compose_congr_base (hf : f p = g p) : compose ls f p = compose ls g p :=
  compose_congr (List.forall₂_same.mpr fun l _ => .refl p l) hf

/-- Layers that do not reach a point do not change it. -/
theorem compose_of_forall_notMem (h : ∀ l ∈ ls, p ∉ l.area) : compose ls f p = f p := by
  induction ls generalizing f with
  | nil => rfl
  | cons l ls ih =>
    rw [compose_cons, ih fun m hm => h m (List.mem_cons_of_mem _ hm),
      paint_of_notMem (h l List.mem_cons_self)]

/-- Things whose layers do not reach a point may be left out. -/
theorem compose_flatMap_filter {A : Type*} {as : List A} {G : A → List (Layer P C)} {q : A → Bool}
    (h : ∀ a ∈ as, q a = false → ∀ l ∈ G a, p ∉ l.area) :
    compose (as.flatMap G) f p = compose ((as.filter q).flatMap G) f p := by
  induction as generalizing f with
  | nil => rfl
  | cons a as ih =>
    obtain ⟨ha, has⟩ := List.forall_mem_cons.mp h
    rw [List.flatMap_cons, compose_append, ih has]
    cases hq : q a with
    | false =>
      rw [List.filter_cons_of_neg (by simp [hq])]
      exact compose_congr_base (compose_of_forall_notMem (ha hq))
    | true => rw [List.filter_cons_of_pos hq, List.flatMap_cons, compose_append]

end Layer

end C4OS.Foundations
