import C4OS.C4alloc.Model
import Mathlib.Data.List.Basic

/-!
# Nodes in the memory

How the nodes of a heap read and write like the cells of an array. A node is read back as it was
written, and the nodes at other addresses keep their fields as long as they are apart (`Nodes`): a
set of addresses at least `sizeof(c4a_node_t)` away from each other, with every node mapped. On such
a set the accesses of the source are total, `Mem.update` and `Mem.updateIf` being the assignments.
-/

namespace C4OS.C4alloc

open Foundations

variable {m : Mem} {a b : Ptr} {n : Node} {f : Node → Node} {B : Ptr → Prop}

namespace Mem

@[simp] theorem mapped_putNode : (m.putNode a n).mapped = m.mapped := rfl

@[simp] theorem accessible_putNode : (m.putNode a n).accessible b = m.accessible b := rfl

theorem byte_putNode_of_notMem {c : ℕ} (h : c < a.toNat ∨ a.toNat + 20 ≤ c) :
    (m.putNode a n).byte c = m.byte c := by
  simp only [putNode]
  iterate 6 rw [writeLE_of_notMem (by omega)]

theorem node_congr {m' : Mem} (h : ∀ i < 20, m'.byte (a.toNat + i) = m.byte (a.toNat + i)) :
    m'.node a = m.node a := by
  have hread : ∀ k j, j + k ≤ 20 → readLE k m'.byte (a.toNat + j) = readLE k m.byte (a.toNat + j) :=
    fun k j hj => readLE_congr fun i hi => by
      rw [Nat.add_assoc]
      exact h _ (by omega)
  have h₀ := hread 4 0 (by omega)
  rw [Nat.add_zero] at h₀
  simp only [node, h₀, hread 4 4 (by omega), hread 4 8 (by omega), hread 4 12 (by omega),
    hread 2 16 (by omega), hread 2 18 (by omega)]

theorem node_putNode_self : (m.putNode a n).node a = n := by
  have h32 : ∀ x : UInt32, UInt32.ofNat (x.toNat % 256 ^ 4) = x := fun x => by
    have hx := x.toNat_lt
    rw [Nat.mod_eq_of_lt (by omega), UInt32.ofNat_toNat]
  have h16 : ∀ x : UInt16, UInt16.ofNat (x.toNat % 256 ^ 2) = x := fun x => by
    have hx := x.toNat_lt
    rw [Nat.mod_eq_of_lt (by omega), UInt16.ofNat_toNat]
  ext1
  all_goals simp only [node, putNode]
  all_goals
    repeat rw [readLE_writeLE_of_disjoint (by omega)]
    rw [readLE_writeLE_self]
  · exact h32 _
  · exact h32 _
  · exact h32 _
  · exact h32 _
  · exact h16 _
  · exact h16 _

theorem node_putNode_of_apart (h : a.toNat + 20 ≤ b.toNat ∨ b.toNat + 20 ≤ a.toNat) :
    (m.putNode a n).node b = m.node b :=
  node_congr fun _ hi => byte_putNode_of_notMem (by omega)

/-- The assignment of `modify`. -/
def update (m : Mem) (a : Ptr) (f : Node → Node) : Mem := m.putNode a (f (m.node a))

/-- The assignment of `modifyIf`. -/
def updateIf (m : Mem) (a : Ptr) (f : Node → Node) : Mem := if a = 0 then m else m.update a f

@[simp] theorem mapped_update : (m.update a f).mapped = m.mapped := rfl

@[simp] theorem mapped_updateIf : (m.updateIf a f).mapped = m.mapped := by
  unfold updateIf
  split <;> rfl

theorem accessible_congr {m' : Mem} (h : m'.mapped = m.mapped) :
    m'.accessible a = m.accessible a := by
  simp only [accessible, h]

end Mem

/-- A set of nodes that are mapped and apart from each other. -/
structure Nodes (m : Mem) (B : Ptr → Prop) : Prop where
  accessible : ∀ a, B a → m.accessible a = true
  apart : ∀ a b, B a → B b → a ≠ b → a.toNat + 20 ≤ b.toNat ∨ b.toNat + 20 ≤ a.toNat

namespace Nodes

theorem ne_zero (h : Nodes m B) (ha : B a) : a ≠ 0 := by
  have := h.accessible a ha
  simp only [Mem.accessible, Bool.and_eq_true, bne_iff_ne] at this
  exact this.1

theorem of_mapped {m' : Mem} (h : Nodes m B) (hm : m'.mapped = m.mapped) : Nodes m' B :=
  ⟨fun a ha => Mem.accessible_congr hm ▸ h.accessible a ha, h.apart⟩

theorem subset {B' : Ptr → Prop} (h : Nodes m B) (hB : ∀ a, B' a → B a) : Nodes m B' :=
  ⟨fun a ha => h.accessible a (hB a ha), fun a b ha hb => h.apart a b (hB a ha) (hB b hb)⟩

/-- One more node. -/
theorem insert (h : Nodes m B) (ha : m.accessible a = true)
    (hap : ∀ b, B b → a.toNat + 20 ≤ b.toNat ∨ b.toNat + 20 ≤ a.toNat) :
    Nodes m fun b => B b ∨ b = a where
  accessible := by
    rintro b (hb | rfl)
    · exact h.accessible b hb
    · exact ha
  apart := by
    rintro b c (hb | rfl) (hc | rfl) hne
    · exact h.apart b c hb hc hne
    · exact (hap b hb).symm
    · exact hap c hc
    · exact absurd rfl hne

protected theorem update (h : Nodes m B) : Nodes (m.update a f) B := h.of_mapped rfl

protected theorem updateIf (h : Nodes m B) : Nodes (m.updateIf a f) B :=
  h.of_mapped Mem.mapped_updateIf

theorem load (h : Nodes m B) (ha : B a) : m.load a = some (m.node a) := by
  rw [Mem.load, if_pos (h.accessible a ha)]

theorem modify (h : Nodes m B) (ha : B a) : m.modify a f = some (m.update a f) := by
  rw [Mem.modify, if_pos (h.accessible a ha), Mem.update]

theorem modifyIf (h : Nodes m B) (ha : a = 0 ∨ B a) : m.modifyIf a f = some (m.updateIf a f) := by
  unfold Mem.modifyIf Mem.updateIf
  split
  · rfl
  · next hne => exact h.modify (ha.resolve_left hne)

theorem node_update (h : Nodes m B) (ha : B a) (hb : B b) :
    (m.update a f).node b = if b = a then f (m.node b) else m.node b := by
  split
  · next he =>
    subst he
    exact Mem.node_putNode_self
  · next hne => exact Mem.node_putNode_of_apart (h.apart a b ha hb (Ne.symm hne))

theorem node_updateIf (h : Nodes m B) (ha : a = 0 ∨ B a) (hb : B b) :
    (m.updateIf a f).node b = if b = a then f (m.node b) else m.node b := by
  unfold Mem.updateIf
  split
  · next h₀ => rw [if_neg (h₀ ▸ h.ne_zero hb)]
  · next hne => exact h.node_update (ha.resolve_left hne) hb

end Nodes

/-! ## Free nodes on a grid -/

/-- The nodes on a grid of 32 bytes that are free stay free, whether or not they are blocks. -/
def StaysFree (o : ℕ) (m m' : Mem) : Prop := ∀ q : Ptr, q.toNat % 32 = o →
  (m.node q).status = c4aStatusFree → (m'.node q).status = c4aStatusFree

namespace StaysFree

variable {o : ℕ} {m₁ m₂ m₃ : Mem}

theorem refl (o : ℕ) (m : Mem) : StaysFree o m m := fun _ _ hq => hq

theorem trans (h₁ : StaysFree o m₁ m₂) (h₂ : StaysFree o m₂ m₃) : StaysFree o m₁ m₃ :=
  fun q ho hq => h₂ q ho (h₁ q ho hq)

/-- The other nodes of a grid are apart from the node that is written. -/
theorem node_update_of_ne {q : Ptr} (ha : a.toNat % 32 = o) (hq : q.toNat % 32 = o)
    (hne : q ≠ a) : (m.update a f).node q = m.node q := by
  apply Mem.node_putNode_of_apart
  have hne' : q.toNat ≠ a.toNat := fun he => hne (UInt32.toNat_inj.1 he)
  omega

theorem update (ha : a.toNat % 32 = o)
    (hf : ∀ n, n.status = c4aStatusFree → (f n).status = c4aStatusFree) :
    StaysFree o m (m.update a f) := by
  intro q hq hfree
  by_cases hqa : q = a
  · subst hqa
    rw [Mem.update, Mem.node_putNode_self]
    exact hf _ hfree
  · rw [node_update_of_ne ha hq hqa]
    exact hfree

theorem updateIf (ha : a = 0 ∨ a.toNat % 32 = o)
    (hf : ∀ n, n.status = c4aStatusFree → (f n).status = c4aStatusFree) :
    StaysFree o m (m.updateIf a f) := by
  unfold Mem.updateIf
  split
  · exact .refl o m
  · next hne => exact .update (ha.resolve_left hne) hf

end StaysFree

end C4OS.C4alloc
