import C4OS.C4alloc.Runs

/-!
# Double frees

After a block is freed, its node is in a list, or inside of a block that it was joined with, or it
is the node of a block that was split off there. In all these cases the node says that it is free
(`Dead`), because the nodes of a heap lie on a grid: a node that is written is either the same one,
with the status of a free block, or apart from it. So a second free of the block is refused as long
as the place is not handed out again.
-/

namespace C4OS.C4alloc

open Foundations Relation

/-- The block of a pointer covers the node of another one. -/
def Covers (m : Mem) (q p : Ptr) : Prop :=
  (q - UInt32.ofNat nodeSize).toNat ≤ (p - UInt32.ofNat nodeSize).toNat ∧
    (p - UInt32.ofNat nodeSize).toNat <
      (q - UInt32.ofNat nodeSize).toNat + m.size (q - UInt32.ofNat nodeSize)

/-- A step of a program that does not get a block that covers the node of `p`. -/
def StepAway (p : Ptr) (x y : Program) : Prop :=
  Step x y ∧ ∀ a, y.live = a :: x.live → ¬ Covers y.state.mem a.1 p

/-- A node of no used block, that says that it is free. -/
structure Dead (s : State) (n : ℕ) (U : Ptr → ℕ → Prop) (q : Ptr) : Prop where
  free : (s.mem.node q).status = c4aStatusFree
  grid : q.toNat % 32 = s.heap.start.toNat % 32
  inside : s.heap.start.toNat ≤ q.toNat ∧ q.toNat + 20 ≤ s.heap.start.toNat + 16384 * n
  uncovered : ∀ a i, U a i → a.toNat + 2 ^ i ≤ q.toNat ∨ q.toNat < a.toNat

variable {s s' : State} {n : ℕ} {a p q : Ptr} {C F : ℕ → List Ptr} {U : Ptr → ℕ → Prop}
  {live : List (Ptr × UInt32)}

namespace Dead

/-- A block that is freed leaves a dead node. -/
theorem of_free {i : ℕ} (h : Inv s n C F (fun _ => False) U) (ha : U a i) (hkeep : KeepsFree s s')
    (hself : (s'.mem.node a).status = c4aStatusFree) :
    Dead s' n (fun b j => U b j ∧ b ≠ a) a := by
  have hP := h.phys
  obtain ⟨hB, -, -⟩ := (h.used a i).1 ha
  have hbounds := hP.block_bounds hB
  have hsize := hP.le_size hB
  constructor
  · exact hself
  · rw [hkeep.start]
    exact hP.grid hB
  · rw [hkeep.start]
    omega
  · rintro b j ⟨hU, hne⟩
    obtain ⟨hBb, -, hbk⟩ := (h.used b j).1 hU
    have hdisjoint := hP.disjoint hBb hB hne
    have hsizeb : s.mem.size b = 2 ^ j := by rw [Mem.size, hbk]
    omega

/-- The second free is refused. -/
theorem c4aFree_eq (h : Dead s n U q) (hP : Phys s n C)
    (hq : p - UInt32.ofNat nodeSize = q) : c4aFree s p = some s := by
  have hacc : s.mem.accessible q = true := by
    simp only [Mem.accessible, Bool.and_eq_true, bne_iff_ne, List.all_eq_true, List.mem_range]
    have hinside := h.inside
    constructor
    · rintro rfl
      have hpos := hP.start_pos
      rw [UInt32.toNat_zero] at hinside
      omega
    · exact fun i (hi : i < 20) => hP.mapped _ (by omega) (by omega)
  have hload : s.mem.load q = some (s.mem.node q) := if_pos hacc
  rw [c4aFree, hq]
  refine run_bind hload ?_
  rw [h.free]
  rfl

theorem alloc {n' i : ℕ} (h : Dead s n U q) (hn : n ≤ n')
    (hstart : s'.heap.start = s.heap.start)
    (hkeep : ∀ q : Ptr, q ≠ a → q.toNat % 32 = s.heap.start.toNat % 32 →
      (s.mem.node q).status = c4aStatusFree → (s'.mem.node q).status = c4aStatusFree)
    (haway : a.toNat + 2 ^ i ≤ q.toNat ∨ q.toNat < a.toNat) :
    Dead s' n' (fun b j => U b j ∨ b = a ∧ i = j) q := by
  have hne : q ≠ a := by
    rintro rfl
    have hpos := Nat.two_pow_pos i
    omega
  have hinside := h.inside
  constructor
  · exact hkeep q hne h.grid h.free
  · rw [hstart]
    exact h.grid
  · rw [hstart]
    omega
  · rintro b j (hU | ⟨rfl, rfl⟩)
    · exact h.uncovered b j hU
    · exact haway

theorem free_other (h : Dead s n U q) (hkeep : KeepsFree s s') :
    Dead s' n (fun b j => U b j ∧ b ≠ a) q := by
  constructor
  · exact hkeep.free q h.grid h.free
  · rw [hkeep.start]
    exact h.grid
  · rw [hkeep.start]
    exact h.inside
  · exact fun b j hU => h.uncovered b j hU.1

/-- A write to a payload is apart from a dead node. -/
theorem write {c i : ℕ} {x : UInt8} (h : Dead s n U q) (hP : Phys s n C) (ha : U a i)
    (hB : Block n C a) (hc : a.toNat + 20 ≤ c) (hc' : c < a.toNat + 2 ^ i) :
    Dead ⟨s.heap, { s.mem with byte := Function.update s.mem.byte c x }⟩ n U q := by
  have hnode : Mem.node { s.mem with byte := Function.update s.mem.byte c x } q =
      s.mem.node q := by
    apply Mem.node_congr
    intro j hj
    apply Function.update_of_ne
    have hgrid := hP.grid hB
    have hgrid' := h.grid
    rcases h.uncovered a i ha with hlt | hlt <;> omega
  exact ⟨by rw [hnode]; exact h.free, h.grid, h.inside, h.uncovered⟩

end Dead

/-- A step away from a dead node leaves it dead. -/
theorem Inv.step_dead {x y : Program} (hinv : Inv x.state n C F (fun _ => False) U)
    (hlive : Live U x.live) (hdead : Dead x.state n U (p - UInt32.ofNat nodeSize))
    (hstep : StepAway p x y) :
    ∃ n' C' F' U', Inv y.state n' C' F' (fun _ => False) U' ∧ Live U' y.live ∧
      Dead y.state n' U' (p - UInt32.ofNat nodeSize) := by
  obtain ⟨hstep, haway⟩ := hstep
  cases hstep with
  | @alloc s s' live size r hsize hrun =>
    rcases hinv.step_alloc hlive hsize hrun with
      ⟨rfl, rfl⟩ | ⟨a, n', C', F', rfl, hne, hst, hkeep, hinv', hlive', hrows⟩
    · exact ⟨n, C, F, U, hinv, hlive, hdead⟩
    · simp only [if_neg hne] at haway ⊢
      refine ⟨n', C', F', _, hinv', hlive', hdead.alloc ?_ hst hkeep ?_⟩
      · cases hrows with
        | carve => exact Nat.le_refl n
        | grow => exact Nat.le_succ n
      · have hcover := haway _ rfl
        obtain ⟨-, -, hbk⟩ := (hinv'.used a _).1 (.inr ⟨rfl, rfl⟩)
        rw [Covers, payload_node, Mem.size, hbk] at hcover
        omega
  | @free s s' live size r hmem hrun =>
    obtain ⟨a, i, C', F', -, -, hkeep, -, hinv', hlive', -⟩ := hinv.step_free hlive hmem hrun
    exact ⟨n, C', F', _, hinv', hlive', hdead.free_other hkeep⟩
  | @write s live size r c x hmem hc hc' =>
    obtain ⟨⟨a, i, hU, h₁, h₂⟩, hinv', -⟩ := hinv.step_write (x := x) hlive hmem hc hc'
    exact ⟨n, C, F, U, hinv', hlive, hdead.write hinv.phys hU ((hinv.used a i).1 hU).1 h₁ h₂⟩

/-- **Double frees are refused.** After a block is freed and any further steps of the program in
which no block that covers its node is handed out, another free of the block leaves the heap and
the memory as they are. -/
theorem double_free_refused (m : Mem) (location : Ptr) {x y : Program} {size : UInt32}
    (hrun : ReflTransGen Step ⟨c4aHeapInit m location, []⟩ x) (hlive : (p, size) ∈ x.live)
    (hfree : c4aFree x.state p = some s)
    (haway : ReflTransGen (StepAway p) ⟨s, x.live.erase (p, size)⟩ y) :
    c4aFree y.state p = some y.state := by
  obtain ⟨-, n, C, F, U, hinv, hused⟩ := Good.of_run m location hrun
  have hdead : ∃ n C F U, Inv y.state n C F (fun _ => False) U ∧ Live U y.live ∧
      Dead y.state n U (p - UInt32.ofNat nodeSize) := by
    induction haway with
    | refl =>
      obtain ⟨a, i, C', F', hU, rfl, hkeep, hself, hinv', hlive', -⟩ :=
        hinv.step_free hused hlive hfree
      refine ⟨n, C', F', _, hinv', hlive', ?_⟩
      rw [payload_node]
      exact .of_free hinv hU hkeep hself
    | tail _ hstep ih =>
      obtain ⟨n', C', F', U', hinv', hlive', hdead⟩ := ih
      exact hinv'.step_dead hlive' hdead hstep
  obtain ⟨n', C', F', U', hinv', -, hdead⟩ := hdead
  exact hdead.c4aFree_eq hinv'.phys rfl

/-- The second half of a chunk is freed, joined with the first half and split off again. -/
theorem double_free_refused_split : ∃ s₁ s₂ s₃ s₄ s₅,
    c4aAlloc (c4aHeapInit ⟨fun _ => 0, fun _ => false⟩ 0xe0000000) 8000 = some (0xe0000014, s₁) ∧
      c4aAlloc s₁ 8000 = some (0xe0002014, s₂) ∧ c4aFree s₂ 0xe0002014 = some s₃ ∧
      c4aFree s₃ 0xe0000014 = some s₄ ∧ c4aAlloc s₄ 8000 = some (0xe0000014, s₅) ∧
      c4aFree s₅ 0xe0002014 = some s₅ := by
  have hruns : (do
      let first ← c4aAlloc (c4aHeapInit ⟨fun _ => 0, fun _ => false⟩ 0xe0000000) 8000
      let second ← c4aAlloc first.2 8000
      let s ← c4aFree second.2 0xe0002014
      let s ← c4aFree s 0xe0000014
      let third ← c4aAlloc s 8000
      return (first.1, second.1, third.1, third.2.mem.size 0xe0000000)) =
        some ((0xe0000014 : Ptr), (0xe0002014 : Ptr), (0xe0000014 : Ptr), 8192) := by decide +kernel
  obtain ⟨⟨p, s₁⟩, h₁, hruns⟩ := Option.bind_eq_some_iff.1 hruns
  obtain ⟨⟨q, s₂⟩, h₂, hruns⟩ := Option.bind_eq_some_iff.1 hruns
  obtain ⟨s₃, h₃, hruns⟩ := Option.bind_eq_some_iff.1 hruns
  obtain ⟨s₄, h₄, hruns⟩ := Option.bind_eq_some_iff.1 hruns
  obtain ⟨⟨r, s₅⟩, h₅, hruns⟩ := Option.bind_eq_some_iff.1 hruns
  obtain ⟨rfl, hrest⟩ := Prod.mk.inj (Option.some.inj hruns)
  obtain ⟨rfl, hlast⟩ := Prod.mk.inj hrest
  obtain ⟨rfl, hsize⟩ := Prod.mk.inj hlast
  refine ⟨s₁, s₂, s₃, s₄, s₅, h₁, h₂, h₃, h₄, h₅, ?_⟩
  have hrun : ReflTransGen Step ⟨c4aHeapInit ⟨fun _ => 0, fun _ => false⟩ 0xe0000000, []⟩
      ⟨s₂, [(0xe0002014, 8000), (0xe0000014, 8000)]⟩ :=
    .tail (.single (.alloc (by decide) h₁)) (.alloc (by decide) h₂)
  have hfree : StepAway 0xe0002014 ⟨s₃, [(0xe0000014, 8000)]⟩ ⟨s₄, []⟩ :=
    ⟨.free (List.mem_singleton_self _) h₄, fun a heq => by cases heq⟩
  have halloc : StepAway 0xe0002014 ⟨s₄, []⟩ ⟨s₅, [(0xe0000014, 8000)]⟩ := by
    refine ⟨.alloc (by decide) h₅, fun a heq hcovers => ?_⟩
    obtain rfl : (0xe0000014, 8000) = a := (List.cons.inj heq).1
    have hlt : 0xe0002000 < 0xe0000000 + s₅.mem.size 0xe0000000 := hcovers.2
    rw [hsize] at hlt
    exact absurd hlt (by decide)
  exact double_free_refused _ _ hrun (List.mem_cons_self ..) h₃
    (.tail (.single hfree) halloc)

end C4OS.C4alloc
