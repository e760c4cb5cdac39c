import Mathlib.Data.Nat.Notation
import Mathlib.Tactic.ByContra
import Mathlib.Tactic.TypeStar

/-!
# Programs on a device that may fail

A device counts the transfers that are attempted on it, and it is given which ones fail. A program
on the device ends with a value, or it stops: it goes wrong and has no value. `Traced` keeps the
device at the place where the program ends or stops, so that the failures on the way are known in
both cases. Its erasure `Traced.result` is the program as a function that has no result when it
stops.

A program fails (`Traced.Fails`) if one of the transfers that it attempts does, and it attempts
transfers (`Traced.Attempts`) if the counter moves. Both are known for a sequence of two programs
from the parts.
-/

namespace C4OS.Foundations

/-- The states of devices that count the attempted transfers, and fail at some of them. -/
class Attempting (σ : Type*) where
  attempts : σ → ℕ
  fails : σ → ℕ → Bool

open Attempting

/-- A program with the state in which it ends or stops. The counter does not go back, and which
transfers fail stays as it is. -/
structure Traced (σ : Type*) [Attempting σ] (α : Type*) where
  run : σ → Option α × σ
  attempts_le : ∀ s, attempts s ≤ attempts (run s).2
  fails_eq : ∀ s, fails (run s).2 = fails s

namespace Traced

universe u

variable {σ : Type*} [Attempting σ] {α β : Type u} {s : σ} {a : α} {m : Traced σ α}
  {k : α → Traced σ β}

/-! ## Programs -/

/-- The program that ends at once. -/
def done (a : α) : Traced σ α where
  run s := (some a, s)
  attempts_le _ := Nat.le_refl _
  fails_eq _ := rfl

/-- One program after another; when the first one stops, so does the sequence. -/
def seq (m : Traced σ α) (k : α → Traced σ β) : Traced σ β where
  run s :=
    match (m.run s).1 with
    | none => (none, (m.run s).2)
    | some a => (k a).run (m.run s).2
  attempts_le s := by
    split
    · exact m.attempts_le s
    · exact Nat.le_trans (m.attempts_le s) ((k _).attempts_le _)
  fails_eq s := by
    split
    · exact m.fails_eq s
    · exact ((k _).fails_eq _).trans (m.fails_eq s)

instance : Monad (Traced σ) where
  pure := done
  bind := seq

/-- A program that reads the state. -/
def get (f : σ → Option α) : Traced σ α where
  run s := (f s, s)
  attempts_le _ := Nat.le_refl _
  fails_eq _ := rfl

/-- A change of the state that is no transfer. -/
def Local (f : σ → Option σ) : Prop :=
  ∀ s t, f s = some t → attempts t = attempts s ∧ fails t = fails s

/-- A program that changes the state, without a transfer. -/
def update (f : σ → Option σ) (hf : Local f) : Traced σ Unit where
  run s :=
    match f s with
    | none => (none, s)
    | some t => (some (), t)
  attempts_le s := by
    split
    · exact Nat.le_refl _
    · next heq => exact Nat.le_of_eq (hf _ _ heq).1.symm
  fails_eq s := by
    split
    · rfl
    · next heq => exact (hf _ _ heq).2

/-- A function that counts its transfers, and makes none before it stops. -/
def Counts (f : σ → Option (σ × α)) : Prop :=
  ∀ s t a, f s = some (t, a) → attempts s ≤ attempts t ∧ fails t = fails s

/-- A function as a program. -/
def step (f : σ → Option (σ × α)) (hf : Counts f) : Traced σ α where
  run s :=
    match f s with
    | none => (none, s)
    | some (t, a) => (some a, t)
  attempts_le s := by
    split
    · exact Nat.le_refl _
    · next heq => exact (hf _ _ _ heq).1
  fails_eq s := by
    split
    · rfl
    · next heq => exact (hf _ _ _ heq).2

/-! ## Runs -/

theorem run_step_of_some {f : σ → Option (σ × α)} {hf : Counts f} {t : σ} (h : f s = some (t, a)) :
    (step f hf).run s = (some a, t) := by
  show (match f s with | none => _ | some (t, a) => _) = _
  rw [h]

theorem run_step_of_none {f : σ → Option (σ × α)} {hf : Counts f} (h : f s = none) :
    (step f hf).run s = (none, s) := by
  show (match f s with | none => _ | some (t, a) => _) = _
  rw [h]

theorem run_bind_of_some (h : (m.run s).1 = some a) :
    (m >>= k).run s = (k a).run (m.run s).2 := by
  show (match (m.run s).1 with | none => _ | some a => _) = _
  rw [h]

theorem run_bind_of_none (h : (m.run s).1 = none) :
    (m >>= k).run s = (none, (m.run s).2) := by
  show (match (m.run s).1 with | none => _ | some a => _) = _
  rw [h]

/-- A value of a sequence comes from values of its parts. -/
theorem exists_of_bind {b : β} (h : ((m >>= k).run s).1 = some b) :
    ∃ a, (m.run s).1 = some a ∧ ((k a).run (m.run s).2).1 = some b := by
  cases ha : (m.run s).1 with
  | none =>
    rw [run_bind_of_none ha] at h
    cases h
  | some a => exact ⟨a, rfl, by rw [← run_bind_of_some ha, h]⟩

/-! ## Erasure -/

/-- The program as a function without a result when it stops. -/
def result (m : Traced σ α) (s : σ) : Option (σ × α) := (m.run s).1.map fun a => ((m.run s).2, a)

@[simp] theorem result_pure (a : α) (s : σ) : (pure a : Traced σ α).result s = some (s, a) := rfl

@[simp] theorem result_bind (m : Traced σ α) (k : α → Traced σ β) (s : σ) :
    (m >>= k).result s = (m.result s).bind fun x => (k x.2).result x.1 := by
  cases h : (m.run s).1 with
  | none => rw [result, run_bind_of_none h, result, h]; rfl
  | some a => rw [result, run_bind_of_some h, result, h]; rfl

@[simp] theorem result_get (f : σ → Option α) (s : σ) :
    (get f).result s = (f s).map fun a => (s, a) := rfl

@[simp] theorem result_update (f : σ → Option σ) (hf : Local f) (s : σ) :
    (update f hf).result s = (f s).map fun t => (t, ()) := by
  cases h : f s with
  | none => simp [result, update, h]
  | some t => simp [result, update, h]

@[simp] theorem result_step (f : σ → Option (σ × α)) (hf : Counts f) (s : σ) :
    (step f hf).result s = f s := by
  cases h : f s with
  | none => simp [result, step, h]
  | some x => simp [result, step, h]

@[simp] theorem result_ite (c : Prop) [Decidable c] (m m' : Traced σ α) (s : σ) :
    (if c then m else m').result s = if c then m.result s else m'.result s := by
  split <;> rfl

/-- The program ends with a value if and only if its erasure does. -/
theorem result_eq_some_iff {t : σ} : m.result s = some (t, a) ↔ m.run s = (some a, t) := by
  rw [result, Option.map_eq_some_iff]
  constructor
  · rintro ⟨b, hb, heq⟩
    cases heq
    exact Prod.ext hb rfl
  · intro h
    exact ⟨a, by rw [h], by rw [h]⟩

/-! ## What a program ensures -/

/-- The values that the program ends with satisfy `P`. -/
def Ensures (m : Traced σ α) (P : α → Prop) : Prop := ∀ s a, (m.run s).1 = some a → P a

theorem ensures_pure {P : α → Prop} (h : P a) : (pure a : Traced σ α).Ensures P := by
  intro s b hb
  cases hb
  exact h

theorem ensures_get {f : σ → Option α} {P : α → Prop} (h : ∀ s a, f s = some a → P a) :
    (get f).Ensures P := h

theorem Ensures.bind {P : α → Prop} {Q : β → Prop} (hm : m.Ensures P)
    (hk : ∀ a, P a → (k a).Ensures Q) : (m >>= k).Ensures Q := by
  intro s b hb
  obtain ⟨a, ha, hb⟩ := exists_of_bind hb
  exact hk a (hm s a ha) _ _ hb

theorem ensures_bind {Q : β → Prop} (hk : ∀ a, (k a).Ensures Q) : (m >>= k).Ensures Q :=
  Ensures.bind (fun _ _ _ => trivial) fun a (_ : True) => hk a

/-! ## Failures -/

/-- A transfer that the program attempts fails. -/
def Fails (m : Traced σ α) (s : σ) : Prop :=
  ∃ i, attempts s ≤ i ∧ i < attempts (m.run s).2 ∧ fails s i = true

/-- The program attempts a transfer. -/
def Attempts (m : Traced σ α) (s : σ) : Prop := attempts s < attempts (m.run s).2

theorem Fails.attempts (h : m.Fails s) : m.Attempts s := by
  obtain ⟨i, hle, hlt, -⟩ := h
  exact Nat.lt_of_le_of_lt hle hlt

/-- Where all transfers fail, a program fails as soon as it attempts one. -/
theorem Attempts.fails (h : m.Attempts s) (hs : ∀ i, Attempting.fails s i = true) : m.Fails s :=
  ⟨Attempting.attempts s, Nat.le_refl _, h, hs _⟩

theorem not_attempts_pure : ¬ (pure a : Traced σ α).Attempts s := Nat.lt_irrefl _

theorem not_attempts_get {f : σ → Option α} : ¬ (get f).Attempts s := Nat.lt_irrefl _

theorem not_attempts_update {f : σ → Option σ} {hf : Local f} : ¬ (update f hf).Attempts s := by
  show ¬ attempts s < attempts (match f s with | none => (none, s) | some t => (some (), t)).2
  split
  · exact Nat.lt_irrefl _
  · next heq => exact Nat.not_lt_of_le (Nat.le_of_eq (hf _ _ heq).1)

theorem attempts_bind : (m >>= k).Attempts s ↔
    m.Attempts s ∨ ∃ a, (m.run s).1 = some a ∧ (k a).Attempts (m.run s).2 := by
  cases ha : (m.run s).1 with
  | none =>
    rw [Attempts, run_bind_of_none ha]
    exact ⟨.inl, fun h => h.resolve_right fun ⟨_, hsome, _⟩ => nomatch hsome⟩
  | some a =>
    have hm := m.attempts_le s
    have hk := (k a).attempts_le (m.run s).2
    simp only [Attempts, run_bind_of_some ha, Option.some.injEq, exists_eq_left']
    omega

/-- After the state is read, the attempts are those of the rest. -/
theorem attempts_get_bind {f : σ → Option α} :
    (get f >>= k).Attempts s ↔ ∃ a, f s = some a ∧ (k a).Attempts s :=
  attempts_bind.trans (or_iff_right not_attempts_get)

theorem attempts_bind_left (h : m.Attempts s) : (m >>= k).Attempts s := attempts_bind.2 (.inl h)

theorem fails_bind : (m >>= k).Fails s ↔
    m.Fails s ∨ ∃ a, (m.run s).1 = some a ∧ (k a).Fails (m.run s).2 := by
  cases ha : (m.run s).1 with
  | none =>
    rw [Fails, run_bind_of_none ha]
    exact ⟨.inl, fun h => h.resolve_right fun ⟨_, hsome, _⟩ => nomatch hsome⟩
  | some a =>
    have hm := m.attempts_le s
    have hk := (k a).attempts_le (m.run s).2
    simp only [Fails, run_bind_of_some ha, m.fails_eq s, Option.some.injEq, exists_eq_left']
    constructor
    · rintro ⟨i, hle, hlt, hi⟩
      rcases Nat.lt_or_ge i (attempts (m.run s).2) with hlt' | hge
      · exact .inl ⟨i, hle, hlt', hi⟩
      · exact .inr ⟨i, hge, hlt, hi⟩
    · rintro (⟨i, hle, hlt, hi⟩ | ⟨i, hle, hlt, hi⟩)
      · exact ⟨i, hle, Nat.lt_of_lt_of_le hlt hk, hi⟩
      · exact ⟨i, Nat.le_trans hm hle, hlt, hi⟩

/-! ## Values without failures -/

/-- A value that satisfies `P` comes from a run without failures. -/
def CleanWhen (m : Traced σ α) (P : α → Prop) : Prop :=
  ∀ s a, (m.run s).1 = some a → P a → ¬ m.Fails s

theorem Ensures.cleanWhen {P : α → Prop} (h : m.Ensures fun a => ¬ P a) : m.CleanWhen P :=
  fun s a ha hp => absurd hp (h s a ha)

theorem cleanWhen_pure (P : α → Prop) : (pure a : Traced σ α).CleanWhen P :=
  fun _ _ _ _ hf => not_attempts_pure hf.attempts

theorem cleanWhen_get (f : σ → Option α) (P : α → Prop) : (get f).CleanWhen P :=
  fun _ _ _ _ hf => not_attempts_get hf.attempts

/-- Two programs in sequence are clean when both are, where the first one need not be if the second
one cannot make up for it. -/
theorem CleanWhen.bind {P : α → Prop} {Q : β → Prop} (hm : m.CleanWhen P)
    (hk : ∀ a, P a → (k a).CleanWhen Q) (hn : ∀ a, ¬ P a → (k a).Ensures fun b => ¬ Q b) :
    (m >>= k).CleanWhen Q := by
  intro s b hb hq hf
  obtain ⟨a, ha, hb⟩ := exists_of_bind hb
  have hp : P a := by
    by_contra hp
    exact hn a hp _ b hb hq
  rcases fails_bind.1 hf with hf | ⟨a', ha', hf⟩
  · exact hm s a ha hp hf
  · cases ha.symm.trans ha'
    exact hk a hp _ b hb hq hf

/-- Reading the state does not fail. -/
theorem CleanWhen.get_bind {f : σ → Option α} {Q : β → Prop} (hk : ∀ a, (k a).CleanWhen Q) :
    (get f >>= k).CleanWhen Q :=
  (cleanWhen_get f fun _ => True).bind (fun a _ => hk a) fun _ h => absurd trivial h

end Traced

end C4OS.Foundations
