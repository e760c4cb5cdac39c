import C4OS.Foundations.Rendezvous

/-!
# A sender and a receiver on one endpoint

Two programs that share a synchronous endpoint: one only sends (`Proc.Sends`), the other only
receives (`Proc.OnlyReceives`). The messages pass in order, so all that matters is what the receiver
makes of the sequence of all messages (`Proc.Receives`). `exchange_completes_iff` says that the two
always come to an end together exactly when the receiver returns after this very sequence.
-/

namespace C4OS.Foundations

namespace Proc

variable {M K A B : Type} {e : ℕ}

/-- The program sends these messages and returns. -/
inductive Sends (e : ℕ) : Proc M K A → List M → A → Prop
  | ret (a : A) : Sends e (.ret a) [] a
  | send {msg : M} {next : Proc M K A} {msgs : List M} {a : A} (h : Sends e next msgs a) :
      Sends e (.send e msg next) (msg :: msgs) a

/-- The program becomes the other one when it is given these messages. -/
inductive Receives (e : ℕ) : Proc M K A → List M → Proc M K A → Prop
  | refl (x : Proc M K A) : Receives e x [] x
  | receive {msg : M} {next : M → Proc M K A} {msgs : List M} {y : Proc M K A}
      (h : Receives e (next msg) msgs y) : Receives e (.receive e next) (msg :: msgs) y

/-- All that the program does is to receive. -/
inductive OnlyReceives (e : ℕ) : Proc M K A → Prop
  | ret (a : A) : OnlyReceives e (.ret a)
  | abort : OnlyReceives e .abort
  | receive {next : M → Proc M K A} (h : ∀ msg, OnlyReceives e (next msg)) :
      OnlyReceives e (.receive e next)

theorem Sends.bind {x : Proc M K A} {f : A → Proc M K B} {msgs msgs' : List M} {a : A} {b : B}
    (h : Sends e x msgs a) (h' : Sends e (f a) msgs' b) : Sends e (x.bind f) (msgs ++ msgs') b := by
  induction h with
  | ret a => exact h'
  | send _ ih => exact .send (ih h')

theorem OnlyReceives.bind {x : Proc M K A} {f : A → Proc M K B} (h : OnlyReceives e x)
    (h' : ∀ a, OnlyReceives e (f a)) : OnlyReceives e (x.bind f) := by
  induction h with
  | ret a => exact h' a
  | abort => exact .abort
  | receive _ ih => exact .receive ih

theorem OnlyReceives.of_receives {x y : Proc M K A} {msgs : List M} (h : OnlyReceives e x)
    (hy : Receives e x msgs y) : OnlyReceives e y := by
  induction hy with
  | refl x => exact h
  | receive _ ih =>
    cases h with
    | receive h => exact ih (h _)

theorem receives_receive_iff {next : M → Proc M K A} {msgs : List M} {msg : M} {y : Proc M K A} :
    Receives e (.receive e next) (msg :: msgs) y ↔ Receives e (next msg) msgs y := by
  constructor
  · intro h
    cases h with
    | receive h => exact h
  · exact .receive

theorem Receives.snoc {x : Proc M K A} {next : M → Proc M K A} {msgs : List M} {msg : M}
    (h : Receives e x msgs (.receive e next)) : Receives e x (msgs ++ [msg]) (next msg) := by
  generalize hy : Proc.receive e next = y at h
  induction h with
  | refl x =>
    subst hy
    exact .receive (.refl _)
  | receive _ ih => exact .receive (ih hy)

theorem Receives.bind_ret {x : Proc M K A} {f : A → B} {msgs : List M} {a : A}
    (h : Receives e x msgs (.ret a)) :
    Receives e (x.bind fun a => .ret (f a)) msgs (.ret (f a)) := by
  generalize hy : Proc.ret a = y at h
  induction h with
  | refl x =>
    subst hy
    exact .refl _
  | receive _ ih => exact .receive (ih hy)

/-- A program that changes its result returns when it does without the change. -/
theorem Receives.of_bind_ret {x : Proc M K A} {f : A → B} {msgs : List M} {b : B}
    (h : Receives e (x.bind fun a => .ret (f a)) msgs (.ret b)) (hx : OnlyReceives e x) :
    ∃ a, Receives e x msgs (.ret a) ∧ b = f a := by
  induction hx generalizing msgs with
  | ret a =>
    cases h
    exact ⟨a, .refl _, rfl⟩
  | abort => cases h
  | receive _ ih =>
    cases h with
    | receive h =>
      obtain ⟨a, ha, hb⟩ := ih _ h
      exact ⟨a, .receive ha, hb⟩

/-- What is left to receive after the first messages. -/
theorem Receives.rest {x y z : Proc M K A} {msgs msgs' : List M} (h : Receives e x msgs y)
    (hz : Receives e x (msgs ++ msgs') z) : Receives e y msgs' z := by
  induction h with
  | refl x => exact hz
  | receive _ ih =>
    cases hz with
    | receive hz => exact ih hz

end Proc

namespace System

variable {P M K C : Type} {σ : P → Type} [DecidableEq P] [DecidableEq K] {p q : P} {e : ℕ}
  {legal : K → ℕ → Prop} {start : ∀ p, σ p → C → Proc M K (σ p)}

/-- In the middle of an exchange: of all messages some have passed. The sender has the rest before
it, or has ended; the receiver is where the first messages lead it, or has ended there. -/
structure Exchanging (p q : P) (e : ℕ) (msgs : List M) (a : σ p) (x₀ : Proc M K (σ q))
    (passed left : List M) (y : Proc M K (σ q)) (s : System P M K σ) : Prop where
  split : msgs = passed ++ left
  receives : Proc.Receives e x₀ passed y
  sender : (∃ x, s.proc p = some x ∧ Proc.Sends e x left a) ∨
    (left = [] ∧ s.proc p = none ∧ s.state p = a)
  receiver : s.proc q = some y ∨ ∃ b, y = .ret b ∧ s.proc q = none ∧ s.state q = b

/-- Both programs have ended, and the receiver has returned `b`. -/
def Ended (p q : P) (b : σ q) (s : System P M K σ) : Prop :=
  s.proc p = none ∧ s.proc q = none ∧ s.state q = b

section

variable {msgs passed left : List M} {a : σ p} {b : σ q} {x₀ y : Proc M K (σ q)}
  {s s' : System P M K σ}

/-- **One step of an exchange.** -/
theorem Exchanging.step [IsEmpty C] (hpq : p ≠ q) (hall : ∀ r, r = p ∨ r = q)
    (hx₀ : Proc.OnlyReceives e x₀) (h : Exchanging p q e msgs a x₀ passed left y s)
    (hs : Step legal start s s') :
    ∃ passed left y, Exchanging p q e msgs a x₀ passed left y s' := by
  have hy := hx₀.of_receives h.receives
  -- a program that runs is the sender's or the receiver's
  have hsender : ∀ {x}, s.proc p = some x → Proc.Sends e x left a := fun hx => by
    rcases h.sender with ⟨x', hx', hsends⟩ | ⟨-, hnone, -⟩
    · rw [hx'] at hx
      rwa [← Option.some.inj hx]
    · rw [hnone] at hx
      cases hx
  have hreceiver : ∀ {x}, s.proc q = some x → x = y := fun hx => by
    rcases h.receiver with hsome | ⟨b, -, hnone, -⟩
    · rw [hsome] at hx
      exact (Option.some.inj hx).symm
    · rw [hnone] at hx
      cases hx
  have hplain : ∀ {r} {x : Proc M K (σ r)}, s.proc r = some x →
      (∃ e msg next, x = .send e msg next) ∨ (∃ e next, x = .receive e next) ∨ (∃ c, x = .ret c) ∨
        x = .abort := by
    intro r x hr
    rcases hall r with rfl | rfl
    · cases hsender hr with
      | ret a => exact .inr (.inr (.inl ⟨_, rfl⟩))
      | send _ => exact .inl ⟨_, _, _, rfl⟩
    · have hx := hreceiver hr
      subst hx
      cases hy with
      | ret a => exact .inr (.inr (.inl ⟨_, rfl⟩))
      | abort => exact .inr (.inr (.inr rfl))
      | receive _ => exact .inr (.inl ⟨_, _, rfl⟩)
  cases hs with
  | @rendezvous p' q' e' msg next next' hne hp' hq' =>
    rcases hall p' with rfl | rfl
    · rcases hall q' with rfl | rfl
      · exact absurd rfl hne
      · have hy' := hreceiver hq'
        subst hy'
        cases hsender hp' with
        | @send _ _ left' _ hsends =>
          cases hy with
          | receive hnext =>
            refine ⟨passed ++ [msg], left', next' msg, by simp [h.split], h.receives.snoc,
              .inl ⟨next, ?_, hsends⟩, .inl setProc_self⟩
            rw [setProc_of_ne hpq, setProc_self]
    · have hy' := hreceiver hp'
      subst hy'
      cases hy
  | post hp' => simpa using hplain hp'
  | poll hp' _ => simpa using hplain hp'
  | pollNone hp' _ => simpa using hplain hp'
  | fresh hp' _ _ => simpa using hplain hp'
  | test _ hp' => simpa using hplain hp'
  | @finish p' c hp' =>
    rcases hall p' with rfl | rfl
    · cases hsender hp'
      refine ⟨passed, [], y, h.split, h.receives, .inr ⟨rfl, finish_proc_self, finish_state_self⟩,
        ?_⟩
      rw [finish_proc_of_ne hpq.symm, finish_state_of_ne hpq.symm]
      exact h.receiver
    · have hy' := hreceiver hp'
      refine ⟨passed, left, y, h.split, h.receives, ?_,
        .inr ⟨c, hy'.symm, finish_proc_self, finish_state_self⟩⟩
      rw [finish_proc_of_ne hpq, finish_state_of_ne hpq]
      exact h.sender
  | start call _ => exact isEmptyElim call

/-- An exchange comes to its end when the receiver returns after the messages that are left. -/
theorem Exchanging.completes (hpq : p ≠ q) (hb : Proc.Receives e x₀ msgs (.ret b))
    (h : Exchanging p q e msgs a x₀ passed left y s) :
    ∃ s', Reaches legal start s s' ∧ Ended p q b s' := by
  induction left generalizing passed y s with
  | nil =>
    rw [h.split] at hb
    obtain rfl : y = .ret b := by
      cases h.receives.rest hb
      rfl
    -- the receiver ends
    obtain ⟨s₁, hs₁, hq₁, hb₁, hp₁⟩ : ∃ s₁, Reaches legal start s s₁ ∧ s₁.proc q = none ∧
        s₁.state q = b ∧ s₁.proc p = s.proc p := by
      rcases h.receiver with hsome | ⟨b', hret, hnone, hstate⟩
      · exact ⟨s.finish q b, .single (.finish hsome), finish_proc_self, finish_state_self,
          finish_proc_of_ne hpq⟩
      · cases hret
        exact ⟨s, .refl, hnone, hstate, rfl⟩
    -- the sender ends
    rcases h.sender with ⟨x, hx, hsends⟩ | ⟨-, hnone, -⟩
    · cases hsends
      refine ⟨s₁.finish p a, hs₁.tail (.finish (hp₁.trans hx)), finish_proc_self, ?_, ?_⟩
      · rw [finish_proc_of_ne hpq.symm, hq₁]
      · rw [finish_state_of_ne hpq.symm, hb₁]
    · exact ⟨s₁, hs₁, hp₁.trans hnone, hq₁, hb₁⟩
  | cons msg left ih =>
    have hrest := hb
    rw [h.split] at hrest
    cases h.receives.rest hrest with
    | @receive _ next _ _ hnext =>
      have hq : s.proc q = some (.receive e next) := by
        rcases h.receiver with hsome | ⟨b', hret, -⟩
        · exact hsome
        · cases hret
      rcases h.sender with ⟨x, hx, hsends⟩ | ⟨hnil, -⟩
      · cases hsends with
        | @send _ rest _ _ hsends =>
          have hstep : Step legal start s ((s.setProc p (some rest)).setProc q (some (next msg))) :=
            .rendezvous hpq hx hq
          have hnext : Exchanging p q e msgs a x₀ (passed ++ [msg]) left (next msg)
              ((s.setProc p (some rest)).setProc q (some (next msg))) := by
            refine ⟨?_, h.receives.snoc, .inl ⟨rest, ?_, hsends⟩, .inl setProc_self⟩
            · rw [h.split, List.append_assoc, List.singleton_append]
            · rw [setProc_of_ne hpq, setProc_self]
          obtain ⟨s', hs', hend⟩ := ih hnext
          exact ⟨s', .head hstep hs', hend⟩
      · cases hnil

/-- **A sender and a receiver end together**, from every state that they can come to, exactly when
the receiver returns after the messages of the sender. -/
theorem exchange_completes_iff [IsEmpty C] (hpq : p ≠ q) (hall : ∀ r, r = p ∨ r = q)
    {x : Proc M K (σ p)} (hx : Proc.Sends e x msgs a) (hx₀ : Proc.OnlyReceives e x₀)
    (hp : s.proc p = some x) (hq : s.proc q = some x₀) :
    (∀ s₁, Reaches legal start s s₁ → ∃ s₂, Reaches legal start s₁ s₂ ∧ Ended p q b s₂) ↔
      Proc.Receives e x₀ msgs (.ret b) := by
  have hstart : Exchanging p q e msgs a x₀ [] msgs x₀ s :=
    ⟨rfl, .refl x₀, .inl ⟨x, hp, hx⟩, .inl hq⟩
  have hruns : ∀ s₁, Reaches legal start s s₁ →
      ∃ passed left y, Exchanging p q e msgs a x₀ passed left y s₁ := by
    intro s₁ hs₁
    apply Reaches.induction (fun s => ∃ passed left y, Exchanging p q e msgs a x₀ passed left y s)
      hs₁ ⟨_, _, _, hstart⟩
    rintro s s' ⟨_, _, _, h⟩ hs
    exact h.step hpq hall hx₀ hs
  constructor
  · intro h
    obtain ⟨s₂, hs₂, hpn, hqn, hb⟩ := h s .refl
    obtain ⟨passed, left, y, hex⟩ := hruns s₂ hs₂
    rcases hex.sender with ⟨x', hx', -⟩ | ⟨rfl, -⟩
    · rw [hpn] at hx'
      cases hx'
    rcases hex.receiver with hsome | ⟨b', rfl, -, hb'⟩
    · rw [hqn] at hsome
      cases hsome
    · rw [hex.split, List.append_nil, ← hb, hb']
      exact hex.receives
  · intro h s₁ hs₁
    obtain ⟨_, _, _, hex⟩ := hruns s₁ hs₁
    exact hex.completes hpq h

end

end System

end C4OS.Foundations
