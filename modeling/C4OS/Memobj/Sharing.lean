import C4OS.Connman.Messages
import C4OS.Foundations.Exchange
import C4OS.Memobj.Model

/-!
# Sharing memory objects

`c4_memobj_share` sends the permissions of an object and then grants it, twice; `c4_memobj_recieve`
takes one message with the permissions and one grant. What the kernel answers to the two grants is
an argument: a grant that is refused delivers nothing. The assertions of `c4_memobj_recieve` only
print, so that a flag beside each object says whether they held.

One party shares a sequence of objects and the other one receives as many, over one synchronous
endpoint. They come to an end, with the right objects, no failed assertion and nothing left on the
endpoint, exactly when every first grant is accepted and every second one refused
(`memobj_sharing_matched_iff`).
-/

namespace C4OS.Memobj

open Foundations Connman.Handshake

/-! ## The programs -/

/-- An object to share, with the answers of the kernel to its two grants. -/
structure ShareCall where
  memobj : MemObject
  first : ℤ
  second : ℤ

/-- `c4_cspace_grant` with its result. -/
def grantResult (ret : ℤ) (object e : ℕ) : Program ℤ :=
  if ret < 0 then return ret
  else do
    cspaceGrant object e
    return ret

/-- `C4_ERROR_NONE`. -/
def errorNone : ℤ := 0

/-- The first message of `c4_memobj_share`. -/
def permissionsMessage (memobj : MemObject) : Message :=
  { type := .other 0xdeadbeef, data := fun i => if i = 0 then memobj.permissions else 0 }

/-- `c4_memobj_share`. -/
def memobjShare (call : ShareCall) (endpoint : ℕ) : Program ℤ := do
  msgSend (permissionsMessage call.memobj) endpoint
  let temp ← grantResult call.first call.memobj.pageObj endpoint
  if temp < 0 then return temp
  else
    let temp ← grantResult call.second call.memobj.pageObj endpoint
    if temp < 0 then return temp
    else return errorNone

/-- `c4_memobj_recieve`, with whether its two assertions held. -/
def memobjRecieve (vaddr endpoint : ℕ) : Program (MemObject × Bool) := do
  let msg ← msgRecieve endpoint
  let described : Bool := msg.type = .other 0xdeadbeef
  let permissions := msg.data 0
  let msg ← msgRecieve endpoint
  let granted : Bool := msg.type = .grantObject
  return (⟨vaddr, msg.data 5, permissions, false⟩, described && granted)

/-- A sequence of calls of `c4_memobj_share`. -/
def shareAll (endpoint : ℕ) : List ShareCall → Program (List ℤ)
  | [] => return []
  | call :: calls => do
    let ret ← memobjShare call endpoint
    let rets ← shareAll endpoint calls
    return ret :: rets

/-- A sequence of calls of `c4_memobj_recieve`. -/
def recieveAll (endpoint : ℕ) : List ℕ → Program (List (MemObject × Bool))
  | [] => return []
  | vaddr :: vaddrs => do
    let obj ← memobjRecieve vaddr endpoint
    let objs ← recieveAll endpoint vaddrs
    return obj :: objs

/-! ## The two parties -/

/-- The two parties. -/
inductive Side where
  | sharer
  | receiver
  deriving DecidableEq

/-- What the calls of a party return. -/
abbrev Results : Side → Type
  | .sharer => List ℤ
  | .receiver => List (MemObject × Bool)

/-- Both parties before their calls. -/
def sharing (endpoint : ℕ) (calls : List ShareCall) (vaddrs : List ℕ) :
    System Side Message Fresh Results where
  state
    | .sharer => []
    | .receiver => []
  proc
    | .sharer => some (shareAll endpoint calls)
    | .receiver => some (recieveAll endpoint vaddrs)
  queue _ := []
  issued _ := []

/-- One system comes after another; the parties make no other calls. -/
abbrev Later : System Side Message Fresh Results → System Side Message Fresh Results → Prop :=
  System.Reaches (C := Empty) legal fun _ _ call => call.elim

/-- The objects as the receiver should get them, with no failed assertion. -/
def received (vaddrs : List ℕ) (calls : List ShareCall) : List (MemObject × Bool) :=
  List.zipWith
    (fun vaddr call => (⟨vaddr, call.memobj.pageObj, call.memobj.permissions, false⟩, true))
    vaddrs calls

/-- Whatever happens, both parties can still end, the receiver with the shared objects and no failed
assertion. So no message is left when they have ended. -/
def Matched (endpoint : ℕ) (calls : List ShareCall) (vaddrs : List ℕ) : Prop :=
  ∀ s, Later (sharing endpoint calls vaddrs) s → ∃ s', Later s s' ∧
    System.Ended Side.sharer Side.receiver (received vaddrs calls) s'

/-! ## What the sharer sends -/

/-- The message of a grant. -/
def grantMessage (object : ℕ) : Message :=
  { type := .grantObject, data := fun i => if i = 5 then object else 0 }

/-- The messages of a call of `c4_memobj_share`. -/
def messages (call : ShareCall) : List Message :=
  permissionsMessage call.memobj ::
    if call.first < 0 then []
    else grantMessage call.memobj.pageObj ::
      if call.second < 0 then [] else [grantMessage call.memobj.pageObj]

theorem memobjShare_sends (call : ShareCall) (e : ℕ) :
    ∃ ret, Proc.Sends e (memobjShare call e) (messages call) ret := by
  unfold memobjShare messages grantResult cspaceGrant msgSend
  by_cases h₁ : call.first < 0
  · simp only [h₁, if_true, Proc.bind_eq, Proc.bind, Proc.pure_eq]
    exact ⟨_, .send (.ret _)⟩
  by_cases h₂ : call.second < 0
  · simp only [h₁, h₂, if_true, if_false, Proc.bind_eq, Proc.bind, Proc.pure_eq]
    exact ⟨_, .send (.send (.ret _))⟩
  · simp only [h₁, h₂, if_false, Proc.bind_eq, Proc.bind, Proc.pure_eq]
    exact ⟨_, .send (.send (.send (.ret _)))⟩

theorem shareAll_sends (e : ℕ) (calls : List ShareCall) :
    ∃ rets, Proc.Sends e (shareAll e calls) (calls.flatMap messages) rets := by
  induction calls with
  | nil => exact ⟨_, .ret _⟩
  | cons call calls ih =>
    obtain ⟨ret, hret⟩ := memobjShare_sends call e
    obtain ⟨rets, hrets⟩ := ih
    refine ⟨ret :: rets, hret.bind ?_⟩
    have h := hrets.bind (f := fun rets => .ret (ret :: rets)) (.ret _)
    rwa [List.append_nil] at h

/-! ## What the receiver makes of it -/

/-- The receiver with at least one call. -/
theorem recieveAll_cons (e vaddr : ℕ) (vaddrs : List ℕ) :
    recieveAll e (vaddr :: vaddrs) = .receive e fun msg => .receive e fun msg' =>
      (recieveAll e vaddrs).bind fun objs =>
        .ret ((⟨vaddr, msg'.data 5, msg.data 0, false⟩,
          decide (msg.type = .other 0xdeadbeef) && decide (msg'.type = .grantObject)) :: objs) := rfl

theorem recieveAll_onlyReceives (e : ℕ) (vaddrs : List ℕ) :
    Proc.OnlyReceives e (recieveAll e vaddrs) := by
  induction vaddrs with
  | nil => exact .ret _
  | cons vaddr vaddrs ih =>
    rw [recieveAll_cons]
    exact .receive fun msg => .receive fun msg' => ih.bind fun objs => .ret _

theorem permissionsMessage_type (memobj : MemObject) :
    (permissionsMessage memobj).type = .other 0xdeadbeef := rfl

theorem grantMessage_type (object : ℕ) : (grantMessage object).type = .grantObject := rfl

/-- No assertion of the first call fails exactly when its two messages are a description and a
grant. -/
theorem recieveAll_call (e vaddr : ℕ) (vaddrs : List ℕ) (msg msg' : Message) (msgs : List Message)
    (obj : MemObject) (objs : List (MemObject × Bool)) :
    Proc.Receives e (recieveAll e (vaddr :: vaddrs)) (msg :: msg' :: msgs)
        (.ret ((obj, true) :: objs)) ↔
      msg.type = .other 0xdeadbeef ∧ msg'.type = .grantObject ∧
        obj = ⟨vaddr, msg'.data 5, msg.data 0, false⟩ ∧
        Proc.Receives e (recieveAll e vaddrs) msgs (.ret objs) := by
  rw [recieveAll_cons, Proc.receives_receive_iff, Proc.receives_receive_iff]
  constructor
  · intro h
    obtain ⟨objs', h', heq⟩ := h.of_bind_ret (recieveAll_onlyReceives e vaddrs)
    obtain ⟨hobj, rfl⟩ := List.cons.inj heq
    obtain ⟨rfl, hflag⟩ := Prod.mk.inj hobj
    obtain ⟨hmsg, hmsg'⟩ := Bool.and_eq_true_iff.1 hflag.symm
    exact ⟨of_decide_eq_true hmsg, of_decide_eq_true hmsg', rfl, h'⟩
  · rintro ⟨hmsg, hmsg', rfl, h⟩
    have h' := h.bind_ret (f := fun objs => ((⟨vaddr, msg'.data 5, msg.data 0, false⟩,
      decide (msg.type = .other 0xdeadbeef) && decide (msg'.type = .grantObject)) ::
        objs : List (MemObject × Bool)))
    simpa only [hmsg, hmsg', decide_true, Bool.and_true] using h'

/-- A call of the receiver takes two messages. -/
theorem not_recieveAll_single (e : ℕ) (vaddrs : List ℕ) (msg : Message)
    (objs : List (MemObject × Bool)) :
    ¬ Proc.Receives e (recieveAll e vaddrs) [msg] (.ret objs) := by
  intro h
  cases vaddrs with
  | nil => cases h
  | cons vaddr vaddrs =>
    rw [recieveAll_cons, Proc.receives_receive_iff] at h
    cases h

/-- The receiver cannot begin with a grant. -/
theorem not_recieveAll_grant (e object : ℕ) (vaddrs : List ℕ) (msgs : List Message)
    (calls : List ShareCall) :
    ¬ Proc.Receives e (recieveAll e vaddrs) (grantMessage object :: msgs)
      (.ret (received vaddrs calls)) := by
  intro h
  cases vaddrs with
  | nil => cases h
  | cons vaddr vaddrs =>
    cases msgs with
    | nil => exact not_recieveAll_single _ _ _ _ h
    | cons msg' msgs =>
      cases calls with
      | nil =>
        -- the calls of the receiver return an object
        rw [recieveAll_cons, Proc.receives_receive_iff, Proc.receives_receive_iff] at h
        obtain ⟨objs', -, heq⟩ := h.of_bind_ret (recieveAll_onlyReceives e vaddrs)
        cases heq
      | cons call calls =>
        have htype := ((recieveAll_call ..).1 h).1
        rw [grantMessage_type] at htype
        cases htype

/-- The receiver returns after a sequence of messages exactly when they are those of its calls, one
after the other. -/
theorem recieveAll_receives_iff (e : ℕ) {calls : List ShareCall} {vaddrs : List ℕ}
    (hlen : vaddrs.length = calls.length) :
    Proc.Receives e (recieveAll e vaddrs) (calls.flatMap messages) (.ret (received vaddrs calls)) ↔
      ∀ call ∈ calls, 0 ≤ call.first ∧ call.second < 0 := by
  induction calls generalizing vaddrs with
  | nil =>
    obtain rfl := List.eq_nil_of_length_eq_zero hlen
    simp only [List.not_mem_nil, false_imp_iff, implies_true, iff_true]
    exact .refl _
  | cons call calls ih =>
    obtain ⟨vaddr, vaddrs, rfl⟩ := List.exists_cons_of_length_eq_add_one hlen
    have ih := ih (Nat.succ.inj hlen)
    rw [List.flatMap_cons, List.forall_mem_cons, messages]
    by_cases h₁ : call.first < 0
    · -- the grant does not come, so that the next message is none or a description
      rw [if_pos h₁, List.singleton_append]
      refine iff_of_false (fun h => ?_) fun h => absurd h.1.1 (by omega)
      cases calls with
      | nil => exact not_recieveAll_single _ _ _ _ h
      | cons call' calls =>
        rw [List.flatMap_cons, messages, List.cons_append] at h
        have htype := ((recieveAll_call ..).1 h).2.1
        rw [permissionsMessage_type] at htype
        cases htype
    rw [if_neg h₁]
    by_cases h₂ : call.second < 0
    · rw [if_pos h₂, ← ih]
      simp only [h₂, Int.not_lt.1 h₁, and_true, true_and]
      refine (recieveAll_call ..).trans ?_
      exact ⟨fun h => h.2.2.2, fun h => ⟨rfl, rfl, rfl, h⟩⟩
    · -- the second grant is taken for the next object
      rw [if_neg h₂]
      refine iff_of_false (fun h => ?_) fun h => h₂ h.1.2
      exact not_recieveAll_grant _ _ _ _ _ ((recieveAll_call ..).1 h).2.2.2

/-- **Sharing memory objects.** For every sequence of calls of `c4_memobj_share`, answered by as many
calls of `c4_memobj_recieve`: the two sides match exactly when the kernel accepts every first grant
and refuses every second one. -/
theorem memobj_sharing_matched_iff (endpoint : ℕ) (calls : List ShareCall) (vaddrs : List ℕ)
    (hlen : vaddrs.length = calls.length) :
    Matched endpoint calls vaddrs ↔ ∀ call ∈ calls, 0 ≤ call.first ∧ call.second < 0 := by
  obtain ⟨rets, hsends⟩ := shareAll_sends endpoint calls
  rw [← recieveAll_receives_iff endpoint hlen]
  apply System.exchange_completes_iff (by decide) (fun r => by cases r <;> simp) hsends
    (recieveAll_onlyReceives endpoint vaddrs) rfl rfl

/-- Two objects, of which the kernel grants each one once. -/
theorem memobj_sharing_matched_iff_once :
    Matched 5 [⟨⟨0, 7, 3, true⟩, 0, -1⟩, ⟨⟨0, 8, 1, true⟩, 0, -1⟩] [0x1000, 0x2000] ↔
      ∀ call ∈ [(⟨⟨0, 7, 3, true⟩, 0, -1⟩ : ShareCall), ⟨⟨0, 8, 1, true⟩, 0, -1⟩],
        0 ≤ call.first ∧ call.second < 0 :=
  memobj_sharing_matched_iff 5 _ [0x1000, 0x2000] rfl

/-- One object, with both grants handed over: the receiver takes one, and the sharer waits with the
other. -/
theorem not_matched_single : ¬ Matched 5 [⟨⟨0, 7, 3, true⟩, 0, 0⟩] [0x1000] := by
  intro h
  obtain ⟨rets, hsends⟩ := shareAll_sends 5 [⟨⟨0, 7, 3, true⟩, 0, 0⟩]
  have hreceives := (System.exchange_completes_iff (by decide) (fun r => by cases r <;> simp) hsends
    (recieveAll_onlyReceives 5 [0x1000]) rfl rfl).1 h
  have hcall := (recieveAll_receives_iff 5 rfl).1 hreceives _ List.mem_cons_self
  exact absurd hcall.2 (by decide)

end C4OS.Memobj
