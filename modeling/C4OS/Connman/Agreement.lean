import C4OS.Connman.Conversation

/-!
# Points that agree

Only one client at a time is in the middle of a conversation with the server. The point of the
client then fits that of the server (`Meets`), and nobody else has the temporary endpoint of the
client. `Agreed` is this invariant, together with what the records of the server are, and the moves
of the parties keep it: a client creates an object (`Agreed.build`) or grants its temporary endpoint
(`Agreed.request`), the conversation goes on (`Agreed.next`), and the server returns the record
(`Agreed.accept`).
-/

namespace C4OS.Connman.Handshake

open Foundations Andtree

/-- The temporary endpoint that the server talks over. -/
def ServerPoint.temp : ServerPoint → Option ℕ
  | .idle => none
  | .request temp | .allocating temp | .numbering temp _ | .reply temp _ _ | .awaitTo temp _ _
  | .awaitFrom temp _ _ _ | .awaitPage temp _ _ _ _ => some temp
  | .mapping _ _ h | .done _ _ h _ => some h.temp

/-- The new record. -/
def ServerPoint.ptr : ServerPoint → Option Ptr
  | .idle | .request _ | .allocating _ => none
  | .numbering _ ptr | .reply _ ptr _ | .awaitTo _ ptr _ | .awaitFrom _ ptr _ _
  | .awaitPage _ ptr _ _ _ | .mapping ptr _ _ | .done ptr _ _ _ => some ptr

/-- The number of the new record. -/
def ServerPoint.number : ServerPoint → Option ℕ
  | .idle | .request _ | .allocating _ | .numbering _ _ => none
  | .reply _ _ id | .awaitTo _ _ id | .awaitFrom _ _ id _ | .awaitPage _ _ id _ _
  | .mapping _ id _ | .done _ id _ _ => some id

/-- A client and the server are in the same conversation. -/
inductive Meets : ServerPoint → ClientPoint → Prop
  | request (h : Handles) : Meets (.request h.temp) (.requesting h)
  | allocating (h : Handles) : Meets (.allocating h.temp) (.waiting h)
  | numbering (h : Handles) (ptr : Ptr) : Meets (.numbering h.temp ptr) (.waiting h)
  | reply (h : Handles) (ptr : Ptr) (id : ℕ) : Meets (.reply h.temp ptr id) (.waiting h)
  | awaitTo (h : Handles) (ptr : Ptr) (id : ℕ) :
      Meets (.awaitTo h.temp ptr id) (.grantingTo h id)
  | awaitFrom (h : Handles) (ptr : Ptr) (id : ℕ) :
      Meets (.awaitFrom h.temp ptr id h.asyncTo) (.grantingFrom h id)
  | awaitPage (h : Handles) (ptr : Ptr) (id : ℕ) :
      Meets (.awaitPage h.temp ptr id h.asyncTo h.asyncFrom) (.grantingPage h id)
  | mapping (h : Handles) (ptr : Ptr) (id : ℕ) : Meets (.mapping ptr id h) (.connected h id)
  | done (h : Handles) (ptr : Ptr) (id : ℕ) (mapped : Bool) :
      Meets (.done ptr id h mapped) (.connected h id)

theorem Meets.temp {sp : ServerPoint} {pt : ClientPoint} (h : Meets sp pt) :
    ∃ hd : Handles, pt.objects = hd.objects ∧ sp.temp = some hd.temp := by
  cases h <;> exact ⟨_, rfl, rfl⟩

section Agreed

variable {ι : Type}

/-- A returned record is that of a connected client. -/
def Made (issued : Fresh → List ℕ) (cp : ι → ClientPoint) (srv : ConnServer) (a : ℕ × Ptr) : Prop :=
  ∃ c h id, cp c = .connected h id ∧ a.1 = h.temp ∧
    srv.record a.2 = h.record id (a.2 ∈ srv.mapped) ∧ a.2 ∈ issued .memory ∧ id ∈ issued .number

/-- The points of the clients and of the server, with the records of the server. -/
structure Agreed (port : ℕ) (cp : ι → ClientPoint) (sp : ServerPoint) (srv : ConnServer)
    (issued : Fresh → List ℕ) : Prop where
  port_issued : port ∈ issued .object
  port_not_mem : ∀ c, port ∉ (cp c).objects
  objects_issued : ∀ c, ∀ o ∈ (cp c).objects, o ∈ issued .object
  apart : ∀ c d, ∀ o ∈ (cp c).objects, o ∈ (cp d).objects → c = d
  meets : ∀ c, (cp c).Busy → Meets sp (cp c)
  partner : sp ≠ .idle → ∃ c, Meets sp (cp c)
  temp_new : ∀ t, sp.temp = some t → ∀ a ∈ srv.accepted, a.1 ≠ t
  ptr_new : ∀ p, sp.ptr = some p → p ∈ issued .memory ∧ p ≠ null ∧ ∀ a ∈ srv.accepted, a.2 ≠ p
  number_new : ∀ id, sp.number = some id → id ∈ issued .number ∧ id < 2 ^ 32 ∧
    ∀ a ∈ srv.accepted, (srv.record a.2).clientId ≠ id
  made : ∀ a ∈ srv.accepted, Made issued cp srv a
  mapped : ∀ p ∈ srv.mapped, ∃ a ∈ srv.accepted, a.2 = p
  temps : (srv.accepted.map Prod.fst).Nodup
  numbers : (srv.accepted.map fun a => (srv.record a.2).clientId).Nodup
  connects : Connects srv.server (srv.accepted.map fun a => (a.2, (srv.record a.2).clientId))

variable {port : ℕ} {cp cp' : ι → ClientPoint} {sp sp' : ServerPoint} {srv srv' : ConnServer}
  {issued issued' : Fresh → List ℕ} {a : ℕ × Ptr} {c d : ι} {pt : ClientPoint} {hd : Handles}

/-- A record stays the one of its client, which stays connected. -/
theorem Made.mono (h : Made issued cp srv a) (hissued : ∀ k, issued k ⊆ issued' k)
    (hcp : ∀ c h id, cp c = .connected h id → a.1 = h.temp → cp' c = .connected h id) :
    Made issued' cp' srv a := by
  obtain ⟨c, h, id, hc, htemp, hrec, hmem, hid⟩ := h
  exact ⟨c, h, id, hcp c h id hc htemp, htemp, hrec, hissued _ hmem, hissued _ hid⟩

namespace Agreed

/-- The server talks to one client. -/
theorem unique (h : Agreed port cp sp srv issued) (hc : Meets sp (cp c)) (hd : Meets sp (cp d)) :
    c = d := by
  obtain ⟨h₁, hobj₁, htemp₁⟩ := hc.temp
  obtain ⟨h₂, hobj₂, htemp₂⟩ := hd.temp
  have heq : h₁.temp = h₂.temp := Option.some.inj (htemp₁.symm.trans htemp₂)
  apply h.apart c d h₁.temp
  · simp [hobj₁, Handles.objects]
  · simp [hobj₂, heq, Handles.objects]

/-- A connected client that the server talks to has no record yet. -/
theorem not_made (h : Agreed port cp sp srv issued) (hc : Meets sp (cp c)) {id : ℕ}
    (hpt : cp c = .connected hd id) (ha : a ∈ srv.accepted) : a.1 ≠ hd.temp := by
  rw [hpt] at hc
  cases hc with
  | mapping => exact h.temp_new _ rfl a ha
  | done => exact h.temp_new _ rfl a ha

variable [DecidableEq ι]

/-- A client creates an object. -/
theorem build (h : Agreed port cp sp srv issued) {objects : List ℕ} {v : ℕ}
    (hc : cp c = .building objects) (hv : v ∉ issued .object) :
    Agreed port (Function.update cp c (.building (v :: objects))) sp srv
      (Function.update issued .object (v :: issued .object)) := by
  have hissued (k : Fresh) :
      issued k ⊆ Function.update issued .object (v :: issued .object) k := by
    cases k with
    | object => exact List.subset_cons_self ..
    | number => exact List.Subset.refl _
    | memory => exact List.Subset.refl _
  have hother {e : ι} {o : ℕ} (hne : e ≠ c) (ho : o ∈ (cp e).objects) : o ≠ v := by
    rintro rfl
    exact hv (h.objects_issued e o ho)
  have hold {o : ℕ} (ho : o ∈ objects) : o ∈ (cp c).objects := by rwa [hc]
  have hmeets {e : ι} (hm : Meets sp (cp e)) : e ≠ c := by
    rintro rfl
    rw [hc] at hm
    cases hm
  constructor
  · exact hissued _ h.port_issued
  · intro e
    rcases eq_or_ne e c with rfl | hne
    · rw [Function.update_self]
      intro hmem
      rcases List.mem_cons.mp hmem with rfl | hmem
      · exact hv h.port_issued
      · exact h.port_not_mem e (hold hmem)
    · rw [Function.update_of_ne hne]
      exact h.port_not_mem e
  · intro e o ho
    rcases eq_or_ne e c with rfl | hne
    · rw [Function.update_self] at ho
      rcases List.mem_cons.mp ho with rfl | ho
      · exact List.mem_cons_self
      · exact hissued _ (h.objects_issued e o (hold ho))
    · rw [Function.update_of_ne hne] at ho
      exact hissued _ (h.objects_issued e o ho)
  · intro e f o he hf
    rcases eq_or_ne e c with rfl | hec <;> rcases eq_or_ne f e with rfl | hfe
    · rfl
    · rw [Function.update_self] at he
      rw [Function.update_of_ne hfe] at hf
      rcases List.mem_cons.mp he with rfl | he
      · exact absurd rfl (hother hfe hf)
      · exact h.apart e f o (hold he) hf
    · rfl
    · rw [Function.update_of_ne hec] at he
      rcases eq_or_ne f c with rfl | hfc
      · rw [Function.update_self] at hf
        rcases List.mem_cons.mp hf with rfl | hf
        · exact absurd rfl (hother hec he)
        · exact h.apart e f o he (hold hf)
      · rw [Function.update_of_ne hfc] at hf
        exact h.apart e f o he hf
  · intro e he
    rcases eq_or_ne e c with rfl | hne
    · rw [Function.update_self] at he
      exact he.elim
    · rw [Function.update_of_ne hne] at he ⊢
      exact h.meets e he
  · intro hsp
    obtain ⟨e, he⟩ := h.partner hsp
    exact ⟨e, by rwa [Function.update_of_ne (hmeets he)]⟩
  · exact h.temp_new
  · exact h.ptr_new
  · exact h.number_new
  · intro a ha
    apply (h.made a ha).mono hissued
    intro e hd id he _
    have hne : e ≠ c := by
      rintro rfl
      cases hc.symm.trans he
    rwa [Function.update_of_ne hne]
  · exact h.mapped
  · exact h.temps
  · exact h.numbers
  · exact h.connects

/-- The points go on, with the same objects. -/
theorem advance (h : Agreed port cp sp srv issued) (hobj : pt.objects = (cp c).objects)
    (hc : ∀ hd id, cp c = .connected hd id → pt = .connected hd id ∨ Meets sp (cp c))
    (hpt : Meets sp' pt) (hbusy : ∀ d, d ≠ c → ¬(cp d).Busy)
    (htemp : ∀ t, sp'.temp = some t → ∀ a ∈ srv.accepted, a.1 ≠ t)
    (hissued : ∀ k, issued k ⊆ issued' k) (hobjects : issued' .object = issued .object)
    (hptr : ∀ p, sp'.ptr = some p → sp.ptr = some p ∨
      p ∉ issued .memory ∧ p ∈ issued' .memory ∧ p ≠ null)
    (hnumber : ∀ id, sp'.number = some id → sp.number = some id ∨
      id ∉ issued .number ∧ id ∈ issued' .number ∧ id < 2 ^ 32) :
    Agreed port (Function.update cp c pt) sp' srv issued' := by
  have hobj' (e : ι) : (Function.update cp c pt e).objects = (cp e).objects := by
    rcases eq_or_ne e c with rfl | hne
    · rw [Function.update_self, hobj]
    · rw [Function.update_of_ne hne]
  constructor
  · rw [hobjects]
    exact h.port_issued
  · intro e
    rw [hobj']
    exact h.port_not_mem e
  · intro e
    rw [hobj', hobjects]
    exact h.objects_issued e
  · intro e f
    rw [hobj', hobj']
    exact h.apart e f
  · intro e he
    rcases eq_or_ne e c with rfl | hne
    · rwa [Function.update_self]
    · rw [Function.update_of_ne hne] at he
      exact absurd he (hbusy e hne)
  · intro _
    exact ⟨c, by rwa [Function.update_self]⟩
  · exact htemp
  · intro p hp
    rcases hptr p hp with hold | ⟨hnew, hmem, hnull⟩
    · obtain ⟨hmem, hnull, hne⟩ := h.ptr_new p hold
      exact ⟨hissued _ hmem, hnull, hne⟩
    · refine ⟨hmem, hnull, fun a ha => ?_⟩
      rintro rfl
      obtain ⟨-, -, -, -, -, -, hmem, -⟩ := h.made a ha
      exact hnew hmem
  · intro id hid
    rcases hnumber id hid with hold | ⟨hnew, hmem, hlt⟩
    · obtain ⟨hmem, hlt, hne⟩ := h.number_new id hold
      exact ⟨hissued _ hmem, hlt, hne⟩
    · refine ⟨hmem, hlt, fun a ha => ?_⟩
      rintro rfl
      obtain ⟨-, hd, id, -, -, hrec, -, hmem⟩ := h.made a ha
      rw [hrec] at hnew
      exact hnew hmem
  · intro a ha
    apply (h.made a ha).mono hissued
    intro e hd id he ht
    rcases eq_or_ne e c with rfl | hne
    · rw [Function.update_self]
      rcases hc hd id he with hpt | hm
      · exact hpt
      · exact absurd ht (h.not_made hm he ha)
    · rwa [Function.update_of_ne hne]
  · exact h.mapped
  · exact h.temps
  · exact h.numbers
  · exact h.connects

/-- A client grants its temporary endpoint. -/
theorem request (h : Agreed port cp .idle srv issued) (hc : cp c = .building hd.objects) :
    Agreed port (Function.update cp c (.requesting hd)) (.request hd.temp) srv issued := by
  apply h.advance
  · rw [hc]
    rfl
  · intro _ _ he
    cases hc.symm.trans he
  · exact .request hd
  · intro d _ hbusy
    cases hm : cp d <;> have := h.meets d hbusy <;> rw [hm] at this <;> cases this
  · rintro t ⟨⟩ a ha heq
    obtain ⟨e, he, id, hpt, htemp, -⟩ := h.made a ha
    have hec : e = c := by
      apply h.apart e c hd.temp
      · simp [hpt, ClientPoint.objects, Handles.objects, ← htemp, heq]
      · simp [hc, ClientPoint.objects, Handles.objects]
    rw [hec, hc] at hpt
    cases hpt
  · exact fun k => List.Subset.refl _
  · rfl
  · rintro p ⟨⟩
  · rintro id ⟨⟩

/-- The conversation goes on. -/
theorem next (h : Agreed port cp sp srv issued) (hc : Meets sp (cp c)) (hpt : Meets sp' pt)
    (hobj : pt.objects = (cp c).objects) (htemp : sp'.temp = sp.temp)
    (hissued : ∀ k, issued k ⊆ issued' k) (hobjects : issued' .object = issued .object)
    (hptr : ∀ p, sp'.ptr = some p → sp.ptr = some p ∨
      p ∉ issued .memory ∧ p ∈ issued' .memory ∧ p ≠ null)
    (hnumber : ∀ id, sp'.number = some id → sp.number = some id ∨
      id ∉ issued .number ∧ id ∈ issued' .number ∧ id < 2 ^ 32) :
    Agreed port (Function.update cp c pt) sp' srv issued' := by
  apply h.advance hobj (fun _ _ _ => .inr hc) hpt _ _ hissued hobjects hptr hnumber
  · intro d hne hbusy
    exact hne (h.unique (h.meets d hbusy) hc)
  · rw [htemp]
    exact h.temp_new

omit [DecidableEq ι] in
/-- The server returns the record. -/
theorem accept {calloc : Allocator AndNode} {ptr : Ptr} {id : ℕ} {mapped : Bool}
    (h : Agreed port cp (.done ptr id hd mapped) srv issued)
    (ha : srv.Accepts calloc ptr id hd mapped srv') :
    Agreed port cp .idle srv' issued := by
  obtain ⟨c, hc⟩ := h.partner (by simp)
  obtain ⟨hptr, hnull, hptr_new⟩ := h.ptr_new ptr rfl
  obtain ⟨hid, hlt, hid_new⟩ := h.number_new id rfl
  have hpt : cp c = .connected hd id := by
    cases hm : cp c <;> rw [hm] at hc <;> cases hc
    rfl
  have hrec {a : ℕ × Ptr} (hmem : a ∈ srv.accepted) : srv'.record a.2 = srv.record a.2 :=
    ha.record_of_ne a.2 (hptr_new a hmem)
  -- the record is mapped if it was mapped now
  have hnot : ptr ∉ srv.mapped := fun hmem => by
    obtain ⟨a, hmem, heq⟩ := h.mapped ptr hmem
    exact hptr_new a hmem heq
  have hmapped_self : decide (ptr ∈ srv'.mapped) = mapped := by
    rw [ha.mapped_eq]
    cases mapped
    · simpa using hnot
    · simp
  have hmapped {p : Ptr} (hp : p ≠ ptr) : p ∈ srv'.mapped ↔ p ∈ srv.mapped := by
    rw [ha.mapped_eq]
    cases mapped
    · exact Iff.rfl
    · simp [hp]
  have hself : (srv'.record ptr).clientId = id := by rw [ha.record_self, Handles.record]
  constructor
  · exact h.port_issued
  · exact h.port_not_mem
  · exact h.objects_issued
  · exact h.apart
  · intro d hbusy
    have heq := h.unique (h.meets d hbusy) hc
    rw [heq, hpt] at hbusy
    exact hbusy.elim
  · exact fun hne => absurd rfl hne
  · rintro t ⟨⟩
  · rintro p ⟨⟩
  · rintro id ⟨⟩
  · rw [ha.accepted]
    intro a hmem
    rcases List.mem_cons.mp hmem with rfl | hmem
    · refine ⟨c, hd, id, hpt, rfl, ?_, hptr, hid⟩
      rw [hmapped_self]
      exact ha.record_self
    · obtain ⟨e, he, n, hpt, htemp, hrecord, hissued⟩ := h.made a hmem
      refine ⟨e, he, n, hpt, htemp, ?_, hissued⟩
      rw [hrec hmem, hrecord, decide_eq_decide.2 (hmapped (hptr_new a hmem))]
  · intro p hp
    rw [ha.accepted]
    rcases eq_or_ne p ptr with rfl | hne
    · exact ⟨_, List.mem_cons_self, rfl⟩
    · obtain ⟨a, hmem, rfl⟩ := h.mapped p ((hmapped hne).1 hp)
      exact ⟨a, List.mem_cons_of_mem _ hmem, rfl⟩
  · rw [ha.accepted, List.map_cons, List.nodup_cons]
    constructor
    · intro hmem
      obtain ⟨a, hmem, heq⟩ := List.mem_map.mp hmem
      exact h.temp_new hd.temp rfl a hmem heq
    · exact h.temps
  · rw [ha.accepted, List.map_cons, List.map_congr_left fun a hmem => by rw [hrec hmem],
      List.nodup_cons, hself]
    constructor
    · intro hmem
      obtain ⟨a, hmem, heq⟩ := List.mem_map.mp hmem
      exact hid_new a hmem heq
    · exact h.numbers
  · rw [ha.accepted, List.map_cons, List.map_congr_left fun a hmem => by rw [hrec hmem], hself]
    apply Connects.connect calloc h.connects hnull _ hlt ha.connect
    rw [List.map_map]
    intro hmem
    obtain ⟨a, hmem, heq⟩ := List.mem_map.mp hmem
    exact hptr_new a hmem heq

end Agreed

end Agreed

end C4OS.Connman.Handshake
