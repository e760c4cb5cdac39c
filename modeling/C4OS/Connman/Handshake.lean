import C4OS.Connman.Agreement

/-!
# The handshake of a connection

The programs of a system keep to the conversations, from points that agree (`Inv`), and each step
keeps this. So the grants of a client arrive at the server in the order in which the client makes
them.

A client that is connected and the record that the server made for it have the same number and the
endpoints of each other, and no other record has a part in them (`Inv.linked`). They have the same
page exactly when the server could map it (`handshake_agrees_iff`): `handle_connect` returns the
record also when it could not.
-/

namespace C4OS.Connman.Handshake

open Foundations Andtree

/-! ## The steps of a system -/

section Steps

variable {ι : Type} [DecidableEq ι] {calloc : Allocator AndNode} {port : ℕ}

/-- What a client keeps fits its point. -/
def Kept (port : ℕ) (pt : ClientPoint) (kept : Option (Conn × ℕ)) (running : Bool) : Prop :=
  (kept = none ∧ (running = false → pt = .building [])) ∨
    ∃ h id, kept = some (h.conn port id, h.temp) ∧ pt = .connected h id

/-- The programs of the parties keep to the conversations, from points that agree. -/
structure Inv (calloc : Allocator AndNode) (port : ℕ)
    (s : System (Option ι) Message Fresh (Party ι)) (cp : ι → ClientPoint) (sp : ServerPoint) :
    Prop where
  agreed : Agreed port cp sp (s.state none) s.issued
  client : ∀ c prog, s.proc (some c) = some prog → ClientFollows port (cp c) prog
  kept : ∀ c, Kept port (cp c) (s.state (some c)) (s.proc (some c)).isSome
  server : ∀ prog, s.proc none = some prog → ServerFollows calloc port (s.state none) sp prog
  idle : s.proc none = none → sp = .idle

variable {s s' : System (Option ι) Message Fresh (Party ι)} {cp : ι → ClientPoint}
  {sp sp' : ServerPoint} {c d : ι} {pt : ClientPoint}

namespace Inv

/-- A client moves, and maybe the server with it. -/
theorem move (h : Inv calloc port s cp sp) {prog : Program (Option (Conn × ℕ))}
    (hstate : s'.state = s.state) (hother : ∀ d, d ≠ c → s'.proc (some d) = s.proc (some d))
    (hagreed : Agreed port (Function.update cp c pt) sp' (s.state none) s'.issued)
    (hprog : s'.proc (some c) = some prog) (hfollows : ClientFollows port pt prog)
    (hpt : ∀ hd id, cp c = .connected hd id → pt = .connected hd id)
    (hserver : ∀ prog, s'.proc none = some prog →
      ServerFollows calloc port (s.state none) sp' prog)
    (hidle : s'.proc none = none → sp' = .idle) :
    Inv calloc port s' (Function.update cp c pt) sp' := by
  constructor
  · rwa [hstate]
  · intro d prog' hd
    rcases eq_or_ne d c with rfl | hne
    · rw [Function.update_self]
      rw [hprog] at hd
      cases hd
      exact hfollows
    · rw [Function.update_of_ne hne]
      rw [hother d hne] at hd
      exact h.client d prog' hd
  · intro d
    rw [hstate]
    rcases eq_or_ne d c with rfl | hne
    · rw [Function.update_self, hprog]
      rcases h.kept d with ⟨hnone, -⟩ | ⟨hd, id, hsome, hc⟩
      · exact .inl ⟨hnone, by simp⟩
      · exact .inr ⟨hd, id, hsome, hpt hd id hc⟩
    · rw [Function.update_of_ne hne, hother d hne]
      exact h.kept d
  · rwa [hstate]
  · exact hidle

omit [DecidableEq ι] in
/-- The server moves alone. -/
theorem move_server (h : Inv calloc port s cp sp) {prog : Program ConnServer}
    (hstate : s'.state = s.state) (hother : ∀ d, s'.proc (some d) = s.proc (some d))
    (hagreed : Agreed port cp sp' (s.state none) s'.issued)
    (hprog : s'.proc none = some prog)
    (hfollows : ServerFollows calloc port (s.state none) sp' prog) :
    Inv calloc port s' cp sp' := by
  constructor
  · rwa [hstate]
  · intro d prog' hd
    rw [hother] at hd
    exact h.client d prog' hd
  · intro d
    rw [hstate, hother]
    exact h.kept d
  · intro prog' hp
    rw [hprog] at hp
    cases hp
    rwa [hstate]
  · intro hp
    rw [hprog] at hp
    cases hp

/-- A client moves and the server does not. -/
theorem move_client (h : Inv calloc port s cp sp) {prog : Program (Option (Conn × ℕ))}
    (hstate : s'.state = s.state) (hother : ∀ p, p ≠ some c → s'.proc p = s.proc p)
    (hagreed : Agreed port (Function.update cp c pt) sp (s.state none) s'.issued)
    (hprog : s'.proc (some c) = some prog) (hfollows : ClientFollows port pt prog)
    (hpt : ∀ hd id, cp c = .connected hd id → pt = .connected hd id) :
    Inv calloc port s' (Function.update cp c pt) sp := by
  have hnone : s'.proc none = s.proc none := hother none (by simp)
  apply h.move hstate (fun d hd => hother (some d) (by simpa using hd)) hagreed hprog hfollows hpt
  · rw [hnone]
    exact h.server
  · rw [hnone]
    exact h.idle

omit [DecidableEq ι] in
/-- The server does not have the port as its temporary endpoint. -/
theorem temp_ne_port (h : Inv calloc port s cp sp) {t : ℕ} (ht : sp.temp = some t) : t ≠ port := by
  rintro rfl
  have hne : sp ≠ .idle := by
    rintro rfl
    cases ht
  obtain ⟨c, hc⟩ := h.agreed.partner hne
  obtain ⟨hd, hobj, htemp⟩ := hc.temp
  have heq : t = hd.temp := Option.some.inj (ht.symm.trans htemp)
  apply h.agreed.port_not_mem c
  simp [hobj, heq, Handles.objects]

/-- A message from a client to the server. -/
theorem client_to_server (h : Inv calloc port s cp sp) {e : ℕ} {msg : Message}
    {next : Program (Option (Conn × ℕ))} {next' : Message → Program ConnServer}
    (hp : s.proc (some c) = some (.send e msg next)) (hq : s.proc none = some (.receive e next')) :
    ∃ cp' sp', Inv calloc port ((s.setProc (some c) (some next)).setProc none (some (next' msg)))
      cp' sp' := by
  have hclient := h.client c _ hp
  have hserver := h.server _ hq
  have hnone : (none : Option ι) ≠ some c := by simp
  -- both parties have moved on, to points that still agree
  have hmove {pt : ClientPoint} {sp' : ServerPoint}
      (hagreed : Agreed port (Function.update cp c pt) sp' (s.state none) s.issued)
      (hc : ClientFollows port pt next)
      (hpt : ∀ hd id, cp c = .connected hd id → pt = .connected hd id)
      (hs : ServerFollows calloc port (s.state none) sp' (next' msg)) :
      ∃ cp' sp', Inv calloc port ((s.setProc (some c) (some next)).setProc none (some (next' msg)))
        cp' sp' := by
    refine ⟨_, sp', h.move rfl ?_ hagreed ?_ hc hpt ?_ ?_⟩
    · intro d hne
      rw [System.setProc_of_ne (by simp), System.setProc_of_ne (by simpa using hne)]
    · rw [System.setProc_of_ne hnone.symm, System.setProc_self]
    · intro prog hprog
      rw [System.setProc_self] at hprog
      cases hprog
      exact hs
    · intro hprog
      rw [System.setProc_self] at hprog
      cases hprog
  -- the client was in the conversation, and goes on with the same objects
  have hgo {pt pt' : ClientPoint} {sp' : ServerPoint} (hpt : cp c = pt) (hbusy : pt.Busy)
      (hpt' : Meets sp' pt') (hobj : pt'.objects = pt.objects) (htemp : sp'.temp = sp.temp)
      (hptr : sp'.ptr = sp.ptr) (hnumber : sp'.number = sp.number)
      (hc : ClientFollows port pt' next)
      (hs : ServerFollows calloc port (s.state none) sp' (next' msg)) :
      ∃ cp' sp', Inv calloc port ((s.setProc (some c) (some next)).setProc none (some (next' msg)))
        cp' sp' := by
    subst hpt
    apply hmove _ hc _ hs
    · apply h.agreed.next (h.agreed.meets c hbusy) hpt' hobj htemp (fun _ => .refl _) rfl
      · exact fun p hp => .inl (hptr ▸ hp)
      · exact fun id hid => .inl (hnumber ▸ hid)
    · intro hd id hc
      rw [hc] at hbusy
      exact hbusy.elim
  generalize hpt : cp c = pt at hclient
  have hmeets : pt.Busy → Meets sp pt := by
    rw [← hpt]
    exact h.agreed.meets c
  cases hclient with
  | grantTemp htype hdata hnext =>
    rename_i hd
    cases hserver with
    | listen hgrant hother =>
      have hs := hgrant msg htype
      rw [hdata] at hs
      apply hmove (h.agreed.request hpt) hnext _ hs
      intro _ _ heq
      cases hpt.symm.trans heq
    | _ => exact absurd rfl (h.temp_ne_port rfl)
  | notify htype hnext =>
    cases hserver with
    | listen hgrant hother =>
      have hagreed : Agreed port (Function.update cp c (cp c)) .idle (s.state none) s.issued := by
        rw [Function.update_eq_self]
        exact h.agreed
      exact hmove hagreed (hpt ▸ hnext) (fun _ _ heq => heq) (hother msg htype)
    | _ => exact absurd rfl (h.temp_ne_port rfl)
  | request htype hnext =>
    cases hmeets trivial
    cases hserver with
    | request hs =>
      exact hgo hpt trivial (.allocating _) rfl rfl rfl rfl hnext (hs msg htype)
  | grantTo htype hdata hnext =>
    cases hmeets trivial
    cases hserver with
    | grantTo hs =>
      exact hgo hpt trivial (.awaitFrom _ _ _) rfl rfl rfl rfl hnext (hdata ▸ hs msg htype)
  | grantFrom htype hdata hnext =>
    cases hmeets trivial
    cases hserver with
    | grantFrom hs =>
      exact hgo hpt trivial (.awaitPage _ _ _) rfl rfl rfl rfl hnext (hdata ▸ hs msg htype)
  | grantPage htype hdata hnext =>
    cases hmeets trivial
    cases hserver with
    | grantPage hs =>
      have hs := hs msg htype
      rw [hdata] at hs
      exact hgo hpt trivial (.mapping _ _ _) rfl rfl rfl rfl hnext hs

/-- A message from the server to a client. -/
theorem server_to_client (h : Inv calloc port s cp sp) {e : ℕ} {msg : Message}
    {next : Program ConnServer} {next' : Message → Program (Option (Conn × ℕ))}
    (hp : s.proc none = some (.send e msg next)) (hq : s.proc (some c) = some (.receive e next')) :
    ∃ cp' sp', Inv calloc port ((s.setProc none (some next)).setProc (some c) (some (next' msg)))
      cp' sp' := by
  have hclient := h.client c _ hq
  have hserver := h.server _ hp
  have hnone : (none : Option ι) ≠ some c := by simp
  generalize hpt : cp c = pt at hclient
  have hmeets : pt.Busy → Meets sp pt := by
    rw [← hpt]
    exact h.agreed.meets c
  cases hclient with
  | receive hnext =>
    rename_i hd
    cases hserver with
    | reply hdata hs =>
      rename_i ptr id
      have hagreed : Agreed port (Function.update cp c (.grantingTo hd id))
          (.awaitTo hd.temp ptr id) (s.state none) s.issued := by
        apply h.agreed.next (hpt ▸ hmeets trivial) (.awaitTo hd ptr id) (by rw [hpt]; rfl) rfl
          (fun _ => .refl _) rfl
        · exact fun p hp => .inl hp
        · exact fun id hid => .inl hid
      refine ⟨_, _, h.move rfl ?_ hagreed System.setProc_self (hdata ▸ hnext msg) ?_ ?_ ?_⟩
      · intro d hne
        rw [System.setProc_of_ne (by simpa using hne), System.setProc_of_ne (by simp)]
      · intro _ _ heq
        cases hpt.symm.trans heq
      · intro prog hprog
        rw [System.setProc_of_ne hnone, System.setProc_self] at hprog
        cases hprog
        exact hs
      · intro hprog
        rw [System.setProc_of_ne hnone, System.setProc_self] at hprog
        cases hprog

omit [DecidableEq ι] in
/-- No client sends where another one receives. -/
theorem not_client_to_client (h : Inv calloc port s cp sp) (hne : c ≠ d) {e : ℕ} {msg : Message}
    {next : Program (Option (Conn × ℕ))} {next' : Message → Program (Option (Conn × ℕ))}
    (hp : s.proc (some c) = some (.send e msg next)) :
    s.proc (some d) ≠ some (.receive e next') := by
  intro hq
  have hd := h.client d _ hq
  have hc := h.client c _ hp
  generalize hptd : cp d = ptd at hd
  generalize hptc : cp c = ptc at hc
  cases hd with
  | receive =>
    rename_i hd _
    have htemp : hd.temp ∈ (cp d).objects := by simp [hptd, ClientPoint.objects, Handles.objects]
    have hport : hd.temp ≠ port := fun heq => h.agreed.port_not_mem d (heq ▸ htemp)
    have hother {o : ℕ} (ho : o ∈ (cp c).objects) : o ≠ hd.temp := by
      rintro rfl
      exact hne (h.agreed.apart c d _ ho htemp)
    generalize hd.temp = e at hport hother hc
    cases hc with
    | grantTemp => exact hport rfl
    | notify => exact hport rfl
    | _ => exact hother (by simp [hptc, ClientPoint.objects, Handles.objects]) rfl

/-- A client stays at its point. -/
theorem client_stays (h : Inv calloc port s cp sp) {prog : Program (Option (Conn × ℕ))}
    (hstate : s'.state = s.state) (hissued : s'.issued = s.issued)
    (hproc : s'.proc = (s.setProc (some c) (some prog)).proc)
    (hfollows : ClientFollows port (cp c) prog) : Inv calloc port s' cp sp := by
  have hmove : Inv calloc port s' (Function.update cp c (cp c)) sp := by
    apply h.move_client hstate _ _ _ hfollows fun _ _ heq => heq
    · intro p hne
      rw [hproc, System.setProc_of_ne hne]
    · rw [Function.update_eq_self, hissued]
      exact h.agreed
    · rw [hproc, System.setProc_self]
  rwa [Function.update_eq_self] at hmove

omit [DecidableEq ι] in
/-- The server stays at its point. -/
theorem server_stays [DecidableEq ι] (h : Inv calloc port s cp sp) {prog : Program ConnServer}
    (hstate : s'.state = s.state) (hissued : s'.issued = s.issued)
    (hproc : s'.proc = (s.setProc none (some prog)).proc)
    (hfollows : ServerFollows calloc port (s.state none) sp prog) : Inv calloc port s' cp sp := by
  apply h.move_server hstate _ _ _ hfollows
  · intro d
    rw [hproc, System.setProc_of_ne (by simp)]
  · rw [hissued]
    exact h.agreed
  · rw [hproc, System.setProc_self]

/-- A party asks for a fresh value. -/
theorem fresh (h : Inv calloc port s cp sp) {p : Option ι} {kind : Fresh}
    {next : ℕ → Program (Party ι p)} {v : ℕ} (hp : s.proc p = some (.fresh kind next))
    (hlegal : legal kind v) (hnew : v ∉ s.issued kind) :
    ∃ cp' sp', Inv calloc port ((s.setProc p (some (next v))).issue kind v) cp' sp' := by
  cases p with
  | some c =>
    have hclient := h.client c _ hp
    generalize hpt : cp c = pt at hclient
    cases hclient with
    | create hnext =>
      refine ⟨_, sp, h.move_client rfl ?_ (h.agreed.build hpt hnew) System.setProc_self (hnext v)
        ?_⟩
      · exact fun p hne => System.setProc_of_ne hne
      · intro _ _ heq
        cases hpt.symm.trans heq
  | none =>
    have hserver := h.server _ hp
    have hother (d : ι) : ((s.setProc none (some (next v))).issue kind v).proc (some d) =
        s.proc (some d) := by
      show (s.setProc none (some (next v))).proc (some d) = _
      exact System.setProc_of_ne (by simp)
    have hself : ((s.setProc none (some (next v))).issue kind v).proc none = some (next v) := by
      show (s.setProc none (some (next v))).proc none = _
      exact System.setProc_self
    have hissued (k : Fresh) :
        s.issued k ⊆ ((s.setProc none (some (next v))).issue kind v).issued k := by
      rcases eq_or_ne k kind with rfl | hne
      · show _ ⊆ Function.update s.issued k (v :: s.issued k) k
        rw [Function.update_self]
        exact List.subset_cons_self ..
      · show _ ⊆ Function.update s.issued kind (v :: s.issued kind) k
        rw [Function.update_of_ne hne]
        exact .refl _
    have hmem : v ∈ ((s.setProc none (some (next v))).issue kind v).issued kind := by
      show _ ∈ Function.update s.issued kind (v :: s.issued kind) kind
      rw [Function.update_self]
      exact List.mem_cons_self
    cases hserver with
    | allocate hnext =>
      rename_i temp
      obtain ⟨c, hc⟩ := h.agreed.partner (by simp)
      have hc' : Meets (.numbering temp v) (cp c) := by
        generalize cp c = pt at hc
        cases hc
        exact .numbering _ v
      have hagreed := h.agreed.next hc hc' rfl rfl hissued rfl
        (fun p hp => .inr (by cases hp; exact ⟨hnew, hmem, hlegal⟩)) (fun id hid => by cases hid)
      rw [Function.update_eq_self] at hagreed
      exact ⟨cp, _, h.move_server rfl hother hagreed hself (hnext v hlegal)⟩
    | number hnext =>
      rename_i temp ptr
      obtain ⟨c, hc⟩ := h.agreed.partner (by simp)
      have hc' : Meets (.reply temp ptr v) (cp c) := by
        generalize cp c = pt at hc
        cases hc
        exact .reply _ ptr v
      have hagreed := h.agreed.next hc hc' rfl rfl hissued rfl (fun p hp => .inl hp)
        (fun id hid => .inr (by cases hid; exact ⟨hnew, hmem, hlegal⟩))
      rw [Function.update_eq_self] at hagreed
      exact ⟨cp, _, h.move_server rfl hother hagreed hself (hnext v)⟩

/-- A party has its question answered. -/
theorem test (h : Inv calloc port s cp sp) {p : Option ι} {next : Bool → Program (Party ι p)}
    (b : Bool) (hp : s.proc p = some (.test next)) :
    ∃ cp' sp', Inv calloc port (s.setProc p (some (next b))) cp' sp' := by
  cases p with
  | some c =>
    have hclient := h.client c _ hp
    generalize hpt : cp c = pt at hclient
    cases hclient with
    | test hnext => exact ⟨cp, sp, h.client_stays rfl rfl rfl (hpt ▸ hnext b)⟩
  | none =>
    have hserver := h.server _ hp
    cases hserver with
    | map hnext =>
      rename_i ptr id hd
      obtain ⟨c, hc⟩ := h.agreed.partner (by simp)
      have hc' : Meets (.done ptr id hd b) (cp c) := by
        generalize cp c = pt at hc
        cases hc
        exact .done hd ptr id b
      have hagreed := h.agreed.next hc hc' rfl rfl (fun _ => .refl _) rfl (fun p hp => .inl hp)
        (fun id hid => .inl hid)
      rw [Function.update_eq_self] at hagreed
      exact ⟨cp, _, h.move_server rfl (fun d => System.setProc_of_ne (by simp)) hagreed
        System.setProc_self (hnext b)⟩

/-- A party ends its program. -/
theorem finish (h : Inv calloc port s cp sp) {p : Option ι} {a : Party ι p}
    (hp : s.proc p = some (.ret a)) : ∃ cp' sp', Inv calloc port (s.finish p a) cp' sp' := by
  cases p with
  | some c =>
    have hclient := h.client c _ hp
    have hstate : (s.finish (some c) a).state none = s.state none :=
      System.finish_state_of_ne (by simp)
    have hproc : (s.finish (some c) a).proc none = s.proc none :=
      System.finish_proc_of_ne (by simp)
    refine ⟨cp, sp, ?_, ?_, ?_, ?_, ?_⟩
    · rw [hstate]
      exact h.agreed
    · intro d prog hd
      rcases eq_or_ne d c with rfl | hne
      · rw [System.finish_proc_self] at hd
        cases hd
      · rw [System.finish_proc_of_ne (by simpa using hne)] at hd
        exact h.client d prog hd
    · intro d
      rcases eq_or_ne d c with rfl | hne
      · rw [System.finish_state_self]
        generalize cp d = pt at hclient
        cases hclient with
        | unchanged => exact .inl ⟨rfl, fun _ => rfl⟩
        | done => exact .inr ⟨_, _, rfl, rfl⟩
      · rw [System.finish_state_of_ne (by simpa using hne),
          System.finish_proc_of_ne (by simpa using hne)]
        exact h.kept d
    · rw [hproc, hstate]
      exact h.server
    · rw [hproc]
      exact h.idle
  | none =>
    have hserver := h.server _ hp
    have hstate (d : ι) : (s.finish none a).state (some d) = s.state (some d) :=
      System.finish_state_of_ne (by simp)
    have hproc (d : ι) : (s.finish none a).proc (some d) = s.proc (some d) :=
      System.finish_proc_of_ne (by simp)
    refine ⟨cp, .idle, ?_, ?_, ?_, ?_, fun _ => rfl⟩
    · rw [System.finish_state_self]
      cases hserver with
      | unchanged => exact h.agreed
      | done haccepts => exact h.agreed.accept haccepts
    · intro d prog hd
      rw [hproc] at hd
      exact h.client d prog hd
    · intro d
      rw [hstate, hproc]
      exact h.kept d
    · intro prog hprog
      rw [System.finish_proc_self] at hprog
      cases hprog

/-- The application of a party makes a call. -/
theorem start (h : Inv calloc port s cp sp) {p : Option ι} (c : Call) (hp : s.proc p = none) :
    ∃ cp' sp', Inv calloc port (s.setProc p (some (call ι calloc port p (s.state p) c))) cp'
      sp' := by
  cases p with
  | some d =>
    refine ⟨cp, sp, h.client_stays rfl rfl rfl ?_⟩
    show ClientFollows port (cp d) (clientCall port (s.state (some d)) c)
    rcases h.kept d with ⟨hnone, hpt⟩ | ⟨hd, id, hsome, hpt⟩
    · rw [hnone, hpt (by rw [hp]; rfl)]
      exact clientCall_follows port c
    · rw [hsome, hpt]
      exact clientCall_follows_connected port hd id c
  | none =>
    refine ⟨cp, sp, h.server_stays rfl rfl rfl ?_⟩
    rw [h.idle hp]
    exact serverCall_follows calloc port (s.state none) c

/-- A party uses an asynchronous endpoint. -/
theorem async (h : Inv calloc port s cp sp) {p : Option ι} {e : ℕ} {prog : Program (Party ι p)}
    (hp : (∃ msg, s.proc p = some (.post e msg prog)) ∨
      ∃ block msg next, s.proc p = some (.poll e block next) ∧ prog = next msg)
    (hstate : s'.state = s.state) (hissued : s'.issued = s.issued)
    (hproc : s'.proc = (s.setProc p (some prog)).proc) : Inv calloc port s' cp sp := by
  cases p with
  | some c =>
    apply h.client_stays hstate hissued hproc
    rcases hp with ⟨msg, hp⟩ | ⟨block, msg, next, hp, rfl⟩
    · have hclient := h.client c _ hp
      generalize cp c = pt at hclient ⊢
      cases hclient with
      | post hnext => exact hnext
    · have hclient := h.client c _ hp
      generalize cp c = pt at hclient ⊢
      cases hclient with
      | poll hnext => exact hnext msg
  | none =>
    apply h.server_stays hstate hissued hproc
    rcases hp with ⟨msg, hp⟩ | ⟨block, msg, next, hp, rfl⟩
    · cases h.server _ hp with
      | post hnext => exact hnext
    · cases h.server _ hp with
      | poll hnext => exact hnext msg

/-- Each step keeps the invariant, with points that move on. -/
theorem step (h : Inv calloc port s cp sp)
    (hstep : System.Step legal (call ι calloc port) s s') :
    ∃ cp' sp', Inv calloc port s' cp' sp' := by
  cases hstep with
  | @rendezvous p q e msg next next' hne hp hq =>
    match p, q with
    | none, none => exact absurd rfl hne
    | none, some c => exact h.server_to_client hp hq
    | some c, none => exact h.client_to_server hp hq
    | some c, some d =>
      exact absurd hq (h.not_client_to_client (by simpa using hne) hp)
  | post hp => exact ⟨cp, sp, h.async (.inl ⟨_, hp⟩) rfl rfl rfl⟩
  | poll hp hq => exact ⟨cp, sp, h.async (.inr ⟨_, _, _, hp, rfl⟩) rfl rfl rfl⟩
  | pollNone hp hq => exact ⟨cp, sp, h.async (.inr ⟨_, _, _, hp, rfl⟩) rfl rfl rfl⟩
  | fresh hp hlegal hnew => exact h.fresh hp hlegal hnew
  | test b hp => exact h.test b hp
  | finish hp => exact h.finish hp
  | start c hp => exact h.start c hp

end Inv

omit [DecidableEq ι] in
/-- The beginning of a system. -/
theorem Inv.init {m : Mem} (hm : SentinelOk m) (clientId : Ptr → ℕ) :
    Inv calloc port (initial ι m clientId port) (fun _ => .building []) .idle := by
  refine ⟨?_, ?_, fun _ => .inl ⟨rfl, fun _ => rfl⟩, ?_, fun _ => rfl⟩
  · constructor
    · exact List.mem_singleton_self port
    · exact fun _ => List.not_mem_nil
    · rintro c o ⟨⟩
    · rintro c d o ⟨⟩
    · exact fun _ hbusy => hbusy.elim
    · exact fun hne => absurd rfl hne
    · rintro t ⟨⟩
    · rintro p ⟨⟩
    · rintro id ⟨⟩
    · rintro a ⟨⟩
    · rintro p ⟨⟩
    · exact List.nodup_nil
    · exact List.nodup_nil
    · exact .init m clientId hm
  · rintro c prog ⟨⟩
  · rintro prog ⟨⟩

end Steps

/-! ## The result -/

/-- The two ends of a connection have one number, and the endpoints of each other. -/
structure Conn.Linked (conn record : Conn) : Prop where
  clientId : record.clientId = conn.clientId
  to_from : record.asyncFrom = conn.asyncTo
  from_to : record.asyncTo = conn.asyncFrom

/-- The two ends of a connection, with one page. -/
structure Conn.Agrees (conn record : Conn) : Prop extends Conn.Linked conn record where
  page : record.page = conn.page

/-- Two records have no endpoint, no number and no page together. -/
structure Conn.Apart (record record' : Conn) : Prop where
  clientId : record.clientId ≠ record'.clientId
  asyncTo : record.asyncTo ≠ record'.asyncTo ∧ record.asyncTo ≠ record'.asyncFrom
  asyncFrom : record.asyncFrom ≠ record'.asyncTo ∧ record.asyncFrom ≠ record'.asyncFrom
  page : ∀ p, record.page = some p → record'.page ≠ some p

variable {ι : Type} [DecidableEq ι]

/-- Each state of a run has points that fit. -/
theorem reaches_inv {calloc : Allocator AndNode} {port : ℕ} {m : Mem} (hm : SentinelOk m)
    {clientId : Ptr → ℕ} {s : System (Option ι) Message Fresh (Party ι)}
    (hs : System.Reaches legal (call ι calloc port) (initial ι m clientId port) s) :
    ∃ cp sp, Inv calloc port s cp sp := by
  apply System.Reaches.induction (fun s => ∃ cp sp, Inv calloc port s cp sp) hs
  · exact ⟨_, _, Inv.init hm clientId⟩
  · rintro s s' ⟨cp, sp, h⟩ hstep
    exact h.step hstep

/-- The records of a server are the connections of its tree. -/
theorem reaches_connects {calloc : Allocator AndNode} {port : ℕ} {m : Mem} (hm : SentinelOk m)
    {clientId : Ptr → ℕ} {s : System (Option ι) Message Fresh (Party ι)}
    (hs : System.Reaches legal (call ι calloc port) (initial ι m clientId port) s) :
    Connects (s.state none).server
      ((s.state none).accepted.map fun a => (a.2, ((s.state none).record a.2).clientId)) := by
  obtain ⟨cp, sp, h⟩ := reaches_inv hm hs
  exact h.agreed.connects

omit [DecidableEq ι] in
/-- A client keeps what its point has. -/
theorem Inv.kept_handles {calloc : Allocator AndNode} {port : ℕ}
    {s : System (Option ι) Message Fresh (Party ι)} {cp : ι → ClientPoint} {sp : ServerPoint}
    (h : Inv calloc port s cp sp) {c : ι} {conn : Conn} {temp : ℕ}
    (hconn : s.state (some c) = some (conn, temp)) :
    ∃ hd id, cp c = .connected hd id ∧ conn = hd.conn port id ∧ temp = hd.temp := by
  rcases h.kept c with ⟨hnone, -⟩ | ⟨hd, id, hsome, hpt⟩
  · rw [hnone] at hconn
    cases hconn
  · rw [hsome] at hconn
    obtain ⟨rfl, rfl⟩ := Prod.mk.inj (Option.some.inj hconn)
    exact ⟨hd, id, hpt, rfl, rfl⟩

omit [DecidableEq ι] in
/-- A connected client is linked to its record, which has its page if the server could map it and is
apart from the other records. -/
theorem Inv.linked {calloc : Allocator AndNode} {port : ℕ}
    {s : System (Option ι) Message Fresh (Party ι)} {cp : ι → ClientPoint} {sp : ServerPoint}
    (h : Inv calloc port s cp sp) {c : ι} {conn : Conn} {temp : ℕ}
    (hconn : s.state (some c) = some (conn, temp)) {ptr : Ptr}
    (hptr : (temp, ptr) ∈ (s.state none).accepted) :
    conn.Linked ((s.state none).record ptr) ∧
      (((s.state none).record ptr).page = conn.page ↔ ptr ∈ (s.state none).mapped) ∧
      ∀ a ∈ (s.state none).accepted, a ≠ (temp, ptr) →
        ((s.state none).record ptr).Apart ((s.state none).record a.2) := by
  obtain ⟨d, hd, id, hpt, htemp, hrec, -, -⟩ := h.agreed.made _ hptr
  -- the client of the record is the one with the temporary endpoint
  obtain ⟨hc, idc, hptc, rfl, rfl⟩ := h.kept_handles hconn
  have hobjc : (cp c).objects = hc.objects := by rw [hptc, ClientPoint.objects]
  have hdc : d = c := by
    have htemp : hc.temp = hd.temp := htemp
    apply h.agreed.apart d c hc.temp
    · simp [hpt, ClientPoint.objects, Handles.objects, htemp]
    · simp [hobjc, Handles.objects]
  rw [hdc, hptc] at hpt
  cases hpt
  rw [hrec]
  refine ⟨⟨rfl, rfl, rfl⟩, ?_, ?_⟩
  · by_cases hmapped : ptr ∈ (s.state none).mapped <;>
      simp [Handles.record, Handles.conn, hmapped]
  · intro a ha hne
    obtain ⟨e, he, ide, hpte, htempe, hrece, -, -⟩ := h.agreed.made a ha
    have hobje : (cp e).objects = he.objects := by rw [hpte, ClientPoint.objects]
    have hce : c ≠ e := by
      rintro rfl
      rw [hptc] at hpte
      cases hpte
      exact hne (List.inj_on_of_nodup_map h.agreed.temps ha hptr htempe)
    have hapart {o o' : ℕ} (ho : o ∈ hd.objects) (ho' : o' ∈ he.objects) : o ≠ o' := by
      rintro rfl
      exact hce (h.agreed.apart c e o (hobjc ▸ ho) (hobje ▸ ho'))
    rw [hrece]
    constructor
    · intro heq
      apply hne (List.inj_on_of_nodup_map h.agreed.numbers ha hptr _)
      rw [hrece, hrec]
      exact heq.symm
    · constructor <;> apply hapart <;> simp [Handles.record, Handles.objects]
    · constructor <;> apply hapart <;> simp [Handles.record, Handles.objects]
    · intro p hp hp'
      have hpages : hd.page ≠ he.page := by apply hapart <;> simp [Handles.objects]
      obtain ⟨-, heq⟩ := Option.ite_none_right_eq_some.1 hp
      obtain ⟨-, heq'⟩ := Option.ite_none_right_eq_some.1 hp'
      exact hpages (Option.some.inj (heq.trans heq'.symm))

/-- **When handshakes agree.** For any number of clients and one server, and for all their
interleavings: the connection of a client and the record that the server returned for it, over the
temporary endpoint of the client, have the same number and page and the endpoints of each other, and
share none of them with another record, exactly when the server could map the page. -/
theorem handshake_agrees_iff (calloc : Allocator AndNode) (port : ℕ) {m : Mem} (hm : SentinelOk m)
    (clientId : Ptr → ℕ) {s : System (Option ι) Message Fresh (Party ι)}
    (hs : System.Reaches legal (call ι calloc port) (initial ι m clientId port) s)
    {c : ι} {conn : Conn} {temp : ℕ} (hconn : s.state (some c) = some (conn, temp))
    {ptr : Ptr} (hptr : (temp, ptr) ∈ (s.state none).accepted) :
    (conn.Agrees ((s.state none).record ptr) ∧
      ∀ a ∈ (s.state none).accepted, a ≠ (temp, ptr) →
        ((s.state none).record ptr).Apart ((s.state none).record a.2)) ↔
      ptr ∈ (s.state none).mapped := by
  obtain ⟨cp, sp, h⟩ := reaches_inv hm hs
  obtain ⟨hlinked, hpage, hapart⟩ := h.linked hconn hptr
  constructor
  · rintro ⟨hagrees, -⟩
    exact hpage.1 hagrees.page
  · intro hmapped
    exact ⟨⟨hlinked, hpage.2 hmapped⟩, hapart⟩

/-- Two clients create their endpoints in turns, and one of them connects. The server maps its page or
not. -/
theorem first_handshake (mapped : Bool) : ∃ s : System (Option Bool) Message Fresh (Party Bool),
    System.Reaches legal (call Bool .bump 1) (initial Bool emptyServer.mem (fun _ => 0) 1) s ∧
      s.state (some true) = some (⟨1, 2, 4, 77, some 5⟩, 6) ∧
      (s.state none).accepted = [(6, 10)] ∧
      (s.state none).mapped = if mapped then [10] else [] := by
  have h₀ : System.Reaches legal (call Bool .bump 1)
      (initial Bool emptyServer.mem (fun _ => 0) 1) _ := .refl
  have h₁ := h₀.tail (.start (p := some true) .connect rfl)
  have h₂ := h₁.tail (.start (p := none) .listen rfl)
  have h₃ := h₂.tail (.start (p := some false) .connect rfl)
  have h₄ := h₃.tail (.fresh (p := some true) (v := 2) rfl trivial (by decide))
  have h₅ := h₄.tail (.fresh (p := some false) (v := 3) rfl trivial (by decide))
  have h₆ := h₅.tail (.fresh (p := some true) (v := 4) rfl trivial (by decide))
  have h₇ := h₆.tail (.fresh (p := some true) (v := 5) rfl trivial (by decide))
  have h₈ := h₇.tail (.test (p := some true) true rfl)
  have h₉ := h₈.tail (.fresh (p := some true) (v := 6) rfl trivial (by decide))
  -- the grant of the temporary endpoint, the request, and the number of the client
  have h₁₀ := h₉.tail (.rendezvous (p := some true) (q := none) (by decide) rfl rfl)
  have h₁₁ := h₁₀.tail (.rendezvous (p := some true) (q := none) (by decide) rfl rfl)
  have h₁₂ := h₁₁.tail (.fresh (p := none) (v := 10) rfl (show 10 ≠ null by decide) (by decide))
  have h₁₃ := h₁₂.tail (.fresh (p := none) (v := 77) rfl (show 77 < 2 ^ 32 by decide) (by decide))
  have h₁₄ := h₁₃.tail (.rendezvous (p := none) (q := some true) (by decide) rfl rfl)
  -- the grants of the objects
  have h₁₅ := h₁₄.tail (.rendezvous (p := some true) (q := none) (by decide) rfl rfl)
  have h₁₆ := h₁₅.tail (.rendezvous (p := some true) (q := none) (by decide) rfl rfl)
  have h₁₇ := h₁₆.tail (.rendezvous (p := some true) (q := none) (by decide) rfl rfl)
  have h₁₈ := h₁₇.tail (.test (p := none) mapped rfl)
  have h₁₉ := h₁₈.tail (.finish (p := some true) rfl)
  have h₂₀ := h₁₉.tail (.finish (p := none) rfl)
  exact ⟨_, h₂₀, rfl, rfl, rfl⟩

/-- A client whose page the server maps agrees with its record. -/
theorem handshake_agrees_iff_mapped :
    ∃ s : System (Option Bool) Message Fresh (Party Bool),
      System.Reaches legal (call Bool .bump 1) (initial Bool emptyServer.mem (fun _ => 0) 1) s ∧
        s.state (some true) = some (⟨1, 2, 4, 77, some 5⟩, 6) ∧
        (6, 10) ∈ (s.state none).accepted ∧
        Conn.Agrees ⟨1, 2, 4, 77, some 5⟩ ((s.state none).record 10) := by
  obtain ⟨s, hs, hconn, haccepted, hmapped⟩ := first_handshake true
  have hmem : (6, 10) ∈ (s.state none).accepted := by simp [haccepted]
  obtain ⟨hagrees, -⟩ := (handshake_agrees_iff .bump 1 ⟨_, _, rfl⟩ (fun _ => 0) hs hconn hmem).2
    (by simp [hmapped])
  exact ⟨s, hs, hconn, hmem, hagrees⟩

/-- A client whose page the server does not map has a record without it. -/
theorem handshake_without_page : ∃ s : System (Option Bool) Message Fresh (Party Bool),
    System.Reaches legal (call Bool .bump 1) (initial Bool emptyServer.mem (fun _ => 0) 1) s ∧
      s.state (some true) = some (⟨1, 2, 4, 77, some 5⟩, 6) ∧
      (6, 10) ∈ (s.state none).accepted ∧
      ¬ Conn.Agrees ⟨1, 2, 4, 77, some 5⟩ ((s.state none).record 10) := by
  obtain ⟨s, hs, hconn, haccepted, hmapped⟩ := first_handshake false
  have hmem : (6, 10) ∈ (s.state none).accepted := by simp [haccepted]
  obtain ⟨cp, sp, h⟩ := reaches_inv ⟨_, _, rfl⟩ hs
  refine ⟨s, hs, hconn, hmem, fun hagrees => ?_⟩
  have hpage := (h.linked hconn hmem).2.1.1 hagrees.page
  simp [hmapped] at hpage

end C4OS.Connman.Handshake
