import C4OS.Connman.Messages
import C4OS.Foundations.Linearizability
import C4OS.Nameserver.Table

/-!
# The calls of the name server

The functions of `nameserver.h` and the loop of the name server in `main.c`, as programs that
exchange messages. Many clients bind and look up names at the same time, each over an endpoint of
its own. The name server is a finite map to all of them (`nameserver_linearizable`): for every state
of a run there is an order of the calls in which each lookup gets the endpoint that was bound last
to the name, or zero, and the table is the map behind all calls.

The names that are bound are those of a `Directory`, which fit into the table, and the endpoints
that are bound are positive `int32_t`.
-/

namespace C4OS.Nameserver

open Foundations
open Connman.Handshake (Message MessageType Fresh Program msgSend msgRecieve cspaceGrant create)

/-! ## The client -/

/-- `NAME_BIND`. -/
abbrev nameBind : MessageType := .other 0x1024

/-- `NAME_LOOKUP`. -/
abbrev nameLookup : MessageType := .other 0x1026

/-- `NAME_LOOKUP_FAILED`. -/
abbrev nameLookupFailed : MessageType := .other 0x1028

/-- The data of a message with one word. -/
def oneWord (word : ℕ) : Fin 6 → ℕ := fun i => if i = 0 then word else 0

/-- `c4_send_temp_endpoint`. The assertion only prints, and an object is not negative. -/
def sendTempEndpoint (server : ℕ) : Program ℕ := do
  let temppoint ← create
  cspaceGrant temppoint server
  return temppoint

/-- `nameserver_bind`. -/
def nameserverBind (server : ℕ) (name : List UInt8) (endpoint : ℕ) : Program Unit := do
  let temp ← sendTempEndpoint server
  msgSend { type := nameBind, data := oneWord (nameserverHash name).toNat } temp
  cspaceGrant endpoint temp

/-- `nameserver_lookup_hash`. -/
def nameserverLookupHash (server : ℕ) (hash : UInt32) : Program ℕ := do
  let responseq ← sendTempEndpoint server
  msgSend { type := nameLookup, data := oneWord hash.toNat } responseq
  let msg ← msgRecieve responseq
  if msg.type = .grantObject then return msg.data 5 else return 0

/-- `nameserver_lookup`. -/
def nameserverLookup (server : ℕ) (name : List UInt8) : Program ℕ := do
  let responseq ← sendTempEndpoint server
  msgSend { type := nameLookup, data := oneWord (nameserverHash name).toNat } responseq
  let msg ← msgRecieve responseq
  if msg.type = .grantObject then return msg.data 5 else return 0

/-! ## The server -/

/-- A word is positive as an `int32_t`. -/
def int32Positive (word : ℕ) : Bool := 0 < word % 2 ^ 32 && word % 2 ^ 32 < 2 ^ 31

/-- `handle_bind`. The write of `bind_name` behind the array ends the program. -/
def handleBind (names : Names) (endpoint hash : ℕ) : Program Names :=
  match bindName names (UInt32.ofNat endpoint) (UInt32.ofNat hash) with
  | none => .abort
  | some names => return names

/-- `handle_lookup`, with the name server to which a lookup is forwarded. -/
def handleLookup (names : Names) (responseq hash : ℕ) (forward : Option ℕ) : Program Unit := do
  let obj := (lookupName names (UInt32.ofNat hash)).toNat
  if int32Positive obj then cspaceGrant obj responseq
  else
    match forward with
    | none => msgSend { type := nameLookupFailed } responseq
    | some server =>
      let obj ← nameserverLookupHash server (UInt32.ofNat hash)
      if int32Positive obj then cspaceGrant obj responseq
      else msgSend { type := nameLookupFailed } responseq

/-- The loop of `main`, from the message that comes over the temporary endpoint. -/
def handleMessage (forward : Option ℕ) (names : Names) (temp : ℕ) : Program Names := do
  let msg ← msgRecieve temp
  if msg.type = nameLookup then
    handleLookup names temp (msg.data 0) forward
    return names
  else if msg.type = nameBind then
    let id := msg.data 0
    let msg ← msgRecieve temp
    handleBind names (msg.data 5) id
  else return names

/-- A turn of the loop of `main`. The assertion about the message only prints. -/
def turn (forward : Option ℕ) (port : ℕ) (names : Names) : Program Names := do
  let msg ← msgRecieve port
  handleMessage forward names (msg.data 5)

/-! ## The service -/

/-- Names that fit into the table. -/
structure Directory where
  hashes : Finset UInt32
  zero_notMem : 0 ∉ hashes
  card_le : hashes.card ≤ maxNameEntries

/-- The calls of the clients. -/
inductive Call (D : Directory)
  | bind (name : List UInt8) (endpoint : ℕ) (hname : nameserverHash name ∈ D.hashes)
      (hpos : 0 < endpoint) (hlt : endpoint < 2 ^ 31)
  | lookup (name : List UInt8)
  | lookupHash (hash : UInt32)

/-- The programs of the clients, with the result of a lookup. -/
def Call.program {D : Directory} (server : ℕ) : Call D → Program (Option ℕ)
  | .bind name endpoint _ _ _ => do
    nameserverBind server name endpoint
    return none
  | .lookup name => some <$> nameserverLookup server name
  | .lookupHash hash => some <$> nameserverLookupHash server hash

/-- What a client does over its endpoint. -/
def dialogue {D : Directory} : Call D → ℕ → Program (Option ℕ)
  | .bind name endpoint _ _ _, temp => do
    msgSend { type := nameBind, data := oneWord (nameserverHash name).toNat } temp
    cspaceGrant endpoint temp
    return none
  | .lookup name, temp => do
    msgSend { type := nameLookup, data := oneWord (nameserverHash name).toNat } temp
    let msg ← msgRecieve temp
    if msg.type = .grantObject then return some (msg.data 5) else return some 0
  | .lookupHash hash, temp => do
    msgSend { type := nameLookup, data := oneWord hash.toNat } temp
    let msg ← msgRecieve temp
    if msg.type = .grantObject then return some (msg.data 5) else return some 0

theorem plain_handleLookup (names : Names) (temp hash : ℕ) :
    ((handleLookup names temp hash none).bind fun _ => .ret names : Program Names).Plain temp := by
  rw [handleLookup]
  split
  · exact .send (.ret names)
  · exact .send (.ret names)

theorem plain_handleBind (names : Names) (temp endpoint hash : ℕ) :
    (handleBind names endpoint hash).Plain temp := by
  rw [handleBind]
  split
  · exact .abort
  · exact .ret _

theorem plain_handleMessage (names : Names) (temp : ℕ) :
    (handleMessage none names temp).Plain temp := by
  refine .receive fun msg => ?_
  show Proc.Plain temp (ite _ _ _)
  split
  · exact plain_handleLookup names temp _
  · split
    · exact .receive fun msg' => plain_handleBind ..
    · exact .ret names

theorem plain_dialogue {D : Directory} (call : Call D) (temp : ℕ) :
    (dialogue call temp).Plain temp := by
  have hanswer (msg : Message) : ((if msg.type = .grantObject then return some (msg.data 5)
      else return some 0) : Program (Option ℕ)).Plain temp := by
    split
    · exact .ret _
    · exact .ret _
  cases call with
  | bind name endpoint => exact .send (.send (.ret none))
  | lookup name => exact .send (.receive hanswer)
  | lookupHash hash => exact .send (.receive hanswer)

/-- The name server that does not forward, as a service. -/
def service (D : Directory) (port : ℕ) : Service Message Fresh Names (Call D) (Option ℕ) where
  port := port
  object := .object
  grant temp := { type := .grantObject, data := fun i => if i = 5 then temp else 0 }
  granted msg := some (msg.data 5)
  session := handleMessage none
  dialogue := dialogue
  other names _ := .ret names
  granted_grant _ := rfl
  session_over names temp := (plain_handleMessage names temp).over
  dialogue_over call temp := (plain_dialogue call temp).over

theorem service_serve (D : Directory) (port : ℕ) (names : Names) :
    (service D port).serve names = turn none port names := rfl

theorem service_ask (D : Directory) (port : ℕ) (hist : List (Call D × Option ℕ)) (call : Call D) :
    (service D port).ask hist call =
      (call.program port).bind fun r => .ret (hist ++ [(call, r)]) := by
  have hanswer (msg : Message) : ((if msg.type = .grantObject then return some (msg.data 5)
      else return some 0 : Program (Option ℕ)).bind fun r => .ret (hist ++ [(call, r)])) =
        (((if msg.type = .grantObject then return msg.data 5 else return 0 : Program ℕ).bind
          fun r => .ret (some r)).bind fun r => .ret (hist ++ [(call, r)])) := by
    split <;> rfl
  cases call with
  | bind name endpoint => rfl
  | lookup name =>
    exact congrArg (Proc.fresh _) (funext fun temp => congrArg (Proc.send _ _)
      (congrArg (Proc.send _ _) (congrArg (Proc.receive _) (funext hanswer))))
  | lookupHash hash =>
    exact congrArg (Proc.fresh _) (funext fun temp => congrArg (Proc.send _ _)
      (congrArg (Proc.send _ _) (congrArg (Proc.receive _) (funext hanswer))))

/-! ## The map -/

section

variable {D : Directory} {port : ℕ} {names : Names} {m : UInt32 → Option ℕ}

/-- The endpoints that are bound to the names. -/
def next (m : UInt32 → Option ℕ) : Call D → UInt32 → Option ℕ
  | .bind name endpoint _ _ _ => Function.update m (nameserverHash name) (some endpoint)
  | _ => m

/-- What a call gives: a lookup gets the endpoint, or zero. -/
def result (m : UInt32 → Option ℕ) : Call D → Option ℕ
  | .bind _ _ _ _ _ => none
  | .lookup name => some ((m (nameserverHash name)).getD 0)
  | .lookupHash hash => some ((m hash).getD 0)

/-- The table is a map of the directory. -/
structure Represents (D : Directory) (names : Names) (m : UInt32 → Option ℕ) : Prop where
  holds : ∃ used, Holds names used ∧ ∀ h, m h = (assoc h used).map UInt32.toNat
  bound : ∀ h e, m h = some e → h ∈ D.hashes ∧ 0 < e ∧ e < 2 ^ 31

theorem represents_initial (D : Directory) : Represents D Names.initial fun _ => none := by
  constructor
  · exact ⟨[], Holds.initial, fun h => rfl⟩
  · exact fun h e he => by cases he

/-- There is room for each name of the directory. -/
theorem Represents.bind (h : Represents D names m) {hash : UInt32} {endpoint : ℕ}
    (hhash : hash ∈ D.hashes) (hpos : 0 < endpoint) (hlt : endpoint < 2 ^ 31) :
    ∃ names', bindName names (UInt32.ofNat endpoint) hash = some names' ∧
      Represents D names' (Function.update m hash (some endpoint)) := by
  obtain ⟨⟨used, hholds, hm⟩, hbound⟩ := h
  have hendpoint : (UInt32.ofNat endpoint).toNat = endpoint := by
    rw [UInt32.toNat_ofNat']
    omega
  have hbind : ∃ names' used', bindName names (UInt32.ofNat endpoint) hash = some names' ∧
      Holds names' used' ∧ (fun h => assoc h used') =
        Function.update (fun h => assoc h used) hash (some (UInt32.ofNat endpoint)) := by
    by_cases hmem : hash ∈ used.map NameEntry.hash
    · exact hholds.bind_mem _ hmem
    · have hne : hash ≠ 0 := fun heq => D.zero_notMem (heq ▸ hhash)
      refine hholds.bind_new _ hne hmem ?_
      have hsubset : (hash :: used.map NameEntry.hash).toFinset ⊆ D.hashes := by
        intro h' hh'
        rcases List.mem_cons.1 (List.mem_toFinset.1 hh') with rfl | hh'
        · exact hhash
        · have hsome : assoc h' used ≠ none := fun hnone => (assoc_eq_none_iff h' used).1 hnone hh'
          obtain ⟨e, he⟩ := Option.ne_none_iff_exists'.1 hsome
          exact (hbound h' e.toNat (by rw [hm, he]; rfl)).1
      have hcard := Finset.card_le_card hsubset
      rw [List.toFinset_card_of_nodup (List.nodup_cons.2 ⟨hmem, hholds.nodup⟩), List.length_cons,
        List.length_map] at hcard
      exact Nat.lt_of_lt_of_le (Nat.lt_of_succ_le hcard) D.card_le
  obtain ⟨names', used', hsome, hholds', hassoc⟩ := hbind
  refine ⟨names', hsome, ⟨used', hholds', fun h' => ?_⟩, fun h' e he => ?_⟩
  · have hh' := congrFun hassoc h'
    by_cases heq : h' = hash
    · subst heq
      rw [Function.update_self] at hh' ⊢
      rw [hh', Option.map_some, hendpoint]
    · rw [Function.update_of_ne heq] at hh' ⊢
      rw [hm, hh']
  · by_cases heq : h' = hash
    · subst heq
      rw [Function.update_self] at he
      obtain rfl := Option.some.inj he
      exact ⟨hhash, hpos, hlt⟩
    · rw [Function.update_of_ne heq] at he
      exact hbound h' e he

/-- A lookup finds what is bound. -/
theorem Represents.lookup (h : Represents D names m) (hash : UInt32) :
    (lookupName names hash).toNat = (m hash).getD 0 := by
  obtain ⟨used, hholds, hm⟩ := h.holds
  rw [hholds.lookup, hm]
  cases assoc hash used <;> rfl

/-- An endpoint is granted exactly when it is bound. -/
theorem Represents.positive (h : Represents D names m) (hash : UInt32) :
    int32Positive (lookupName names hash).toNat = (m hash).isSome := by
  rw [h.lookup]
  cases hm : m hash with
  | none => rfl
  | some e =>
    obtain ⟨-, hpos, hlt⟩ := h.bound hash e hm
    simp only [Option.getD_some, int32Positive, Option.isSome_some, Bool.and_eq_true,
      decide_eq_true_eq]
    omega

/-- The conversation of a lookup. -/
theorem converse_lookup (h : Represents D names m) (hash : UInt32) (temp : ℕ) :
    converse^[2] (handleMessage none names temp, (do
      msgSend { type := nameLookup, data := oneWord hash.toNat } temp
      let msg ← msgRecieve temp
      if msg.type = .grantObject then return some (msg.data 5) else return some 0 :
        Program (Option ℕ))) = (.ret names, .ret (some ((m hash).getD 0))) := by
  have hreply : handleLookup names temp hash.toNat none =
      if (m hash).isSome then cspaceGrant ((m hash).getD 0) temp
      else msgSend { type := nameLookupFailed } temp := by
    rw [handleLookup, UInt32.ofNat_toNat, h.positive, h.lookup]
  have hfirst : (handleMessage none names temp) = .receive temp fun msg =>
      if msg.type = nameLookup then
        (handleLookup names temp (msg.data 0) none).bind fun _ => .ret names
      else if msg.type = nameBind then
        .receive temp fun msg' => handleBind names (msg'.data 5) (msg.data 0)
      else .ret names := rfl
  rw [hfirst, Function.iterate_succ_apply]
  show converse^[1] ((handleLookup names temp hash.toNat none).bind fun _ => .ret names, _) = _
  rw [hreply]
  cases m hash <;> rfl

/-- **The conversations of the name server are the operations of the map.** -/
theorem service_atomic (D : Directory) (port : ℕ) (legal : Fresh → ℕ → Prop) :
    (service D port).Atomic legal (Represents D) next result := by
  have hconverse {names : Names} {m : UInt32 → Option ℕ} (h : Represents D names m) (call : Call D)
      (temp : ℕ) : ∃ n names', Represents D names' (next m call) ∧
        converse^[n] (handleMessage none names temp, dialogue call temp) =
          (.ret names', .ret (result m call)) := by
    cases call with
    | bind name endpoint hname hpos hlt =>
      obtain ⟨names', hbind, hrep⟩ := h.bind hname hpos hlt
      refine ⟨2, names', hrep, ?_⟩
      have hhandle : handleBind names endpoint (nameserverHash name).toNat = .ret names' := by
        rw [handleBind, UInt32.ofNat_toNat, hbind]
        rfl
      show (handleBind names endpoint (nameserverHash name).toNat, _) = _
      rw [hhandle]
      rfl
    | lookup name => exact ⟨2, names, h, converse_lookup h (nameserverHash name) temp⟩
    | lookupHash hash => exact ⟨2, names, h, converse_lookup h hash temp⟩
  constructor
  · intro names m call temp names' q h htalks
    obtain ⟨n, names'', hrep, hn⟩ := hconverse h call temp
    obtain rfl := htalks.ret_left (plain_handleMessage ..) (plain_dialogue ..)
      (congrArg Prod.fst hn)
    exact hrep
  · intro names m call temp p r h htalks
    obtain ⟨n, names'', -, hn⟩ := hconverse h call temp
    exact htalks.ret_right (plain_handleMessage ..) (plain_dialogue ..) (congrArg Prod.snd hn)

/-- The programs of the name server and its clients: the server takes a turn, and a client keeps the
results of its calls. -/
def start (D : Directory) (port : ℕ) (ι : Type) :
    ∀ p : Option ι, Service.Party ι Names (Call D) (Option ℕ) p → Call D →
      Program (Service.Party ι Names (Call D) (Option ℕ) p)
  | none => fun names _ => turn none port names
  | some _ => fun hist call => (call.program port).bind fun r => .ret (hist ++ [(call, r)])

theorem start_eq (D : Directory) (port : ℕ) (ι : Type) :
    (service D port).start ι = start D port ι := by
  funext p
  cases p with
  | none => rfl
  | some c => exact funext fun hist => funext fun call => service_ask D port hist call

/-- The beginning, with an empty table. -/
def initial (D : Directory) (port : ℕ) (ι : Type) :
    System (Option ι) Message Fresh (Service.Party ι Names (Call D) (Option ℕ)) :=
  (service D port).initial ι Names.initial

/-- **The name server is a finite map to all its clients.** In every state of every run there is an
order of the calls that explains it, and it is kept for the rest of the run. -/
theorem nameserver_linearizable {ι : Type} [DecidableEq ι] {legal : Fresh → ℕ → Prop}
    {s : System (Option ι) Message Fresh (Service.Party ι Names (Call D) (Option ℕ))}
    (h : System.Reaches legal (start D port ι) (initial D port ι) s) :
    ∃ log, Service.Explains (Represents D) next result (fun _ => none) s log ∧
      ∀ s', System.Reaches legal (start D port ι) s s' →
        ∃ log', log <+: log' ∧
          Service.Explains (Represents D) next result (fun _ => none) s' log' := by
  rw [← start_eq] at h ⊢
  exact Service.linearizable (service_atomic D port legal) (represents_initial D) h

end

/-- A directory with the name `a`. -/
def oneName : Directory := ⟨{nameserverHash [0x61]}, by decide +kernel, by decide +kernel⟩

/-- The name is bound. -/
def bindOne : Call oneName :=
  .bind [0x61] 7 (Finset.mem_singleton_self _) (by decide) (by decide)

/-- The name is looked up. -/
def lookupOne : Call oneName := .lookup [0x61]

/-- One client binds the name while another one looks it up. -/
theorem nameserver_linearizable_two : ∃ s,
    System.Reaches (fun _ _ => True) (start oneName 1 (Fin 2)) (initial oneName 1 (Fin 2)) s ∧
      s.state (some 0) = [(bindOne, none)] ∧
      ∃ log, Service.Explains (Represents oneName) next result (fun _ => none) s log := by
  have hrun : System.Reaches (fun _ _ => True) (start oneName 1 (Fin 2)) (initial oneName 1 (Fin 2))
      _ :=
    ((((((((Relation.ReflTransGen.refl).tail
      (.start (p := some 1) lookupOne rfl)).tail
      (.start (p := some 0) bindOne rfl)).tail
      (.fresh (p := some 0) (v := 5) rfl trivial (by decide))).tail
      (.start (p := none) bindOne rfl)).tail
      (.rendezvous (p := some 0) (q := none) (by decide) rfl rfl)).tail
      (.rendezvous (p := some 0) (q := none) (by decide) rfl rfl)).tail
      (.rendezvous (p := some 0) (q := none) (by decide) rfl rfl)).tail
      (.finish (p := some 0) rfl)
  obtain ⟨log, hlog, -⟩ := nameserver_linearizable hrun
  exact ⟨_, hrun, rfl, log, hlog⟩

end C4OS.Nameserver
