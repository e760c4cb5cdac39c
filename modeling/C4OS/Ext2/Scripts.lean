import C4OS.Ext2.Isolation
import C4OS.Foundations.Scripts

/-!
# Reading a file among other clients

`fread` once more, as a program that acts on its connection and gets answers, so that other clients
may act between any two of its acts. The program alone is the function of `stdio.c` that runs on the
client and the server together (`implements_freads`). It asks for bytes of one block only, and so
other clients do not disturb it: among any other clients that write nothing, `fread` returns the
file piece by piece (`doesAmid_freads`).
-/

namespace C4OS.Ext2

open Foundations Ringbuffer

variable {sb : Superblock} {disk : ℕ → UInt8} {e : Inode} {fsnode : FsNode} {x y : Server}
  {c i p : ℕ} {ts : List Turn} {α β : Type} {a : α}

/-! ## Programs of a client -/

/-- The first reply. -/
def Answer.reply : Answer → Reply
  | .replies (r :: _) => r
  | _ => .error .notImplemented

/-- The bytes that were read. -/
def Answer.data : Answer → List UInt8
  | .bytes l => l
  | _ => []

/-- What a look at the ring shows. -/
def Answer.shown : Answer → Bool
  | .flag b => b
  | _ => false

namespace Scripts

/-- A program of a client. -/
abbrev Prog := Script Act Answer

/-- `c4rt_connman_call`. -/
def call (msg : Message) : Prog Reply := do return (← Script.perform (.request msg)).reply

/-- `c4_ringbuf_empty`. -/
def ringbufEmpty : Prog Bool := do return (← Script.perform .empty).shown

/-- `c4_ringbuf_read`. -/
def ringbufRead (size : ℕ) : Prog (List UInt8) := do return (← Script.perform (.read size)).data

/-- The request of `fs_read_block`. -/
def requestBlock : Prog Bool := do
  if ← ringbufEmpty then
    match ← call ⟨.readBlock, fun _ => 0⟩ with
    | .completed _ => return true
    | .error _ => return false
  else
    return true

/-- `fs_read_block`. -/
def fsReadBlock (maxlen : ℕ) : Prog (List UInt8) := do
  if ← requestBlock then ringbufRead maxlen else return []

/-- The loop of `fread`. -/
def freadLoop : ℕ → ℕ → List UInt8 → Prog (List UInt8)
  | 0, _, _ => .stop
  | fuel + 1, len, ret => do
    let bytes ← fsReadBlock len
    if bytes = [] then return ret
    else freadLoop fuel (len - bytes.length) (ret ++ bytes)

/-- `fread`. -/
def fread (size members : ℕ) : Prog (List UInt8) :=
  let len := size * members % wordSize
  freadLoop (len + 1) len []

/-- Calls of `fread` one after the other. -/
def freads : List (ℕ × ℕ) → Prog (List (List UInt8))
  | [] => return []
  | (size, members) :: calls => do
    let bytes ← fread size members
    let rest ← freads calls
    return bytes :: rest

end Scripts

/-! ## A program alone -/

/-- What a turn shows of a program. -/
def Turn.shows (t : Turn) : Act × Answer := (t.act, t.answer)

/-- The turn of an act, of whose answer something is returned. -/
theorem follows_act {act : Act} {read : Answer → β} {b : β} :
    Follows Turn.shows (do return read (← Script.perform act)) ts b ↔
      ∃ t, ts = [t] ∧ t.act = act ∧ read t.answer = b :=
  follows_perform_bind

/-- All turns are those of one client. -/
def Alone (c : ℕ) (ts : List Turn) : Prop := ∀ t ∈ ts, t.client = c

/-- A client and the server, with the index that the client keeps. -/
def Server.system (x : Server) (c i : ℕ) : System := ⟨x.dev, x.conns c, [], i⟩

/-- A program that is alone does what a function on the client and the server does. -/
structure Implements (sb : Superblock) (s : Scripts.Prog α) (f : System → Option (System × α)) :
    Prop where
  sound : ∀ {x y c ts a} (i : ℕ), Alone c ts → Run (TakesTurn sb) x ts y →
    Follows Turn.shows s ts a → ∃ j, f (x.system c i) = some (y.system c j, a)
  complete : ∀ {x c i sys a}, f (x.system c i) = some (sys, a) → ∃ ts y, Alone c ts ∧
    Run (TakesTurn sb) x ts y ∧ Follows Turn.shows s ts a ∧ sys = y.system c sys.index

/-- An act of a client, with another index of the client afterwards. -/
def acts (sb : Superblock) (act : Act) (read : Answer → β) (index : ℕ → Answer → ℕ)
    (sys : System) : Option (System × β) :=
  (act.run sb (fun _ => 0) sys.dev sys.conn).map fun r =>
    ({ sys with dev := r.1, conn := r.2.1, index := index sys.index r.2.2 }, read r.2.2)

namespace Implements

variable {s : Scripts.Prog α} {f : System → Option (System × α)} {g : α → Scripts.Prog β}
  {k : α → System → Option (System × β)}

theorem pure (a : α) : Implements sb (Pure.pure a) fun sys => some (sys, a) where
  sound i _ hrun hs := by
    obtain ⟨rfl, rfl⟩ := follows_pure.1 hs
    cases hrun
    exact ⟨i, rfl⟩
  complete h := by
    cases h
    exact ⟨[], _, fun _ ht => absurd ht List.not_mem_nil, .nil _, .done _, rfl⟩

theorem bind (h : Implements sb s f) (h' : ∀ a, Implements sb (g a) (k a)) :
    Implements sb (s >>= g) fun sys => (f sys).bind fun r => k r.2 r.1 where
  sound i halone hrun hs := by
    obtain ⟨ts₁, ts₂, a, rfl, hs₁, hs₂⟩ := follows_bind.1 hs
    obtain ⟨halone₁, halone₂⟩ := List.forall_mem_append.1 halone
    obtain ⟨z, hrun₁, hrun₂⟩ := hrun.of_append
    obtain ⟨j, hf⟩ := h.sound i halone₁ hrun₁ hs₁
    obtain ⟨j', hk⟩ := (h' a).sound j halone₂ hrun₂ hs₂
    exact ⟨j', by rw [hf, Option.bind_some, hk]⟩
  complete hrun := by
    obtain ⟨⟨sys₁, a⟩, hf, hk⟩ := Option.bind_eq_some_iff.1 hrun
    obtain ⟨ts₁, z, halone₁, hrun₁, hs₁, hsys₁⟩ := h.complete hf
    rw [hsys₁] at hk
    obtain ⟨ts₂, y, halone₂, hrun₂, hs₂, hsys⟩ := (h' a).complete hk
    exact ⟨ts₁ ++ ts₂, y, List.forall_mem_append.2 ⟨halone₁, halone₂⟩, hrun₁.append hrun₂,
      hs₁.bind hs₂, hsys⟩

theorem ite {s' : Scripts.Prog α} {f' : System → Option (System × α)} (q : Prop)
    [Decidable q] (h : Implements sb s f) (h' : Implements sb s' f') :
    Implements sb (if q then s else s') fun sys => if q then f sys else f' sys := by
  by_cases hq : q
  · simpa only [if_pos hq] using h
  · simpa only [if_neg hq] using h'

theorem congr {f' : System → Option (System × α)} (h : Implements sb s f)
    (heq : ∀ sys, sys.inbox = [] → f' sys = f sys) : Implements sb s f' where
  sound i halone hrun hs := by
    obtain ⟨j, hf⟩ := h.sound i halone hrun hs
    exact ⟨j, (heq _ rfl).trans hf⟩
  complete hrun := h.complete ((heq _ rfl).symm.trans hrun)

/-- An act that does not depend on the stack of the server. -/
theorem perform {act : Act} {read : Answer → β} {index : ℕ → Answer → ℕ}
    (hstack : ∀ stack stack' d conn, act.run sb stack d conn = act.run sb stack' d conn) :
    Implements sb (do return read (← Script.perform act)) (acts sb act read index) where
  sound {x y c ts a} i halone hrun hs := by
    obtain ⟨t, rfl, rfl, rfl⟩ := follows_act.1 hs
    obtain rfl := halone t List.mem_cons_self
    cases hrun with
    | cons hstep hnil =>
      cases hnil
      obtain ⟨d, conn, hact, rfl⟩ := hstep
      refine ⟨index i t.answer, ?_⟩
      show (t.act.run sb (fun _ => 0) x.dev (x.conns t.client)).map _ = _
      rw [hstack _ t.stack, hact]
      simp [Server.system]
  complete {x c i sys a} hrun := by
    obtain ⟨⟨d, conn, answer⟩, hact, heq⟩ := Option.map_eq_some_iff.1 hrun
    cases heq
    refine ⟨[⟨c, fun _ => 0, act, answer⟩], _, ?_, .cons ⟨d, conn, hact, rfl⟩ (.nil _), ?_, ?_⟩
    · exact fun t ht => by rw [List.mem_singleton.1 ht]
    · exact follows_act.2 ⟨_, rfl, rfl, rfl⟩
    · simp [Server.system]

end Implements

/-- A request for bytes has one reply. -/
theorem handleReadBlock_reply {d d' : Device} {conn conn' : Conn} {replies : List Reply}
    (h : handleReadBlock sb d conn = some (d', conn', replies)) : ∃ r, replies = [r] := by
  rw [handleReadBlock] at h
  split at h
  · cases h
    exact ⟨_, rfl⟩
  · split at h
    · cases h
      exact ⟨_, rfl⟩
    · split at h
      · cases h
      · obtain ⟨can, -, h⟩ := Option.bind_eq_some_iff.1 h
        split at h
        · cases h
          exact ⟨_, rfl⟩
        · obtain ⟨⟨d₁, ok⟩, -, h⟩ := Option.bind_eq_some_iff.1 h
          simp only at h
          split at h
          · cases h
          · obtain ⟨bytes, -, h⟩ := Option.bind_eq_some_iff.1 h
            obtain ⟨r, -, h⟩ := Option.bind_eq_some_iff.1 h
            cases h
            exact ⟨_, rfl⟩

theorem implements_requestBlock (sb : Superblock) :
    Implements sb Scripts.requestBlock (requestBlock sb) := by
  have hempty : Implements sb Scripts.ringbufEmpty
      (acts sb .empty Answer.shown fun i _ => i) := .perform fun _ _ _ _ => rfl
  have hcall : Implements sb (Scripts.call ⟨.readBlock, fun _ => 0⟩)
      (acts sb (.request ⟨.readBlock, fun _ => 0⟩) Answer.reply fun i _ => i) :=
    .perform fun _ _ _ _ => rfl
  have hreply (r : Reply) : Implements sb (match r with
      | .completed _ => return true
      | .error _ => return false) fun sys => match r with
      | .completed _ => some (sys, true)
      | .error _ => some (sys, false) := by
    cases r <;> exact .pure _
  refine (hempty.bind fun b => (hcall.bind hreply).ite (b = true) (.pure true)).congr
    fun sys hinbox => ?_
  simp only [requestBlock, acts, Act.run, Option.map_some, Option.bind_some, Answer.shown]
  cases c4RingbufEmpty sys.conn.ring with
  | false => rfl
  | true =>
    simp only [if_true, ext2Server]
    cases hrun : handleReadBlock sb sys.dev sys.conn with
    | none => rfl
    | some r =>
      obtain ⟨d, conn, replies⟩ := r
      obtain ⟨r, rfl⟩ := handleReadBlock_reply hrun
      simp only [Option.bind_eq_bind, Option.bind_some, receive, hinbox, List.nil_append]
      cases r <;> cases sys <;> cases hinbox <;> rfl

theorem implements_fsReadBlock (sb : Superblock) (maxlen : ℕ) :
    Implements sb (Scripts.fsReadBlock maxlen) fun sys => fsReadBlock sb sys maxlen := by
  have hread : Implements sb (Scripts.ringbufRead maxlen)
      (acts sb (.read maxlen) Answer.data fun i r => (i + r.data.length) % wordSize) :=
    .perform fun _ _ _ _ => rfl
  refine ((implements_requestBlock sb).bind fun ok => hread.ite (ok = true) (.pure [])).congr
    fun sys hinbox => ?_
  rw [fsReadBlock]
  refine bind_congr fun r => ?_
  obtain ⟨sys, ok⟩ := r
  cases ok with
  | false => rfl
  | true =>
    simp only [acts, Act.run, if_true]
    cases c4RingbufRead sys.conn.ring maxlen <;> rfl

theorem implements_freadLoop (sb : Superblock) (fuel len : ℕ) (ret : List UInt8) :
    Implements sb (Scripts.freadLoop fuel len ret) fun sys => freadLoop sb fuel sys len ret := by
  induction fuel generalizing len ret with
  | zero =>
    refine ⟨fun i _ _ h => ?_, fun h => ?_⟩
    · cases h
    · cases h
  | succ fuel ih =>
    exact ((implements_fsReadBlock sb len).bind fun bytes => (Implements.pure ret).ite (bytes = [])
      (ih (len - bytes.length) (ret ++ bytes))).congr fun sys _ => rfl

theorem implements_fread (sb : Superblock) (size members : ℕ) :
    Implements sb (Scripts.fread size members) fun sys => fread sb sys size members :=
  implements_freadLoop sb _ _ _

/-- **The program alone is the function** on the client and the server. -/
theorem implements_freads (sb : Superblock) (calls : List (ℕ × ℕ)) :
    Implements sb (Scripts.freads calls) fun sys => freads sb sys calls := by
  induction calls with
  | nil => exact .pure []
  | cons call calls ih =>
    exact (implements_fread sb call.1 call.2).bind fun bytes => ih.bind fun rest => .pure _

/-! ## Other clients -/

/-- What a program of a client does when the client is alone, and uses its connection as it is to be
used. -/
abbrev Does (sb : Superblock) (x : Server) (c : ℕ) (s : Scripts.Prog α)
    (Q : α → Server → Prop) : Prop :=
  Achieves (TakesTurn sb) Turn.client Turn.shows (fun x t => t.act.Proper sb (x.conns t.client)) c x
    s Q

/-- What a program does among other clients that write nothing and use their connections as they are
to be used. -/
abbrev DoesAmid (sb : Superblock) (x : Server) (c : ℕ) (s : Scripts.Prog α) (Q : α → Prop) : Prop :=
  AchievesAmid (TakesTurn sb) Turn.client Turn.shows (fun t => t.act.Calm)
    (fun x t => t.act.Proper sb (x.conns t.client)) c x s Q

/-- One act, of whose answer something is returned. -/
theorem does_act {act : Act} {read : Answer → α} {Q : α → Server → Prop}
    (hproper : act.Proper sb (x.conns c)) (h : ∀ stack, ∃ d conn r,
      act.run sb stack x.dev (x.conns c) = some (d, conn, r) ∧
        Q (read r) ⟨d, Function.update x.conns c conn⟩) :
    Does sb x c (do return read (← Script.perform act)) Q := by
  refine Achieves.perform ?_ ?_ ?_
  · obtain ⟨d, conn, r, hrun, -⟩ := h fun _ => 0
    exact ⟨⟨c, fun _ => 0, act, r⟩, _, rfl, rfl, d, conn, hrun, rfl⟩
  · rintro t rfl rfl
    exact hproper
  · rintro t y rfl rfl ⟨d, conn, hrun, rfl⟩
    obtain ⟨d', conn', r, hrun', hQ⟩ := h t.stack
    cases hrun.symm.trans hrun'
    exact hQ

/-- A program that does what a function does. -/
theorem Implements.does {s : Scripts.Prog α} {f : System → Option (System × α)} {sys : System}
    {Q : α → Server → Prop} (h : Implements sb s f) (hf : f (x.system c 0) = some (sys, a))
    (hused : ∀ ts a, Alone c ts → Follows Turn.shows s ts a → UsedProperly sb x ts)
    (hQ : ∀ y j, sys = y.system c j → Q a y) : Does sb x c s Q where
  ends := by
    obtain ⟨ts, y, halone, hrun, hs, -⟩ := h.complete hf
    exact ⟨ts, y, a, halone, hrun, hs⟩
  allowed := hused
  returns ts y a' halone hrun hs := by
    obtain ⟨j, hf'⟩ := h.sound 0 halone hrun hs
    cases hf.symm.trans hf'
    exact hQ y j rfl

theorem Streaming.system {j : ℕ} (h : Streaming sb disk fsnode e p (x.system c i)) :
    Streaming sb disk fsnode e p (x.system c j) :=
  ⟨h.working, h.disk_eq, h.inbox, h.client⟩

theorem Streaming.fits (h : Streaming sb disk fsnode e p (x.system c i)) {cli : ClientState}
    (hcli : (x.conns c).progData = some cli) : Fits sb cli.e2node cli.index := by
  obtain ⟨k, hcli', -, -, hfits, -⟩ := h.client
  cases hcli.symm.trans hcli'
  exact hfits

section Reading

variable (hbs : sb.blockSize ≤ 1) (hm : FileMapped sb disk e) (hn : FileNear sb disk e)
  (h : Streaming sb disk fsnode e p (x.system c 0))

include hbs hm hn h

theorem does_requestBlock : Does sb x c Scripts.requestBlock
    fun _ y => Streaming sb disk fsnode e p (y.system c 0) := by
  obtain ⟨sys, hreq, hsys, -⟩ := h.requestBlock hbs hm hn
  refine (implements_requestBlock sb).does hreq (fun ts ok halone hs => ?_)
    fun y j heq => (heq ▸ hsys).system
  obtain ⟨ts₁, ts₂, b, rfl, hempty, hask⟩ := follows_bind.1 hs
  obtain ⟨t, rfl, ht, -⟩ := follows_act.1 hempty
  obtain rfl := halone t List.mem_cons_self
  refine ⟨by show t.act.Proper sb _; rw [ht]; trivial, fun z hz => ?_⟩
  -- a look at the ring changes nothing
  obtain rfl : z = x := by
    obtain ⟨d, conn, hrun, rfl⟩ := hz
    rw [ht] at hrun
    obtain ⟨rfl, heq⟩ := Prod.mk.inj (Option.some.inj hrun)
    obtain ⟨rfl, -⟩ := Prod.mk.inj heq
    rw [Function.update_eq_self]
  split at hask
  · obtain ⟨ts₃, ts₄, r, rfl, hcall, hreply⟩ := follows_bind.1 hask
    obtain ⟨t', rfl, ht', -⟩ := follows_act.1 hcall
    obtain rfl : ts₄ = [] := by
      cases r <;> exact (follows_pure.1 hreply).1
    refine ⟨?_, fun _ _ => trivial⟩
    show t'.act.Proper sb (z.conns t'.client)
    rw [ht', halone t' (List.mem_cons_of_mem _ List.mem_cons_self)]
    exact fun cli hcli => h.fits hcli
  · obtain ⟨rfl, -⟩ := follows_pure.1 hask
    trivial

theorem does_fsReadBlock (maxlen : ℕ) : Does sb x c (Scripts.fsReadBlock maxlen)
    fun bytes y => bytes.length ≤ maxlen ∧ ∃ q, Streaming sb disk fsnode e q (y.system c 0) := by
  obtain ⟨sys, n, hread, hsys, -, hn', -⟩ := h.fsReadBlock hbs hm hn maxlen
  refine (implements_fsReadBlock sb maxlen).does hread (fun ts bytes halone hs => ?_)
    fun y j heq => ⟨Nat.le_trans (List.length_take_le ..) hn', p + n, (heq ▸ hsys).system⟩
  obtain ⟨ts₁, ts₂, ok, rfl, hreq, hread⟩ := follows_bind.1 hs
  have halone₁ := (List.forall_mem_append.1 halone).1
  refine ((does_requestBlock hbs hm hn h).allowed ts₁ ok halone₁ hreq).append fun y _ => ?_
  split at hread
  · obtain ⟨t, rfl, ht, -⟩ := follows_act.1 hread
    exact ⟨by show t.act.Proper sb _; rw [ht]; trivial, fun _ _ => trivial⟩
  · obtain ⟨rfl, -⟩ := follows_pure.1 hread
    trivial

/-- The loop of `fread` asks for bytes of one block only, and stays in the file. -/
theorem does_freadLoop {fuel len : ℕ} (hfuel : len < fuel) (ret : List UInt8) :
    Does sb x c (Scripts.freadLoop fuel len ret)
      fun _ y => ∃ q, Streaming sb disk fsnode e q (y.system c 0) := by
  induction fuel generalizing len ret x p with
  | zero => omega
  | succ fuel ih =>
    refine Achieves.bind ((does_fsReadBlock hbs hm hn h len).mono ?_)
    rintro bytes y ⟨hlen, q, hq⟩
    split
    · exact .pure ⟨q, hq⟩
    · next hne =>
      have hpos := List.length_pos_iff.2 hne
      exact ih hq (by omega) _

theorem does_freads_streaming (calls : List (ℕ × ℕ)) : Does sb x c (Scripts.freads calls)
    fun _ y => ∃ q, Streaming sb disk fsnode e q (y.system c 0) := by
  induction calls generalizing x p with
  | nil => exact .pure ⟨p, h⟩
  | cons call calls ih =>
    refine Achieves.bind ((does_freadLoop hbs hm hn h (Nat.lt_succ_self _) []).mono ?_)
    rintro bytes y ⟨q, hq⟩
    exact Achieves.bind ((ih hq).mono fun rest z hz => .pure hz)

/-- **Calls of `fread` alone** return the file from the position of the client on. -/
theorem does_freads {calls : List (ℕ × ℕ)} (hcalls : ∀ call ∈ calls, call.1 * call.2 < 2 ^ 31) :
    Does sb x c (Scripts.freads calls) fun chunks _ =>
      Reads ((fileContent sb disk e).drop p) (calls.map fun call => call.1 * call.2) chunks := by
  obtain ⟨sys, chunks, hrun, hreads⟩ := h.freads hbs hm hn hcalls
  exact (implements_freads sb calls).does hrun (does_freads_streaming hbs hm hn h calls).allowed
    fun _ _ _ => hreads

end Reading

/-- **Calls of `fread` among other clients.** -/
theorem doesAmid_freads (hv : Volume sb disk) (hx : x.OfVolume sb disk) (hbs : sb.blockSize ≤ 1)
    (hm : FileMapped sb disk e) (hn : FileNear sb disk e)
    (h : Streaming sb disk fsnode e p (x.system c 0)) {calls : List (ℕ × ℕ)}
    (hcalls : ∀ call ∈ calls, call.1 * call.2 < 2 ^ 31) :
    DoesAmid sb x c (Scripts.freads calls) fun chunks =>
      Reads ((fileContent sb disk e).drop p) (calls.map fun call => call.1 * call.2) chunks :=
  (separated hv).achievesAmid hx (does_freads hbs hm hn h hcalls)

end C4OS.Ext2
