import C4OS.Ext2.Image

/-!
# Lookups stay framed

A lookup sends its name through the ring and its length in the message. The two belong together only
as long as every lookup takes its name out of the ring. `calls_framed_iff` says for every sequence
of calls on a connection with an empty ring that this is so exactly when each lookup of a non-empty
name is made in a directory, with a name of at most 255 bytes. Before any other lookup the server
returns with the name still in the ring, where the next lookup finds it.
-/

namespace C4OS.Ext2

open Foundations Ringbuffer

/-- A call of the client. -/
inductive Lookup
  | setNode (inode : ℕ)
  | findName (name : List UInt8)
  deriving DecidableEq

/-- A call that returned: the state before, the name the server looked for, and the state after. -/
structure Call where
  before : System
  op : Lookup
  compared : Option (List UInt8)
  after : System

/-- The call returns, for some contents of the server's stack. -/
def Call.Returns (sb : Superblock) (c : Call) : Prop :=
  match c.op with
  | .setNode inode => ∃ reply, fsSetNode sb c.before inode = some (c.after, reply) ∧ c.compared = none
  | .findName name => ∃ stack reply,
    fsFindName sb stack c.before name = some (c.after, reply, c.compared)

/-- The calls of a run. -/
inductive Calls (sb : Superblock) (sys₀ : System) : List Call → System → Prop
  | nil : Calls sb sys₀ [] sys₀
  | snoc {calls : List Call} {c : Call} (h : Calls sb sys₀ calls c.before) (hc : c.Returns sb) :
      Calls sb sys₀ (calls ++ [c]) c.after

/-- The server looked for the name that the client sent, and the ring is empty again. -/
def Call.Framed (c : Call) : Prop :=
  c4RingbufEmpty c.after.conn.ring = true ∧
    ∀ name, c.op = .findName name → ∀ bytes, c.compared = some bytes → bytes = name

/-- A lookup of a non-empty name is made in a directory, and the name is not too long. -/
def Call.InDirectory (c : Call) : Prop :=
  ∀ name, c.op = .findName name → name ≠ [] → name.length < fsMaxNameLen ∧
    ∃ cli, c.before.conn.progData = some cli ∧ ext2IsDirectory cli.e2node = true

variable {sb : Superblock} {sys sys' sys₀ : System} {d d' : Device} {conn conn' : Conn}
  {stack : ℕ → UInt8} {name : List UInt8} {reply : Reply} {compared : Option (List UInt8)}

theorem receive_conn {replies : List Reply} (h : receive sys d conn replies = some (sys', reply)) :
    sys'.conn = conn := by
  unfold receive at h
  split at h
  · cases h
  · cases h
    rfl

/-- A short name in an empty ring can be read, wherever the ring begins. -/
theorem canRead_name {ring : C4Ringbuf} (h : Holds ringSize ring name)
    (hlen : name.length < fsMaxNameLen) : c4RingbufCanRead ring name.length = some true := by
  have hlen' : name.length < 256 := hlen
  rw [h.1.canRead_eq, h.used_eq]
  congr 1
  rw [decide_eq_true_iff]
  split
  · exact Nat.le_refl _
  · show name.length ≤ (name.length + 2 ^ 32) % 4084
    omega

theorem nameBytes_self : nameBytes stack name name.length = name := by
  simp [nameBytes]

/-- What `handle_find_name` does to the ring when it returns. -/
theorem handleFindName_cases {namelen : ℕ} {replies : List Reply}
    (h : handleFindName sb stack d conn namelen = some (d', conn', replies, compared)) :
    ∃ cli, conn.progData = some cli ∧
      ((ext2IsDirectory cli.e2node = false ∨ c4RingbufCanRead conn.ring namelen = some false ∨
          fsMaxNameLen ≤ namelen) ∧ conn' = conn ∧ compared = none ∨
        ext2IsDirectory cli.e2node = true ∧ namelen < fsMaxNameLen ∧
          ∃ ring bytes, c4RingbufRead conn.ring namelen = some (ring, bytes) ∧
            conn' = { conn with ring := ring } ∧
            compared = some (nameBytes stack bytes namelen)) := by
  simp only [handleFindName, Option.bind_eq_bind, Option.bind_eq_some_iff, Option.pure_def] at h
  obtain ⟨cli, hcli, h⟩ := h
  refine ⟨cli, hcli, ?_⟩
  split at h
  · next hdir =>
    cases h
    exact .inl ⟨.inl (by simpa using hdir), rfl, rfl⟩
  · next hdir =>
    simp only [Option.bind_eq_some_iff] at h
    obtain ⟨canRead, hcan, h⟩ := h
    split at h
    · next hbad =>
      cases h
      simp only [Bool.or_eq_true, Bool.not_eq_true', decide_eq_true_iff] at hbad
      rcases hbad with rfl | hlen
      · exact .inl ⟨.inr (.inl hcan), rfl, rfl⟩
      · exact .inl ⟨.inr (.inr hlen), rfl, rfl⟩
    · next hbad =>
      simp only [Bool.or_eq_true, decide_eq_true_iff, not_or] at hbad
      simp only [Option.bind_eq_some_iff] at h
      obtain ⟨⟨ring, bytes⟩, hread, ⟨d₁, ent⟩, -, h⟩ := h
      cases h
      exact .inr ⟨by simpa using hdir, Nat.lt_of_not_ge hbad.2, ring, bytes, hread, rfl, rfl⟩

/-- A lookup with an empty ring is framed exactly when it is made as it should be. -/
theorem findName_framed_iff (hring : Holds ringSize sys.conn.ring [])
    (h : fsFindName sb stack sys name = some (sys', reply, compared)) :
    (c4RingbufEmpty sys'.conn.ring = true ∧ ∀ bytes, compared = some bytes → bytes = name) ↔
      (name ≠ [] → name.length < fsMaxNameLen ∧
        ∃ cli, sys.conn.progData = some cli ∧ ext2IsDirectory cli.e2node = true) := by
  obtain ⟨ring, hwrite, hholds⟩ := hring.write_take name
  simp only [fsFindName, hwrite, Option.bind_eq_bind, Option.bind_some, Option.bind_eq_some_iff,
    Option.pure_def] at h
  obtain ⟨⟨d, conn, replies, compared'⟩, hfind, ⟨sys₁, reply'⟩, hrec, h⟩ := h
  cases h
  rw [receive_conn hrec]
  obtain ⟨cli, hcli, hcase⟩ := handleFindName_cases hfind
  rw [List.nil_append] at hholds
  -- with a short name the whole of it is in the ring
  have hshort (hlen : name.length < fsMaxNameLen) :
      name.take (ringSize - 1 - ([] : List UInt8).length) = name := by
    have hlen' : name.length < 256 := hlen
    apply List.take_of_length_le
    show name.length ≤ 4083
    omega
  rcases hcase with ⟨hbad, rfl, rfl⟩ | ⟨hdir, hlen, ring', bytes, hread, rfl, rfl⟩
  · have hempty : c4RingbufEmpty ring = true ↔ name = [] := by
      rw [hholds.empty_eq, decide_eq_true_iff, List.take_eq_nil_iff]
      exact or_iff_right (show ¬4083 = 0 by omega)
    simp only [hempty]
    constructor
    · exact fun hn hne => absurd hn.1 hne
    · intro hok
      refine ⟨by_contra fun hne => ?_, fun bytes hb => by cases hb⟩
      obtain ⟨hlen, cli', hcli', hdir⟩ := hok hne
      cases hcli.symm.trans hcli'
      rw [hshort hlen] at hholds
      rcases hbad with hb | hb | hb
      · rw [hdir] at hb
        cases hb
      · rw [canRead_name hholds hlen] at hb
        cases hb
      · exact Nat.not_le_of_gt hlen hb
  · rw [hshort hlen] at hholds
    obtain ⟨ring₁, hread', hdrop, -⟩ := hholds.read name.length
    rw [hread] at hread'
    cases hread'
    rw [List.drop_length] at hdrop
    rw [List.take_length, nameBytes_self]
    refine ⟨fun _ _ => ⟨hlen, cli, hcli, hdir⟩, fun _ => ⟨?_, fun bytes hb => ?_⟩⟩
    · rw [hdrop.empty_eq]
      rfl
    · exact (Option.some.inj hb).symm

/-- A call leaves a ring that is well-formed, whatever is in it. -/
theorem Call.exists_holds {c : Call} {l : List UInt8} (hring : Holds ringSize c.before.conn.ring l)
    (h : c.Returns sb) : ∃ l', Holds ringSize c.after.conn.ring l' := by
  obtain ⟨before, op, compared, after⟩ := c
  cases op with
  | setNode inode =>
    obtain ⟨reply, hrun, rfl⟩ := h
    exact ⟨l, (fsSetNode_same hrun).2.symm ▸ hring⟩
  | findName name =>
    obtain ⟨stack, reply, hrun⟩ := h
    obtain ⟨ring, hwrite, hholds⟩ := hring.write_take name
    simp only [fsFindName, hwrite, Option.bind_eq_bind, Option.bind_some, Option.bind_eq_some_iff,
      Option.pure_def] at hrun
    obtain ⟨⟨d, conn, replies, compared'⟩, hfind, ⟨sys₁, reply'⟩, hrec, hrun⟩ := hrun
    cases hrun
    rw [receive_conn hrec]
    obtain ⟨cli, -, ⟨-, rfl, -⟩ | ⟨-, -, ring', bytes, hread, rfl, -⟩⟩ := handleFindName_cases hfind
    · exact ⟨_, hholds⟩
    · obtain ⟨ring₁, hread', hdrop, -⟩ := hholds.read name.length
      cases hread.symm.trans hread'
      exact ⟨_, hdrop⟩

theorem Call.framed_iff {c : Call} (hring : Holds ringSize c.before.conn.ring [])
    (h : c.Returns sb) : c.Framed ↔ c.InDirectory := by
  obtain ⟨before, op, compared, after⟩ := c
  cases op with
  | setNode inode =>
    obtain ⟨reply, hrun, rfl⟩ := h
    have hempty : c4RingbufEmpty after.conn.ring = true := by
      rw [(fsSetNode_same hrun).2]
      simpa using hring.empty_eq
    simp [Framed, InDirectory, hempty]
  | findName name =>
    obtain ⟨stack, reply, hrun⟩ := h
    have := findName_framed_iff hring hrun
    simpa [Framed, InDirectory] using this

/-- After framed calls the ring is empty. -/
theorem Calls.holds_nil {calls : List Call} (hring : Holds ringSize sys₀.conn.ring [])
    (h : Calls sb sys₀ calls sys) (hframed : ∀ c ∈ calls, c.Framed) :
    Holds ringSize sys.conn.ring [] := by
  induction h with
  | nil => exact hring
  | @snoc calls c h hc ih =>
    have hbefore := ih fun c' hc' => hframed c' (List.mem_append_left _ hc')
    obtain ⟨l, hl⟩ := Call.exists_holds hbefore hc
    have hempty := (hframed c (List.mem_append_right _ (List.mem_singleton_self c))).1
    rw [hl.empty_eq, decide_eq_true_iff] at hempty
    exact hempty ▸ hl

/-- **The calls of a run are framed exactly when its lookups are made in directories.** Every lookup
compares the name that was sent for it and leaves the ring empty, if and only if each lookup of a
non-empty name is made while the node of the connection is a directory, with a name of less than
`FS_MAX_NAME_LEN` bytes. -/
theorem calls_framed_iff {calls : List Call} (hring : Holds ringSize sys₀.conn.ring [])
    (h : Calls sb sys₀ calls sys) :
    (∀ c ∈ calls, c.Framed) ↔ ∀ c ∈ calls, c.InDirectory := by
  induction h with
  | nil => simp
  | @snoc calls c h hc ih =>
    simp only [List.forall_mem_append, List.forall_mem_singleton]
    constructor
    · intro hframed
      have hbefore := h.holds_nil hring hframed.1
      exact ⟨ih.mp hframed.1, (Call.framed_iff hbefore hc).mp hframed.2⟩
    · intro hdir
      have hframed := ih.mpr hdir.1
      have hbefore := h.holds_nil hring hframed
      exact ⟨hframed, (Call.framed_iff hbefore hc).mpr hdir.2⟩

/-! ## Runs on a small image -/

/-- Make calls one after the other, with a cleared stack. -/
def runCalls (sb : Superblock) : System → List Lookup → Option (List Call)
  | _, [] => some []
  | sys, .setNode inode :: ops => do
    let (sys', _) ← fsSetNode sb sys inode
    let calls ← runCalls sb sys' ops
    return ⟨sys, .setNode inode, none, sys'⟩ :: calls
  | sys, .findName name :: ops => do
    let (sys', _, compared) ← fsFindName sb (fun _ => 0) sys name
    let calls ← runCalls sb sys' ops
    return ⟨sys, .findName name, compared, sys'⟩ :: calls

/-- The calls that `runCalls` makes extend a run. -/
theorem Calls.append {ops : List Lookup} {calls calls' : List Call} (h : Calls sb sys₀ calls sys)
    (hrun : runCalls sb sys ops = some calls') : ∃ sys', Calls sb sys₀ (calls ++ calls') sys' := by
  induction ops generalizing sys calls calls' with
  | nil =>
    cases hrun
    exact ⟨sys, (List.append_nil calls).symm ▸ h⟩
  | cons op ops ih =>
    cases op with
    | setNode inode =>
      simp only [runCalls, Option.bind_eq_bind, Option.bind_eq_some_iff, Option.pure_def] at hrun
      obtain ⟨⟨sys', reply⟩, hset, rest, hrest, hcalls⟩ := hrun
      cases hcalls
      have hc : Call.Returns sb ⟨sys, .setNode inode, none, sys'⟩ := ⟨reply, hset, rfl⟩
      have := ih (.snoc h hc) hrest
      rwa [List.append_assoc] at this
    | findName name =>
      simp only [runCalls, Option.bind_eq_bind, Option.bind_eq_some_iff, Option.pure_def] at hrun
      obtain ⟨⟨sys', reply, compared⟩, hfind, rest, hrest, hcalls⟩ := hrun
      cases hcalls
      have hc : Call.Returns sb ⟨sys, .findName name, compared, sys'⟩ := ⟨_, reply, hfind⟩
      have := ih (.snoc h hc) hrest
      rwa [List.append_assoc] at this

/-- An image with a file, inode 1, and a directory, inode 2, with the entries `.` and `a`. -/
def smallDisk : ℕ → UInt8 :=
  image smallSuperblock
    [(2, 8, 4, 5), (5, 0, 2, 0x81a4), (5, 128, 2, 0x41ed), (5, 132, 4, 1024), (5, 168, 4, 6),
      (6, 0, 4, 2), (6, 4, 2, 12), (6, 6, 1, 1), (6, 7, 1, 2), (6, 8, 1, 0x2e),
      (6, 12, 4, 1), (6, 16, 2, 1012), (6, 18, 1, 1), (6, 19, 1, 1), (6, 20, 1, 0x61)]

/-- A new connection to the server of the image. -/
def smallSystem : System := .connect smallDisk

theorem smallSystem_holds : Holds ringSize smallSystem.conn.ring [] := System.connect_holds smallDisk

/-- A call, and whether it is made in a directory, once there is a node. -/
def Call.place (c : Call) : Lookup × Option Bool :=
  (c.op, c.before.conn.progData.map fun cli => ext2IsDirectory cli.e2node)

theorem Call.inDirectory_of_place {c : Call}
    (h : ∀ name, c.op = .findName name → name.length < fsMaxNameLen ∧ c.place.2 = some true) :
    c.InDirectory := by
  intro name hname _
  obtain ⟨hlen, hplace⟩ := h name hname
  obtain ⟨cli, hcli, hdir⟩ := Option.map_eq_some_iff.mp hplace
  exact ⟨hlen, cli, hcli, hdir⟩

/-- Lookups of `a` and of an absent name in the directory. -/
theorem calls_framed_iff_directory : ∃ calls sys, Calls smallSuperblock smallSystem calls sys ∧
    calls.map Call.place =
      [(.setNode 2, none), (.findName [0x61], some true), (.findName [0x62], some true)] ∧
    ∀ c ∈ calls, c.Framed := by
  have hrun : (runCalls smallSuperblock smallSystem
      [.setNode 2, .findName [0x61], .findName [0x62]]).map (List.map Call.place) =
      some [(.setNode 2, none), (.findName [0x61], some true), (.findName [0x62], some true)] := by
    decide +kernel
  obtain ⟨calls, hcalls, hmap⟩ := Option.map_eq_some_iff.mp hrun
  have hnil : Calls smallSuperblock smallSystem [] smallSystem := .nil
  obtain ⟨sys, hsys⟩ := hnil.append hcalls
  refine ⟨calls, sys, hsys, hmap, (calls_framed_iff smallSystem_holds hsys).mpr ?_⟩
  intro c hc
  apply Call.inDirectory_of_place
  intro name hname
  have hmem : c.place ∈ calls.map Call.place := List.mem_map_of_mem hc
  have hop : c.place.1 = .findName name := hname
  rw [hmap] at hmem
  simp only [List.mem_cons, List.not_mem_nil, or_false] at hmem
  rcases hmem with h | h | h
  · rw [h] at hop
    cases hop
  · rw [h] at hop ⊢
    cases hop
    decide
  · rw [h] at hop ⊢
    cases hop
    decide

/-- After a lookup of `a` in a file, a lookup of `b` in the directory looks for `a`. -/
theorem lookup_looks_for_other_name : ¬∀ (sb : Superblock) (sys₀ sys : System) (calls : List Call),
    Holds ringSize sys₀.conn.ring [] → Calls sb sys₀ calls sys → ∀ c ∈ calls, c.Framed := by
  have hrun : (runCalls smallSuperblock smallSystem
      [.setNode 1, .findName [0x61], .setNode 2, .findName [0x62]]).map
        (List.map fun c => (c.op, c.compared)) =
      some [(.setNode 1, none), (.findName [0x61], none), (.setNode 2, none),
        (.findName [0x62], some [0x61])] := by
    decide +kernel
  obtain ⟨calls, hcalls, hmap⟩ := Option.map_eq_some_iff.mp hrun
  have hnil : Calls smallSuperblock smallSystem [] smallSystem := .nil
  obtain ⟨sys, hsys⟩ := hnil.append hcalls
  intro h
  have hframed := h _ _ _ _ smallSystem_holds hsys
  have hmem : (Lookup.findName [0x62], some [0x61]) ∈ calls.map fun c => (c.op, c.compared) := by
    rw [hmap]
    decide
  obtain ⟨c, hc, heq⟩ := List.mem_map.mp hmem
  cases (hframed c hc).2 [0x62] (congrArg Prod.fst heq) [0x61] (congrArg Prod.snd heq)

end C4OS.Ext2
