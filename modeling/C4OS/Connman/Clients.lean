import C4OS.Andtree.Runs
import C4OS.Foundations.Bytes
import Mathlib.Data.Finset.Max
import Mathlib.Data.List.Perm.Basic

/-!
# The clients of a server

The connection manager keeps the connections of a server in a tree, ordered by the numbers of the
clients. The numbers are random 32-bit words, and the tree compares them by a subtraction of `int`s,
so that the order is one on a circle.

`clients_found` says for every sequence of connects that each client is found under its number, and
nothing under any other number, when the numbers lie in a half of the circle. There the comparisons
are those of the numbers counted from the beginning of the half (`intSub_toInt`). A number that is
not connected is not found in any case (`findKeyLoop_eq_null`).
-/

namespace C4OS.Connman

open Foundations Andtree

/-- The conversion of a 32-bit word to an `int`. -/
def toInt (x : ℕ) : ℤ := (x : ℤ).bmod (2 ^ 32)

/-- `c4rt_conn_server_t` with the memory of its tree, and the field `client_id` of the connections.
-/
structure Server where
  mem : Mem
  tree : AndTree
  clientId : Ptr → ℕ

/-- `connman_get_client_id`. -/
def Server.getClientId (s : Server) (ptr : Ptr) : ℤ := toInt (s.clientId ptr)

/-- `c4rt_connman_server_init`. -/
def serverInit (m : Mem) (clientId : Ptr → ℕ) : Server := ⟨m, andtreeInit, clientId⟩

/-- `handle_connect`, with the memory of the new connection and its number. The flags say whether
the first message is a request to connect and whether the next ones grant the objects; the result is
the connection or `NULL`. -/
def handleConnect (calloc : Allocator AndNode) (s : Server) (request granted : Bool)
    (newClient : Ptr) (id : ℕ) : Option (Server × Ptr) :=
  if !request then some (s, null)
  else do
    let s := { s with clientId := Function.update s.clientId newClient id }
    let (m, t, _) ← andtreeInsert calloc s.getClientId s.mem s.tree newClient
    let s := { s with mem := m, tree := t }
    if granted then return (s, newClient)
    else
      let (m, t, _) ← andtreeRemoveKey s.getClientId s.mem s.tree (toInt id)
      return ({ s with mem := m, tree := t }, null)

/-- The lookup of `handle_new_message`: the connection of a client, or `NULL`. -/
def findClient (s : Server) (client : ℕ) : Option Ptr := do
  let node ← andtreeFindKey s.getClientId s.mem s.tree (toInt client)
  if node = null then return null
  else
    let n ← s.mem.get node
    return n.data

/-- The states of a server after successful connects, with the connections and their numbers. The
memory of a new connection is not that of an older one. -/
inductive Connects : Server → List (Ptr × ℕ) → Prop
  | init (m : Mem) (clientId : Ptr → ℕ) (hm : SentinelOk m) : Connects (serverInit m clientId) []
  | connect {s s' : Server} {conns : List (Ptr × ℕ)} {ptr : Ptr} {id : ℕ}
      (calloc : Allocator AndNode) (h : Connects s conns) (hnull : ptr ≠ null)
      (hnew : ptr ∉ conns.map Prod.fst) (hid : id < 2 ^ 32)
      (hrun : handleConnect calloc s true true ptr id = some (s', ptr)) :
      Connects s' ((ptr, id) :: conns)

/-! ## Comparing on a circle -/

section Congr

variable {getKey getKey' : Ptr → ℤ}

theorem binInsertLoop_congr
    (h : ∀ a b, intSub (getKey a) (getKey b) = intSub (getKey' a) (getKey' b)) (node : Ptr)
    (fuel : ℕ) (m : Mem) (temp : Ptr) :
    binInsertLoop getKey node fuel m temp = binInsertLoop getKey' node fuel m temp := by
  induction fuel generalizing m temp with
  | zero => rfl
  | succ fuel ih =>
    have hcmp (d : Ptr) : andtreeCompare getKey (getKey d) m temp =
        andtreeCompare getKey' (getKey' d) m temp := by simp only [andtreeCompare, h]
    simp only [binInsertLoop, hcmp, ih]

/-- An insertion depends on the differences of the keys alone. -/
theorem andtreeInsert_congr
    (h : ∀ a b, intSub (getKey a) (getKey b) = intSub (getKey' a) (getKey' b))
    (calloc : Allocator AndNode) (m : Mem) (t : AndTree) (data : Ptr) :
    andtreeInsert calloc getKey m t data = andtreeInsert calloc getKey' m t data := by
  simp only [andtreeInsert, andtreeBinInsert, binInsertLoop_congr h]

/-- So does a search. -/
theorem findKeyLoop_congr {key key' : ℤ}
    (h : ∀ d, intSub key (getKey d) = intSub key' (getKey' d)) (m : Mem) (fuel : ℕ) (p : Ptr) :
    findKeyLoop getKey m key fuel p = findKeyLoop getKey' m key' fuel p := by
  induction fuel generalizing p with
  | zero => rfl
  | succ fuel ih =>
    simp only [findKeyLoop, andtreeCompare, h, ih]

/-- A search ends at the null pointer when no key is equal, whatever the order. -/
theorem findKeyLoop_eq_null {m : Mem} {par : Ptr} {key : ℤ} {s : AATree Item} {fuel : ℕ}
    (h : Repr m par s) (hs : SentinelOk m) (hne : ∀ b ∈ s.toList, intSub key (getKey b.data) ≠ 0)
    (hfuel : s.toList.length < fuel) : findKeyLoop getKey m key fuel (root s) = some null := by
  induction fuel generalizing par s with
  | zero => omega
  | succ fuel ih =>
    cases s with
    | nil => simp [findKeyLoop, isNil_sentinel hs]
    | node b k l r =>
      have hz := hne b (by simp)
      rw [← ih (h.childOn (direction (intSub key (getKey b.data))))
        (fun c hc => hne c (mem_of_childOn hc)) (length_childOn_lt _ hfuel), root_node, findKeyLoop]
      simp [h.isNil_node, andtreeCompare, h.2.2.1, hz, leaf_eq_childOn]

end Congr

/-- The number counted from the beginning of a half of the circle. -/
def fromHere (k x : ℕ) : ℤ := ((x + k) % 2 ^ 32 : ℕ)

theorem bmod_sub_shift (n k x y : ℕ) : ((x : ℤ).bmod n - (y : ℤ).bmod n).bmod n =
    ((((x + k) % n : ℕ) : ℤ) - ((y + k) % n : ℕ)).bmod n := by
  rw [Int.bmod_sub_bmod, Int.sub_bmod_bmod, Int.natCast_emod, Int.natCast_emod, Int.emod_sub_bmod,
    Int.sub_emod_bmod]
  congr 1
  omega

/-- The differences of two numbers do not depend on where they are counted from. -/
theorem intSub_toInt (k x y : ℕ) :
    intSub (toInt x) (toInt y) = intSub (fromHere k x) (fromHere k y) :=
  bmod_sub_shift (2 ^ 32) k x y

theorem bmod_sub_ne_zero {n x y : ℕ} (hx : x < n) (hy : y < n) (hne : x ≠ y) :
    ((x : ℤ).bmod n - (y : ℤ).bmod n).bmod n ≠ 0 := by
  rw [Int.bmod_sub_bmod, Int.sub_bmod_bmod]
  intro h
  obtain ⟨q, hq⟩ := Int.dvd_of_bmod_eq_zero h
  have hq0 : q = 0 := by
    by_contra hne0
    rcases Int.lt_or_gt_of_ne hne0 with hneg | hpos
    · have : (n : ℤ) * q ≤ n * (-1) := Int.mul_le_mul_of_nonneg_left (by omega) (by omega)
      omega
    · have : (n : ℤ) * 1 ≤ n * q := Int.mul_le_mul_of_nonneg_left (by omega) (by omega)
      omega
  rw [hq0, Int.mul_zero] at hq
  omega

/-- Different words are compared as different. -/
theorem intSub_toInt_ne {x y : ℕ} (hx : x < 2 ^ 32) (hy : y < 2 ^ 32) (hne : x ≠ y) :
    intSub (toInt x) (toInt y) ≠ 0 := bmod_sub_ne_zero hx hy hne

/-- Numbers whose `int`s have differences in the range of an `int` lie in a half of the circle. -/
theorem exists_half {ids : List ℕ}
    (h : ∀ x ∈ ids, ∀ y ∈ ids, toInt x - toInt y < 2 ^ 31) :
    ∃ k, ∀ id ∈ ids, (id + k) % 2 ^ 32 < 2 ^ 31 := by
  rcases ids with _ | ⟨x, ids⟩
  · exact ⟨0, by simp⟩
  -- count from the least one
  obtain ⟨y, hy, hmin⟩ := (x :: ids).toFinset.exists_min_image toInt ⟨x, by simp⟩
  rw [List.mem_toFinset] at hy
  refine ⟨((-toInt y) % 2 ^ 32).toNat, fun id hid => ?_⟩
  have hle := hmin id (List.mem_toFinset.2 hid)
  have hlt := h id hid y hy
  unfold toInt at hle hlt ⊢
  rw [Int.bmod_def, Int.bmod_def] at hle hlt
  rw [Int.bmod_def]
  split at hle <;> split at hle <;> split <;> omega

theorem fromHere_inj {k x y : ℕ} (hx : x < 2 ^ 32) (hy : y < 2 ^ 32)
    (h : fromHere k x = fromHere k y) : x = y := by
  simp only [fromHere] at h
  omega

/-- The numbers lie in a half of the circle. -/
def InHalf (k : ℕ) (ids : List ℕ) : Prop := ∀ id ∈ ids, (id + k) % 2 ^ 32 < 2 ^ 31

instance (k : ℕ) (ids : List ℕ) : Decidable (InHalf k ids) :=
  inferInstanceAs (Decidable (∀ id ∈ ids, _))

/-! ## The connections of a server -/

/-- The tree of the server has the connections in it, sorted by the numbers as they are counted from
the beginning of the half. -/
structure Server.Inv (s : Server) (k : ℕ) (conns : List (Ptr × ℕ)) (tree : AATree Item) : Prop where
  holds : Holds s.mem s.tree tree
  items : (tree.toList.map Item.data).Perm (conns.map Prod.fst)
  ids : ∀ c ∈ conns, s.clientId c.1 = c.2
  sorted : SortedBy (fun p => fromHere k (s.clientId p)) tree.toList

variable {s s' : Server} {k : ℕ} {conns : List (Ptr × ℕ)} {tree : AATree Item} {ptr : Ptr} {id : ℕ}

/-- Each item of the tree is a connection. -/
theorem Server.Inv.exists_conn (h : s.Inv k conns tree) {b : Item} (hb : b ∈ tree.toList) :
    ∃ c ∈ conns, c.1 = b.data ∧ s.clientId b.data = c.2 := by
  have hmem := h.items.subset (List.mem_map_of_mem hb)
  obtain ⟨c, hc, heq⟩ := List.mem_map.mp hmem
  exact ⟨c, hc, heq, heq ▸ h.ids c hc⟩

theorem Server.Inv.exists_item (h : s.Inv k conns tree) {c : Ptr × ℕ} (hc : c ∈ conns) :
    ∃ b ∈ tree.toList, b.data = c.1 :=
  List.mem_map.mp (h.items.symm.subset (List.mem_map_of_mem hc))

/-- The numbers of a half are compared without overflow. -/
theorem Server.Inv.fits (h : s.Inv k conns tree) (hhalf : InHalf k (conns.map Prod.snd)) {x : ℕ}
    (hx : (x + k) % 2 ^ 32 < 2 ^ 31) :
    FitsInt (fun p => fromHere k (s.clientId p)) (fromHere k x) tree.toList := by
  intro b hb
  obtain ⟨c, hc, -, hid⟩ := h.exists_conn hb
  have hlt := hhalf c.2 (List.mem_map_of_mem hc)
  simp only [fromHere, hid]
  omega

/-- A connect keeps the order. -/
theorem Server.Inv.connect (h : s.Inv k conns tree) (calloc : Allocator AndNode)
    (hnew : ptr ∉ conns.map Prod.fst) (hhalf : InHalf k (((ptr, id) :: conns).map Prod.snd)) :
    ∃ s' tree', handleConnect calloc s true true ptr id = some (s', ptr) ∧
      s'.Inv k ((ptr, id) :: conns) tree' := by
  -- the new connection is not in the tree, so that the numbers of the tree stay
  have hid {b : Item} (hb : b ∈ tree.toList) :
      Function.update s.clientId ptr id b.data = s.clientId b.data := by
    apply Function.update_of_ne
    rintro rfl
    exact hnew (h.items.subset (List.mem_map_of_mem hb))
  have hself : Function.update s.clientId ptr id ptr = id := Function.update_self ..
  obtain ⟨hx, hhalf⟩ := List.forall_mem_cons.mp hhalf
  have hsort : SortedBy (fun p => fromHere k (Function.update s.clientId ptr id p)) tree.toList := by
    refine h.sorted.imp_of_mem fun ha hb hab => ?_
    simpa only [hid ha, hid hb] using hab
  have hfit : FitsInt (fun p => fromHere k (Function.update s.clientId ptr id p))
      (fromHere k (Function.update s.clientId ptr id ptr)) tree.toList := by
    intro b hb
    simp only [hid hb, hself]
    exact h.fits hhalf hx b hb
  obtain ⟨m', t', a, tree', xs, ys, hins, hholds, -, -, hxs, hys, hle, hlt⟩ :=
    h.holds.insert calloc ptr hsort hfit
  have hcongr : andtreeInsert calloc (fun p => toInt (Function.update s.clientId ptr id p)) s.mem
      s.tree ptr = andtreeInsert calloc (fun p => fromHere k (Function.update s.clientId ptr id p))
        s.mem s.tree ptr := andtreeInsert_congr (fun a b => intSub_toInt k _ _) ..
  refine ⟨⟨m', t', Function.update s.clientId ptr id⟩, tree', run_bind (hcongr.trans hins) rfl,
    hholds, ?_, ?_, ?_⟩
  · rw [hys, List.map_append, List.map_cons, List.map_cons]
    refine List.perm_middle.trans (List.Perm.cons ptr ?_)
    rw [← List.map_append, ← hxs]
    exact h.items
  · intro c hc
    rcases List.mem_cons.mp hc with rfl | hc
    · exact hself
    · have hne : c.1 ≠ ptr := fun heq => hnew (heq ▸ List.mem_map_of_mem hc)
      exact (Function.update_of_ne hne ..).trans (h.ids c hc)
  · rw [hxs] at hsort
    rw [hys]
    exact hsort.insert hle hlt

/-- The connects of numbers in a half of the circle keep the order. -/
theorem Connects.inv (h : Connects s conns) (hhalf : InHalf k (conns.map Prod.snd)) :
    ∃ tree, s.Inv k conns tree := by
  induction h with
  | init m clientId hm =>
    exact ⟨.nil, andtreeInit_holds hm, .nil, by simp, List.Pairwise.nil⟩
  | connect calloc _ _ hnew _ hrun ih =>
    obtain ⟨tree, htree⟩ := ih fun id hid => hhalf id (List.mem_cons_of_mem _ hid)
    obtain ⟨s₁, tree', hrun', htree'⟩ := htree.connect calloc hnew hhalf
    cases hrun.symm.trans hrun'
    exact ⟨tree', htree'⟩

theorem Connects.id_lt (h : Connects s conns) : ∀ c ∈ conns, c.2 < 2 ^ 32 := by
  induction h with
  | init => simp
  | connect _ _ _ _ hid _ ih => exact List.forall_mem_cons.mpr ⟨hid, ih⟩

theorem Connects.ne_null (h : Connects s conns) : ∀ c ∈ conns, c.1 ≠ null := by
  induction h with
  | init => simp
  | connect _ _ hnull _ _ _ ih => exact List.forall_mem_cons.mpr ⟨hnull, ih⟩

/-- The lookup of the number of a connection. -/
theorem findClient_of_mem (h : Connects s conns) (hdistinct : (conns.map Prod.snd).Nodup)
    (hhalf : InHalf k (conns.map Prod.snd)) {c : Ptr × ℕ} (hc : c ∈ conns) :
    findClient s c.2 = some c.1 := by
  obtain ⟨tree, htree⟩ := h.inv hhalf
  have hlt := h.id_lt
  have hroot := htree.holds.root_eq
  obtain ⟨p, hp, hfound⟩ := findKeyLoop_eq htree.holds.focus.sub htree.holds.focus.sent
    htree.sorted (htree.fits hhalf (hhalf c.2 (List.mem_map_of_mem hc))) htree.holds.fuel_lt
  have hcongr : findKeyLoop s.getClientId s.mem (toInt c.2) s.tree.fuel s.tree.root =
      findKeyLoop (fun p => fromHere k (s.clientId p)) s.mem (fromHere k c.2) s.tree.fuel
        s.tree.root := findKeyLoop_congr (fun d => intSub_toInt k _ _) ..
  rw [← hroot, ← hcongr] at hp
  rcases hfound with ⟨hnull, b, hb, rfl, hkey⟩ | ⟨rfl, hnone⟩
  · -- the connection with the number is the one that was looked for
    obtain ⟨c', hc', hdata, hid⟩ := htree.exists_conn hb
    rw [hid] at hkey
    have heq : c' = c := List.inj_on_of_nodup_map hdistinct hc' hc
      (fromHere_inj (hlt c' hc') (hlt c hc) hkey)
    obtain ⟨n, hn, hnd⟩ := htree.holds.focus.sub.get_mem hb
    refine run_bind hp ?_
    rw [if_neg hnull]
    refine run_bind hn ?_
    rw [hnd, ← hdata, heq]
    rfl
  · obtain ⟨b, hb, hdata⟩ := htree.exists_item hc
    have hkey : fromHere k (s.clientId b.data) = fromHere k c.2 := by rw [hdata, htree.ids c hc]
    exact absurd hkey (hnone b hb)

/-- **Connected clients are found.** After any connects with pairwise different numbers that lie in
a half of the circle of words, the lookup of a number returns the connection with that number, and
`NULL` when there is none. -/
theorem clients_found (h : Connects s conns) (hdistinct : (conns.map Prod.snd).Nodup)
    (hhalf : InHalf k (conns.map Prod.snd)) :
    (∀ c ∈ conns, findClient s c.2 = some c.1) ∧
      ∀ id < 2 ^ 32, id ∉ conns.map Prod.snd → findClient s id = some null := by
  refine ⟨fun c hc => findClient_of_mem h hdistinct hhalf hc, fun id hid hnone => ?_⟩
  obtain ⟨tree, htree⟩ := h.inv hhalf
  have hne : ∀ b ∈ tree.toList, intSub (toInt id) (s.getClientId b.data) ≠ 0 := by
    intro b hb
    obtain ⟨c, hc, -, hb⟩ := htree.exists_conn hb
    rw [Server.getClientId, hb]
    apply intSub_toInt_ne hid (h.id_lt c hc)
    rintro rfl
    exact hnone (List.mem_map_of_mem hc)
  have hnull := findKeyLoop_eq_null htree.holds.focus.sub htree.holds.focus.sent hne
    htree.holds.fuel_lt
  rw [← htree.holds.root_eq] at hnull
  exact run_bind hnull rfl

/-- A server with no connections. -/
def emptyServer : Server :=
  serverInit (Store.empty.set sentinel ⟨null, sentinel, sentinel, 0, null⟩) fun _ => 0

/-- Two clients with numbers on both sides of the change of sign. -/
theorem clients_found_two : ∃ s, Connects s [(20, 0x80000010), (10, 0x7ffffff0)] ∧
    findClient s 0x7ffffff0 = some 10 ∧ findClient s 0x80000010 = some 20 ∧
    findClient s 5 = some null := by
  have h₀ : Connects emptyServer [] := .init _ _ ⟨_, _, rfl⟩
  have h₁ : Connects _ [(10, 0x7ffffff0)] :=
    .connect .bump h₀ (by decide) (by decide) (by decide) rfl
  have h₂ : Connects _ [(20, 0x80000010), (10, 0x7ffffff0)] :=
    .connect .bump h₁ (by decide) (by decide) (by decide) rfl
  obtain ⟨hfound, hnull⟩ := clients_found (k := 0x80000100) h₂ (by decide) (by decide)
  exact ⟨_, h₂, hfound (10, 0x7ffffff0) (by decide), hfound (20, 0x80000010) (by decide),
    hnull 5 (by decide) (by decide)⟩

/-- A client is lost when one with the opposite number connects. -/
theorem opposite_client_lost : ¬∀ (s : Server) (conns : List (Ptr × ℕ)), Connects s conns →
    (conns.map Prod.snd).Nodup → ∀ c ∈ conns, findClient s c.2 = some c.1 := by
  intro h
  have h₀ : Connects emptyServer [] := .init _ _ ⟨_, _, rfl⟩
  have h₁ : Connects _ [(10, 0)] := .connect .bump h₀ (by decide) (by decide) (by decide) rfl
  have h₂ : Connects _ [(20, 0x80000000), (10, 0)] :=
    .connect .bump h₁ (by decide) (by decide) (by decide) rfl
  have hfound := h _ _ h₂ (by decide) (10, 0) (by decide)
  exact absurd hfound (by decide +kernel)

end C4OS.Connman
