import C4OS.Ata.Transfers

/-!
# The driver is a store of blocks

A store of blocks has the words of each device, and a request reads or writes sectors of one of them
(`Blocks.access`). Over honest disks the driver is such a store: the requests that are carried out
one after the other read and write the sectors that they name, and no others (`serve_eq_blocks`).
-/

namespace C4OS.Ata

open Foundations

/-! ## Requests -/

/-- The requests are carried out one after the other, each one with a buffer. -/
def serve (drive : Drive) (fuel : ℕ) (ctrl : IdeControl) :
    List (Request × (ℕ → UInt16)) → Io (List (Reply × (ℕ → UInt16)))
  | [] => pure []
  | (request, buffer) :: requests => do
    modify fun s => { s with buffer := buffer }
    let reply ← ataHandleAccess drive fuel ctrl request
    let s ← get
    let replies ← serve drive fuel ctrl requests
    return (reply, s.buffer) :: replies

/-- The words of all devices. -/
abbrev Blocks := ℕ → ℕ → UInt16

namespace Blocks

/-- Read from a device. -/
def read (blocks : Blocks) (device location sectors : ℕ) (buffer : ℕ → UInt16) : ℕ → UInt16 :=
  fun i => if i < 256 * sectors then blocks device (256 * location + i) else buffer i

/-- Write to a device. -/
def write (blocks : Blocks) (device location sectors : ℕ) (buffer : ℕ → UInt16) : Blocks :=
  Function.update blocks device fun w =>
    if 256 * location ≤ w ∧ w < 256 * (location + sectors) then buffer (w - 256 * location)
    else blocks device w

/-- What a store of blocks does with a request. -/
def access (present : ℕ → Bool) (blocks : Blocks) (request : Request) (buffer : ℕ → UInt16) :
    (Reply × (ℕ → UInt16)) × Blocks :=
  if present request.device then
    match request.type with
    | .read => ((.completed, blocks.read request.device request.location request.sectors buffer),
        blocks)
    | .write => ((.completed, buffer),
        blocks.write request.device request.location request.sectors buffer)
  else ((.error, buffer), blocks)

/-- What a store of blocks does with requests, one after the other. -/
def serve (present : ℕ → Bool) : Blocks → List (Request × (ℕ → UInt16)) →
    List (Reply × (ℕ → UInt16)) × Blocks
  | blocks, [] => ([], blocks)
  | blocks, (request, buffer) :: requests =>
    let first := blocks.access present request buffer
    let rest := serve present first.2 requests
    (first.1 :: rest.1, rest.2)

end Blocks

/-! ## A store of blocks -/

/-- The words of the devices that exist. -/
def blocksOf (ctrl : IdeControl) (words : ℕ → ℕ → ℕ → UInt16) : Blocks := fun n =>
  if (ctrl.devices n).exists' then words (ctrl.devices n).channel (ctrl.devices n).drive
  else fun _ => 0

/-- The devices that exist are different drives, on two channels with ports of their own. -/
structure IdeControl.Distinct (ctrl : IdeControl) : Prop where
  base_ne : ∀ c < 2, ∀ c' < 2, c' ≠ c → ctrl.base c' ≠ ctrl.base c
  channel_lt : ∀ n, (ctrl.devices n).exists' → (ctrl.devices n).channel < 2
  drive_lt : ∀ n, (ctrl.devices n).exists' → (ctrl.devices n).drive < 2
  injective : ∀ n n', (ctrl.devices n).exists' → (ctrl.devices n').exists' →
    (ctrl.devices n).channel = (ctrl.devices n').channel →
    (ctrl.devices n).drive = (ctrl.devices n').drive → n = n'

/-- The sectors of a request can be asked for. -/
def Request.InRange (request : Request) : Prop :=
  request.location < 2 ^ 28 ∧ 1 ≤ request.sectors ∧ request.sectors ≤ 256

section

variable {drive : Drive} {fuel : ℕ} {ctrl : IdeControl} {disks₀ : ℕ → Disks} {request : Request}
  {words : ℕ → ℕ → ℕ → UInt16} {buffer : ℕ → UInt16} {s s' : Bus}

/-- What is in the sectors of the devices. -/
def Bus.blocks (drive : Drive) (ctrl : IdeControl) (disks₀ : ℕ → Disks) (s : Bus) : Blocks :=
  blocksOf ctrl fun c => (s.disks drive ctrl disks₀ c).words

theorem Phase.blocks {c : ℕ} {x : Option Transfer} {ready : Prop} (hctrl : ctrl.Distinct)
    (h : Phase drive ctrl disks₀ words c x ready buffer s) :
    s.blocks drive ctrl disks₀ = blocksOf ctrl words := by
  funext n
  rw [Bus.blocks, blocksOf, blocksOf]
  split
  · next hexists => rw [h.words _ (hctrl.channel_lt n hexists)]
  · rfl

theorem blocksOf_setDrive (hctrl : ctrl.Distinct) {n location sectors : ℕ}
    (hexists : (ctrl.devices n).exists') :
    blocksOf ctrl (setDrive words (ctrl.devices n).channel (ctrl.devices n).drive
      (writeFrom (words (ctrl.devices n).channel (ctrl.devices n).drive) (256 * location)
        (256 * sectors) buffer)) =
      (blocksOf ctrl words).write n location sectors buffer := by
  funext m
  by_cases hm : m = n
  · subst hm
    rw [Blocks.write, Function.update_self, blocksOf, blocksOf, if_pos hexists, if_pos hexists,
      setDrive, Function.update_self, Function.update_self]
    funext i
    rw [writeFrom, Nat.mul_add]
  · rw [Blocks.write, Function.update_of_ne hm, blocksOf, blocksOf]
    split
    · next hexists' =>
      rw [setDrive]
      by_cases hchannel : (ctrl.devices m).channel = (ctrl.devices n).channel
      · have hdrive : (ctrl.devices m).drive ≠ (ctrl.devices n).drive := fun hdrive =>
          hm (hctrl.injective m n hexists' hexists hchannel hdrive)
        rw [hchannel, Function.update_self, Function.update_of_ne hdrive]
      · rw [Function.update_of_ne hchannel]
    · rfl

variable (disks₀) in
/-- One request. -/
theorem handleAccess_eq_access (hctrl : ctrl.Distinct) (hrange : request.InRange) {reply : Reply}
    (hrun : ataHandleAccess drive fuel ctrl request s = (some reply, s')) :
    s.accesses <:+ s'.accesses ∧ (Honest drive ctrl.base disks₀ s'.accesses →
      (s.blocks drive ctrl disks₀).access (fun n => (ctrl.devices n).exists') request s.buffer =
        ((reply, s'.buffer), s'.blocks drive ctrl disks₀)) := by
  have hphase : Phase drive ctrl disks₀ (fun c => (s.disks drive ctrl disks₀ c).words)
      (ctrl.devices request.device).channel
      (s.disks drive ctrl disks₀ (ctrl.devices request.device).channel).transfer False s.buffer s :=
    ⟨fun _ _ => rfl, rfl, False.elim, rfl⟩
  obtain ⟨hlocation, hcount, hcount'⟩ := hrange
  rw [ataHandleAccess] at hrun
  rw [Blocks.access]
  cases hexists : (ctrl.devices request.device).exists' with
  | false =>
    simp only [hexists] at hrun
    cases hrun
    refine ⟨List.suffix_refl _, fun _ => ?_⟩
    rw [if_neg Bool.false_ne_true]
  | true =>
    have hchannel := hctrl.channel_lt _ hexists
    have hdrive := hctrl.drive_lt _ hexists
    have hwords := hphase.blocks hctrl
    simp only [hexists, not_true_eq_false, if_false] at hrun
    rw [if_pos rfl]
    cases htype : request.type with
    | read =>
      rw [htype] at hrun
      obtain ⟨hle, hpost⟩ := (meets_pioRead hdrive hlocation hcount hcount' hchannel).returning
        s reply s' hrun
      refine ⟨hle, fun hhonest => ?_⟩
      obtain ⟨rfl, hend⟩ := hpost hhonest hphase
      rw [hend.blocks hctrl, hend.buffer, ← hwords]
      have hread : (s.blocks drive ctrl disks₀) request.device =
          (s.disks drive ctrl disks₀ (ctrl.devices request.device).channel).words
            (ctrl.devices request.device).drive := if_pos hexists
      refine congrArg (fun b => ((Reply.completed, b), _)) (funext fun i => ?_)
      rw [Blocks.read, readInto, hread]
    | write =>
      rw [htype] at hrun
      have hports : ∀ c < 2, c ≠ (ctrl.devices request.device).channel →
          ctrl.base c ≠ ctrl.base (ctrl.devices request.device).channel :=
        fun c hc hne => hctrl.base_ne _ hchannel c hc hne
      obtain ⟨hle, hpost⟩ :=
        (meets_pioWrite hdrive hlocation hcount hcount' hchannel hports).returning s reply s' hrun
      refine ⟨hle, fun hhonest => ?_⟩
      obtain ⟨rfl, hend⟩ := hpost hhonest hphase
      rw [hend.blocks hctrl, hend.buffer, blocksOf_setDrive hctrl hexists, ← hwords]

theorem serve_grows (hctrl : ctrl.Distinct) (requests : List (Request × (ℕ → UInt16)))
    (hrange : ∀ r ∈ requests, r.1.InRange) {replies : List (Reply × (ℕ → UInt16))}
    (hrun : serve drive fuel ctrl requests s = (some replies, s')) :
    s.accesses <:+ s'.accesses ∧ (Honest drive ctrl.base disks₀ s'.accesses →
      (s.blocks drive ctrl disks₀).serve (fun n => (ctrl.devices n).exists') requests =
        (replies, s'.blocks drive ctrl disks₀)) := by
  induction requests generalizing s replies with
  | nil =>
    cases hrun
    exact ⟨List.suffix_refl _, fun _ => rfl⟩
  | cons r requests ih =>
    obtain ⟨request, buffer⟩ := r
    obtain ⟨hfirst, hrest⟩ := List.forall_mem_cons.1 hrange
    rw [serve] at hrun
    obtain ⟨_, t, ht, hrun⟩ := Code.exists_of_bind hrun
    cases ht
    obtain ⟨reply, t, haccess, hrun⟩ := Code.exists_of_bind hrun
    obtain ⟨_, _, hget, hrun⟩ := Code.exists_of_bind hrun
    cases hget
    obtain ⟨replies', t', hserve, hrun⟩ := Code.exists_of_bind hrun
    cases hrun
    obtain ⟨hle, hone⟩ := handleAccess_eq_access disks₀ hctrl hfirst haccess
    obtain ⟨hle', hall⟩ := ih hrest hserve
    refine ⟨hle.trans hle', fun hhonest => ?_⟩
    have hstep : (s.blocks drive ctrl disks₀).access (fun n => (ctrl.devices n).exists') request
        buffer = ((reply, t.buffer), t.blocks drive ctrl disks₀) :=
      hone ((honestly drive ctrl disks₀).anti hle' hhonest)
    simp only [Blocks.serve, hstep, hall hhonest]

/-- **The driver is a store of blocks.** For every run of the requests over honest disks: the
replies, the buffers and what is in the sectors at the end are those of the store. -/
theorem serve_eq_blocks (hctrl : ctrl.Distinct) (requests : List (Request × (ℕ → UInt16)))
    (hrange : ∀ r ∈ requests, r.1.InRange) {replies : List (Reply × (ℕ → UInt16))}
    (hrun : serve drive fuel ctrl requests s = (some replies, s'))
    (hhonest : Honest drive ctrl.base disks₀ s'.accesses) :
    (s.blocks drive ctrl disks₀).serve (fun n => (ctrl.devices n).exists') requests =
      (replies, s'.blocks drive ctrl disks₀) :=
  (serve_grows hctrl requests hrange hrun).2 hhonest

end

/-! ## A write and a read -/

section

variable (drive : Drive) (base : ℕ → ℕ) (disks₀ : ℕ → Disks)

/-- An access reads what the disks have for it, and no error. -/
def Access.Honest (d : ℕ → Disks) (t : ℕ) : Access → Prop
  | .inByte port => statusHasError (drive t port).toUInt8 = false
  | .inWord port => ∀ c < 2, port = base c → ∀ x ∈ (d c).pending .read,
      drive t port = (d c).words x.drive x.word
  | .outByte _ _ => True
  | .outWord _ _ => True

instance (d : ℕ → Disks) (t : ℕ) : ∀ a : Access, Decidable (a.Honest drive base d t)
  | .inByte _ => inferInstanceAs (Decidable (_ = false))
  | .inWord port => inferInstanceAs (Decidable (∀ c < 2, port = base c → ∀ x ∈ _, _ = _))
  | .outByte _ _ => inferInstanceAs (Decidable True)
  | .outWord _ _ => inferInstanceAs (Decidable True)

/-- Each access is honest, one after the other. -/
def HonestSteps : List Access → Prop
  | [] => True
  | a :: earlier => HonestSteps earlier ∧
      a.Honest drive base (disksAfter drive base disks₀ earlier) earlier.length

instance decidableHonestSteps : ∀ accesses : List Access,
    Decidable (HonestSteps drive base disks₀ accesses)
  | [] => inferInstanceAs (Decidable True)
  | _ :: earlier =>
    have := decidableHonestSteps earlier
    inferInstanceAs (Decidable (_ ∧ _))

variable {drive base disks₀}

theorem HonestSteps.of_suffix {a : Access} {earlier accesses : List Access}
    (h : HonestSteps drive base disks₀ accesses) (hs : (a :: earlier) <:+ accesses) :
    a.Honest drive base (disksAfter drive base disks₀ earlier) earlier.length := by
  induction accesses with
  | nil => exact absurd (List.suffix_nil.1 hs) (List.cons_ne_nil _ _)
  | cons b accesses ih =>
    rcases List.suffix_cons_iff.1 hs with heq | hs
    · cases heq
      exact h.2
    · exact ih h.1 hs

theorem HonestSteps.honest {accesses : List Access} (h : HonestSteps drive base disks₀ accesses) :
    Honest drive base disks₀ accesses := by
  constructor
  · intro earlier c t hc hs hpending
    exact h.of_suffix hs c hc rfl t hpending
  · intro earlier c hs
    exact h.of_suffix hs

end

/-- One drive, the master on the first of two channels. -/
def firstMaster : IdeControl where
  channels c := ⟨if c = 0 then 0x1f0 else 0x170⟩
  devices n := ⟨n = 0, 0, 0⟩

theorem firstMaster_distinct : firstMaster.Distinct where
  base_ne c hc c' hc' hne := by
    interval_cases c <;> interval_cases c' <;> first | exact absurd rfl hne | decide
  channel_lt _ _ := Nat.zero_lt_two
  drive_lt _ _ := Nat.zero_lt_two
  injective n n' hn hn' _ _ := (of_decide_eq_true hn).trans (of_decide_eq_true hn').symm

/-- The disks before a run: word `w` of a drive is `3 * w + 1`. -/
def countingDisks : ℕ → Disks := fun _ => ⟨fun _ => 0, fun _ w => 3 * .ofNat w + 1, none, false⟩

/-- A write of different words, the read of what was written, and a request for a drive that is not
there. -/
def threeRequests : List (Request × (ℕ → UInt16)) :=
  [(⟨.write, 0, 1054, 1⟩, fun i => 5 * .ofNat i + 2), (⟨.read, 0, 1054, 1⟩, fun _ => 0),
    (⟨.read, 1, 3, 1⟩, fun _ => 0)]

/-- A drive that is ready, and has the words for the read from the time 286 on. -/
def readBackDrive : Drive := fun t port => if port = 0x1f0 then 5 * .ofNat (t - 286) + 2 else 0x40

/-- The run of the three requests. -/
def threeRun : Option (List (Reply × (ℕ → UInt16))) × Bus :=
  serve readBackDrive 1 firstMaster threeRequests ⟨[], [], fun _ => 0⟩

theorem threeRun_honest :
    HonestSteps readBackDrive firstMaster.base countingDisks threeRun.2.accesses := by
  decide +kernel

theorem serve_eq_blocks_three : ∃ replies, threeRun.1 = some replies ∧
    (blocksOf firstMaster fun c => (countingDisks c).words).serve (fun n => n = 0) threeRequests =
      (replies, threeRun.2.blocks readBackDrive firstMaster countingDisks) := by
  have hsome : threeRun.1.isSome = true := by decide +kernel
  obtain ⟨replies, hreplies⟩ := Option.isSome_iff_exists.1 hsome
  have hrun : threeRun = (some replies, threeRun.2) := by
    rw [← hreplies]
  have hrange : ∀ r ∈ threeRequests, r.1.InRange := by
    simp [threeRequests, Request.InRange]
  exact ⟨replies, hreplies,
    serve_eq_blocks firstMaster_distinct threeRequests hrange hrun threeRun_honest.honest⟩

end C4OS.Ata
