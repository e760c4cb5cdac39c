import C4OS.Ata.Model

/-!
# The sectors a drive is asked for

A drive takes the location and the number of sectors from its registers when it gets a command
(`TaskFile`). `ide_define_access` and `ide_start_access` write 28 bits of the location and eight
bits of the number of sectors there, and zero stands for 256 sectors. The loops of the transfer have
the whole number of sectors (`emits_ataHandleAccess`). So the drive is asked for the sectors of a
request just when the location has 28 bits and there are between one and 256 of them
(`sectors_asked_iff`).
-/

namespace C4OS.Ata

open Foundations

variable {α β : Type} {drive : Drive} {fuel : ℕ} {ctrl : IdeControl} {buffer : ℕ → UInt16}
  {request : Request}

/-! ## What is written and transferred -/

/-- What an access does to a drive. -/
inductive Effect
  | out (port : ℕ) (value : UInt8)
  | data (type : RequestType) (port : ℕ)

/-- A read of a register does nothing. -/
def Access.effect : Access → Option Effect
  | .inByte _ => none
  | .outByte port value => some (.out port value)
  | .inWord port => some (.data .read port)
  | .outWord port _ => some (.data .write port)

/-- The effects so far, the first one first. -/
def Bus.effects (s : Bus) : List Effect := s.accesses.reverse.filterMap Access.effect

/-- Code that has these effects, if it ends. -/
def Emits (m : Io α) (l : List Effect) : Prop :=
  ∀ s a s', m s = (some a, s') → s'.effects = s.effects ++ l

namespace Emits

variable {m : Io α} {k : α → Io β} {l l' : List Effect}

theorem pure (a : α) : Emits (pure a : Io α) [] := by
  rintro s _ _ ⟨⟩
  exact (List.append_nil _).symm

theorem failure : Emits (failure : Io α) l := by
  rintro s _ _ ⟨⟩

theorem bind (hm : Emits m l) (hk : ∀ a, Emits (k a) l') : Emits (m >>= k) (l ++ l') := by
  intro s b s' hrun
  obtain ⟨a, s₁, h, hrest⟩ := Code.exists_of_bind hrun
  rw [hk a s₁ b s' hrest, hm s a s₁ h, List.append_assoc]

theorem bind_of_quiet (hm : Emits m l) (hk : ∀ a, Emits (k a) []) : Emits (m >>= k) l := by
  rw [← List.append_nil l]
  exact hm.bind hk

theorem get : Emits (get : Io Bus) [] := by
  rintro s _ _ ⟨⟩
  exact (List.append_nil _).symm

theorem access (a : Access) : Emits (access a) a.effect.toList := by
  rintro s _ _ ⟨⟩
  rw [Bus.effects, List.reverse_cons, List.filterMap_append]
  cases a <;> rfl

theorem writeBuffer (f : Bus → ℕ → UInt16) :
    Emits (modify fun s => { s with buffer := f s } : Io Unit) [] := by
  rintro s _ _ ⟨⟩
  exact (List.append_nil _).symm

theorem turns {f : ℕ → Io Unit} (hf : ∀ i, Emits (f i) l) (n : ℕ) :
    Emits (turns f n) (List.replicate n l).flatten := by
  induction n with
  | zero => exact .pure ()
  | succ n ih =>
    rw [List.replicate_succ', List.flatten_concat]
    exact ih.bind fun _ => hf n

theorem polling (hm : Emits m l) : Emits (polling m) l := by
  intro s a s' hrun
  rcases h : m s with ⟨r, s₁⟩
  rw [Ata.polling, h] at hrun
  cases hrun
  exact hm s a s₁ h

end Emits

/-! ## The functions of the driver -/

section

variable {channel : IdeChannel} {device : IdeDevice} {location count : ℕ}

theorem emits_regRead (reg : ℕ) : Emits (ideRegRead drive channel reg) [] :=
  Emits.get.bind fun _ => (Emits.access _).bind fun _ => .pure _

theorem emits_ready : Emits (ideChannelReady drive channel) [] :=
  (emits_regRead _).bind fun _ => .pure _

theorem emits_hasError : Emits (ideChannelHasError drive channel) [] :=
  (emits_regRead _).bind fun _ => .pure _

theorem emits_pollLoop : Emits (pollLoop drive channel fuel) [] := by
  induction fuel with
  | zero => exact .failure
  | succ fuel ih =>
    refine emits_ready.bind fun ready => ?_
    split
    · exact .pure ()
    · refine emits_hasError.bind fun error => ?_
      split
      · exact (emits_regRead _).bind fun _ => .pure ()
      · exact ih

theorem emits_poll : Emits (ideChannelPoll drive fuel channel) [] := by
  refine Emits.polling ((Emits.turns (l := []) (fun _ => ?_) 4).bind fun _ => emits_pollLoop)
  exact (emits_regRead _).bind fun _ => .pure ()

theorem emits_readyLoop : Emits (readyLoop drive channel fuel) [] := by
  induction fuel with
  | zero => exact .failure
  | succ fuel ih =>
    refine emits_ready.bind fun ready => ?_
    split
    · exact .pure ()
    · exact ih

/-- The byte that `ide_start_access` writes into the register of the device. -/
def deviceByte (device : IdeDevice) (location : ℕ) : UInt8 :=
  (0xe0 ||| (device.drive <<< 4) ||| ((location >>> 24) &&& 0xf)).toUInt8

/-- The writes of `ide_start_access`. -/
def startEffects (base : ℕ) (device : IdeDevice) (location count : ℕ) (command : UInt8) :
    List Effect :=
  [.out (base + ataRegHdDevSelect) (deviceByte device location),
    .out (base + ataRegSecCount0) count.toUInt8,
    .out (base + ataRegLba0) (location &&& 0xff).toUInt8,
    .out (base + ataRegLba1) ((location >>> 8) &&& 0xff).toUInt8,
    .out (base + ataRegLba2) ((location >>> 16) &&& 0xff).toUInt8,
    .out (base + ataRegCommand) command]

theorem emits_startAccess (command : UInt8) :
    Emits (ideStartAccess drive fuel ctrl device location count command)
      (startEffects (ctrl.channels device.channel).base device location count command) := by
  refine emits_readyLoop.bind fun _ => (Emits.access _).bind fun _ => ?_
  have hdefine : Emits (ideDefineAccess (ctrl.channels device.channel) location count)
      [.out ((ctrl.channels device.channel).base + ataRegSecCount0) count.toUInt8,
        .out ((ctrl.channels device.channel).base + ataRegLba0) (location &&& 0xff).toUInt8,
        .out ((ctrl.channels device.channel).base + ataRegLba1)
          ((location >>> 8) &&& 0xff).toUInt8,
        .out ((ctrl.channels device.channel).base + ataRegLba2)
          ((location >>> 16) &&& 0xff).toUInt8] :=
    (Emits.access _).bind fun _ => (Emits.access _).bind fun _ => (Emits.access _).bind fun _ =>
      Emits.access _
  exact hdefine.bind fun _ => (Emits.access _).bind_of_quiet fun _ => emits_poll

/-- The transfer of `count` sectors, each with 256 words. -/
theorem emits_transfer {turn : ℕ → ℕ → Io Unit} {word : Effect}
    (hturn : ∀ sector i, Emits (turn sector i) [word]) (count : ℕ) :
    Emits (turns (fun sector => do
      turns (turn sector) 256
      ideChannelPoll drive fuel channel) count) (List.replicate (256 * count) word) := by
  have hsector : ∀ sector, Emits (do
      turns (turn sector) 256
      ideChannelPoll drive fuel channel) (List.replicate 256 word) := by
    intro sector
    have hwords := Emits.turns (hturn sector) 256
    rw [List.flatten_replicate_singleton] at hwords
    exact hwords.bind_of_quiet fun _ => emits_poll
  have hsectors := Emits.turns hsector count
  rwa [List.flatten_replicate_replicate, Nat.mul_comm] at hsectors

theorem emits_pioRead : Emits (idePioRead drive fuel ctrl device location count)
    (startEffects (ctrl.channels device.channel).base device location count ataCmdReadPio ++
      List.replicate (256 * count) (.data .read (ctrl.channels device.channel).base)) :=
  (emits_startAccess _).bind fun _ => emits_transfer (fun _ _ =>
    Emits.get.bind fun _ => (Emits.access _).bind_of_quiet fun _ => Emits.writeBuffer _) _

theorem emits_pioWrite : Emits (idePioWrite drive fuel ctrl device location count)
    (startEffects (ctrl.channels device.channel).base device location count ataCmdWritePio ++
      (List.replicate (256 * count) (.data .write (ctrl.channels device.channel).base) ++
        [.out ((ctrl.channels device.channel).base + ataRegCommand) ataCmdCacheFlush])) :=
  (emits_startAccess _).bind fun _ => (emits_transfer (fun _ _ =>
    Emits.get.bind fun _ => Emits.access _) _).bind fun _ => Emits.access _

end

/-! ## The registers of a drive -/

/-- A command with the location and the number of sectors it is for. -/
structure Command where
  code : UInt8
  location : ℕ
  count : ℕ
  deriving DecidableEq

/-- The values in the registers of a channel, by their ports, and the commands so far. -/
structure TaskFile where
  regs : ℕ → UInt8
  commands : List Command

namespace TaskFile

/-- The location: eight bits from each of three registers, and four bits from that of the device. -/
def location (tf : TaskFile) (base : ℕ) : ℕ :=
  (tf.regs (base + ataRegLba0)).toNat + (tf.regs (base + ataRegLba1)).toNat * 2 ^ 8 +
    (tf.regs (base + ataRegLba2)).toNat * 2 ^ 16 +
      (tf.regs (base + ataRegHdDevSelect)).toNat % 2 ^ 4 * 2 ^ 24

/-- The number of sectors, where zero is for 256. -/
def count (tf : TaskFile) (base : ℕ) : ℕ :=
  if tf.regs (base + ataRegSecCount0) = 0 then 256
  else (tf.regs (base + ataRegSecCount0)).toNat

/-- An effect on the registers. A command is for the sectors that are in the registers then. -/
def apply (base : ℕ) (tf : TaskFile) : Effect → TaskFile
  | .out port value =>
    if port = base + ataRegCommand then
      { tf with commands := tf.commands ++ [⟨value, tf.location base, tf.count base⟩] }
    else { tf with regs := Function.update tf.regs port value }
  | .data _ _ => tf

theorem foldl_data (base : ℕ) (tf : TaskFile) (n : ℕ) (type : RequestType) (port : ℕ) :
    (List.replicate n (Effect.data type port)).foldl (apply base) tf = tf := by
  induction n with
  | zero => rfl
  | succ n ih => exact ih

end TaskFile

/-- The registers after some effects. -/
def taskFile (base : ℕ) (regs : ℕ → UInt8) (l : List Effect) : TaskFile :=
  l.foldl (TaskFile.apply base) ⟨regs, []⟩

/-- A word that is transferred. -/
def word? (base : ℕ) : Effect → Option RequestType
  | .data type port => if port = base then some type else none
  | .out _ _ => none

/-- The words that are transferred. -/
def words (base : ℕ) (l : List Effect) : List RequestType := l.filterMap (word? base)

/-! ## The location and the number of sectors -/

theorem toNat_byte {n : ℕ} (h : n < 2 ^ 8) : n.toUInt8.toNat = n := by
  rw [Nat.toUInt8_eq, UInt8.toNat_ofNat_of_lt' h]

/-- The parts of the location together. -/
theorem location_bytes (device : IdeDevice) (location : ℕ) :
    (location &&& 0xff).toUInt8.toNat + ((location >>> 8) &&& 0xff).toUInt8.toNat * 2 ^ 8 +
      ((location >>> 16) &&& 0xff).toUInt8.toNat * 2 ^ 16 +
        (deviceByte device location).toNat % 2 ^ 4 * 2 ^ 24 = location % 2 ^ 28 := by
  have hmask (n : ℕ) : n &&& 0xff = n % 2 ^ 8 := Nat.and_two_pow_sub_one_eq_mod n 8
  have hdevice : (deviceByte device location).toNat % 2 ^ 4 = location / 2 ^ 24 % 2 ^ 4 := by
    have hnibble : (location >>> 24) &&& 0xf = location / 2 ^ 24 % 2 ^ 4 := by
      rw [Nat.shiftRight_eq_div_pow]
      exact Nat.and_two_pow_sub_one_eq_mod _ 4
    rw [deviceByte, Nat.toUInt8_eq, UInt8.toNat_ofNat', Nat.mod_mod_of_dvd _ (by decide),
      Nat.or_mod_two_pow, Nat.or_mod_two_pow, hnibble, Nat.shiftLeft_eq, Nat.mul_mod_left,
      Nat.mod_mod]
    simp
  rw [hdevice, hmask, hmask, hmask, toNat_byte (Nat.mod_lt _ (by decide)),
    toNat_byte (Nat.mod_lt _ (by decide)), toNat_byte (Nat.mod_lt _ (by decide)),
    Nat.shiftRight_eq_div_pow, Nat.shiftRight_eq_div_pow]
  omega

/-- The command in the registers after the writes of `ide_start_access`. -/
theorem taskFile_start (base : ℕ) (regs : ℕ → UInt8) (device : IdeDevice) (location count : ℕ)
    (command : UInt8) :
    (taskFile base regs (startEffects base device location count command)).commands =
      [⟨command, location % 2 ^ 28, if count % 256 = 0 then 256 else count % 256⟩] := by
  have hcount : count.toUInt8.toNat = count % 256 := by
    rw [Nat.toUInt8_eq, UInt8.toNat_ofNat']
  have hzero : count.toUInt8 = 0 ↔ count % 256 = 0 := by
    rw [← UInt8.toNat_inj, hcount, UInt8.toNat_zero]
  rw [← location_bytes device, ← hcount, taskFile, startEffects]
  simp only [← hcount] at hzero
  simp only [← hzero]
  -- the bytes do not matter any more
  generalize (location &&& 0xff).toUInt8 = lba₀
  generalize ((location >>> 8) &&& 0xff).toUInt8 = lba₁
  generalize ((location >>> 16) &&& 0xff).toUInt8 = lba₂
  simp [TaskFile.apply, TaskFile.location, TaskFile.count, Function.update, ataRegHdDevSelect,
    ataRegSecCount0, ataRegLba0, ataRegLba1, ataRegLba2, ataRegCommand]

/-! ## Requests -/

/-- The command of the transfer of a request. -/
def RequestType.command : RequestType → UInt8
  | .read => ataCmdReadPio
  | .write => ataCmdWritePio

/-- What follows the transfer. -/
def RequestType.flush (base : ℕ) : RequestType → List Effect
  | .read => []
  | .write => [.out (base + ataRegCommand) ataCmdCacheFlush]

/-- The channel of the device of a request. -/
def Request.base (request : Request) (ctrl : IdeControl) : ℕ :=
  (ctrl.channels (ctrl.devices request.device).channel).base

/-- What `ata_handle_access` does, with the whole number of sectors in its loops. -/
theorem effects_of_run {s : Bus}
    (h : run drive fuel ctrl buffer request = (some .completed, s)) : s.effects =
      startEffects (request.base ctrl) (ctrl.devices request.device) request.location
        request.sectors request.type.command ++
      (List.replicate (256 * request.sectors) (.data request.type (request.base ctrl)) ++
        request.type.flush (request.base ctrl)) := by
  rw [run, ataHandleAccess] at h
  cases hexists : (ctrl.devices request.device).exists' with
  | false =>
    simp only [hexists] at h
    cases h
  | true =>
    simp only [hexists, not_true_eq_false, if_false] at h
    cases htype : request.type with
    | read =>
      rw [htype] at h
      have hread := (emits_pioRead.bind_of_quiet fun _ => Emits.pure Reply.completed) _ _ _ h
      rw [hread, RequestType.flush, List.append_nil]
      rfl
    | write =>
      rw [htype] at h
      exact (emits_pioWrite.bind_of_quiet fun _ => Emits.pure Reply.completed) _ _ _ h

/-- A transfer, and no other command. -/
def Command.IsTransfer (c : Command) : Bool := c.code = ataCmdReadPio ∨ c.code = ataCmdWritePio

/-- The drive is asked for the sectors of the request, once, and as many words as they have are
transferred. -/
structure SectorsAsked (ctrl : IdeControl) (request : Request) (regs : ℕ → UInt8) (s : Bus) :
    Prop where
  command : (taskFile (request.base ctrl) regs s.effects).commands.filter Command.IsTransfer =
    [⟨request.type.command, request.location, request.sectors⟩]
  words : words (request.base ctrl) s.effects =
    List.replicate (256 * request.sectors) request.type

theorem words_of_run {s : Bus} (h : run drive fuel ctrl buffer request = (some .completed, s)) :
    words (request.base ctrl) s.effects = List.replicate (256 * request.sectors) request.type := by
  have hdata : (List.replicate (256 * request.sectors) (Effect.data request.type
      (request.base ctrl))).filterMap (word? (request.base ctrl)) =
        List.replicate (256 * request.sectors) request.type :=
    List.filterMap_replicate_of_some (if_pos rfl)
  rw [effects_of_run h, words, List.filterMap_append, List.filterMap_append, hdata]
  cases request.type <;> exact List.append_nil _

/-- The location and the number of sectors are cut. -/
theorem command_of_run (regs : ℕ → UInt8) {s : Bus}
    (h : run drive fuel ctrl buffer request = (some .completed, s)) :
    (taskFile (request.base ctrl) regs s.effects).commands.filter Command.IsTransfer =
      [⟨request.type.command, request.location % 2 ^ 28,
        if request.sectors % 256 = 0 then 256 else request.sectors % 256⟩] := by
  have hstart := taskFile_start (request.base ctrl) regs (ctrl.devices request.device)
    request.location request.sectors request.type.command
  rw [effects_of_run h, taskFile, List.foldl_append, List.foldl_append, TaskFile.foldl_data]
  rw [taskFile] at hstart
  cases htype : request.type with
  | read =>
    rw [htype] at hstart
    rw [RequestType.flush, List.foldl_nil, hstart]
    rfl
  | write =>
    rw [htype] at hstart
    rw [RequestType.flush, List.foldl_cons, List.foldl_nil, TaskFile.apply, if_pos rfl, hstart]
    rfl

/-- **When a drive is asked for the right sectors.** For every behaviour of the drive and every
request that is carried out: just when the location has 28 bits and there are between one and 256
sectors. -/
theorem sectors_asked_iff (regs : ℕ → UInt8) {s : Bus}
    (h : run drive fuel ctrl buffer request = (some .completed, s)) :
    SectorsAsked ctrl request regs s ↔
      request.location < 2 ^ 28 ∧ 1 ≤ request.sectors ∧ request.sectors ≤ 256 := by
  have hcount : (if request.sectors % 256 = 0 then 256 else request.sectors % 256) =
      request.sectors ↔ 1 ≤ request.sectors ∧ request.sectors ≤ 256 := by
    split <;> omega
  constructor
  · rintro ⟨hasked, -⟩
    rw [command_of_run regs h] at hasked
    obtain ⟨-, hloc, hsec⟩ := Command.mk.inj (List.singleton_inj.1 hasked)
    exact ⟨by omega, hcount.1 hsec⟩
  · rintro ⟨hloc, hsec⟩
    refine ⟨?_, words_of_run h⟩
    rw [command_of_run regs h, hcount.2 hsec, Nat.mod_eq_of_lt hloc]

/-- A drive that is always ready. -/
def readyDrive : Drive := fun _ _ => 0x40

/-- One drive, the master on the primary channel. -/
def masterDrive : IdeControl where
  channels := fun _ => ⟨0x1f0⟩
  devices := fun _ => ⟨true, 0, 0⟩

theorem run_eq_of_fst {reply : Reply} (h : (run drive fuel ctrl buffer request).1 = some reply) :
    run drive fuel ctrl buffer request = (some reply, (run drive fuel ctrl buffer request).2) :=
  Prod.ext h rfl

/-- The write of one sector. -/
theorem sectors_asked_iff_one : SectorsAsked masterDrive ⟨.write, 0, 1054, 1⟩ (fun _ => 0)
    (run readyDrive 1 masterDrive (fun _ => 0) ⟨.write, 0, 1054, 1⟩).2 := by
  have hrun : (run readyDrive 1 masterDrive (fun _ => 0) ⟨.write, 0, 1054, 1⟩).1 =
      some .completed := by decide +kernel
  refine (sectors_asked_iff _ (run_eq_of_fst hrun)).2 ?_
  exact ⟨by show 1054 < 2 ^ 28; decide, Nat.le_refl 1, by show 1 ≤ 256; decide⟩

/-- A request for the sector behind those that a location of 28 bits can name is one for the first
sector. -/
theorem sectors_asked_cut : ¬ ∀ (drive : Drive) (fuel : ℕ) (ctrl : IdeControl)
    (buffer : ℕ → UInt16) (request : Request) (regs : ℕ → UInt8) (s : Bus),
    request.location < 2 ^ 32 → request.sectors < 2 ^ 32 →
    run drive fuel ctrl buffer request = (some .completed, s) →
    SectorsAsked ctrl request regs s := by
  intro h
  have hrun : (run readyDrive 1 masterDrive (fun _ => 0) ⟨.read, 0, 2 ^ 28, 1⟩).1 =
      some .completed := by decide +kernel
  obtain ⟨hasked, -⟩ := h readyDrive 1 masterDrive (fun _ => 0) ⟨.read, 0, 2 ^ 28, 1⟩ (fun _ => 0)
    _ (by show 2 ^ 28 < 2 ^ 32; decide) (by show 1 < 2 ^ 32; decide) (run_eq_of_fst hrun)
  rw [command_of_run _ (run_eq_of_fst hrun)] at hasked
  obtain ⟨-, hloc, -⟩ := Command.mk.inj (List.singleton_inj.1 hasked)
  exact absurd hloc (by decide)

end C4OS.Ata
