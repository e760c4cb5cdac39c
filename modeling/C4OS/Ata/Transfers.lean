import C4OS.Ata.Disks
import Mathlib.Tactic.IntervalCases

/-!
# Transfers over honest disks

`ide_start_access` leads to a transfer of the sectors that the drive is asked for
(`meets_startAccess`), and the loops of `ide_pio_read` and `ide_pio_write` move its words, with a
drive that was seen ready before each sector (`meets_transfer`). So a read gets the words of the
sectors, and a write changes these words and no others (`meets_pioRead`, `meets_pioWrite`).
-/

namespace C4OS.Ata

open Foundations

section

variable {drive : Drive} {fuel : ℕ} {ctrl : IdeControl} {disks₀ : ℕ → Disks} {d : Disks}
  {words : ℕ → ℕ → ℕ → UInt16} {c base : ℕ} {x : Option Transfer} {ready : Prop}
  {buffer : ℕ → UInt16} {value : UInt16} {port : ℕ} {byte : UInt8} {device : IdeDevice}
  {location count : ℕ} {command : UInt8} {type : RequestType}

@[simp] theorem words_outByte : (d.apply base value (.outByte port byte)).words = d.words := by
  rw [Disks.apply]
  split <;> rfl

/-- A property of the disks and the buffer that a write of a byte leads to. -/
def WillWrite (ctrl : IdeControl) (port : ℕ) (byte : UInt8)
    (R : (ℕ → Disks) → (ℕ → UInt16) → Prop) (disks : ℕ → Disks) (buffer : ℕ → UInt16) : Prop :=
  R (fun c => (disks c).apply (ctrl.base c) 0 (.outByte port byte)) buffer

theorem meets_outByte {R : (ℕ → Disks) → (ℕ → UInt16) → Prop} :
    Meets (honestly drive ctrl disks₀)
      (fun s => WillWrite ctrl port byte R (s.disks drive ctrl disks₀) s.buffer)
      (access (.outByte port byte)) fun _ s => R (s.disks drive ctrl disks₀) s.buffer :=
  Meets.modify (fun _ => List.suffix_cons _ _) fun _ _ h => h

/-- A transfer, with the words of all disks. -/
def Started (words : ℕ → ℕ → ℕ → UInt16) (c : ℕ) (x : Option Transfer) (buffer : ℕ → UInt16)
    (disks : ℕ → Disks) (buffer' : ℕ → UInt16) : Prop :=
  (∀ c' < 2, (disks c').words = words c') ∧ (disks c).transfer = x ∧ buffer' = buffer

/-- The drive that is selected in the register of the device. -/
theorem drive_deviceByte (h : device.drive < 2) :
    (deviceByte device location).toNat / 2 ^ 4 % 2 = device.drive := by
  have hnibble : (location >>> 24) &&& 0xf < 2 ^ 4 := Nat.and_lt_two_pow _ (by decide)
  rw [deviceByte, Nat.toUInt8_eq, UInt8.toNat_ofNat']
  generalize (location >>> 24) &&& 0xf = n at hnibble
  have hcases : device.drive = 0 ∨ device.drive = 1 := by omega
  rcases hcases with hdrive | hdrive <;> rw [hdrive] <;> interval_cases n <;> rfl

/-- The number of sectors that a drive is asked for. -/
abbrev askedCount (count : ℕ) : ℕ := if count % 256 = 0 then 256 else count % 256

/-- The writes of `ide_start_access`. -/
def Disks.start (d : Disks) (base base' : ℕ) (device : IdeDevice) (location count : ℕ)
    (command : UInt8) : Disks :=
  ((((((d.apply base 0 (.outByte (base' + ataRegHdDevSelect) (deviceByte device location))).apply
    base 0 (.outByte (base' + ataRegSecCount0) count.toUInt8)).apply
    base 0 (.outByte (base' + ataRegLba0) (location &&& 0xff).toUInt8)).apply
    base 0 (.outByte (base' + ataRegLba1) ((location >>> 8) &&& 0xff).toUInt8)).apply
    base 0 (.outByte (base' + ataRegLba2) ((location >>> 16) &&& 0xff).toUInt8)).apply
    base 0 (.outByte (base' + ataRegCommand) command))

theorem words_start {base' : ℕ} :
    (d.start base base' device location count command).words = d.words := by
  rw [Disks.start]
  simp only [words_outByte]

/-- The registers when `ide_start_access` writes the command. -/
def startRegs (regs : ℕ → UInt8) (base : ℕ) (device : IdeDevice) (location count : ℕ) :
    ℕ → UInt8 :=
  Function.update (Function.update (Function.update (Function.update (Function.update regs
    (base + ataRegHdDevSelect) (deviceByte device location))
    (base + ataRegSecCount0) count.toUInt8)
    (base + ataRegLba0) (location &&& 0xff).toUInt8)
    (base + ataRegLba1) ((location >>> 8) &&& 0xff).toUInt8)
    (base + ataRegLba2) ((location >>> 16) &&& 0xff).toUInt8

theorem start_eq : d.start base base device location count command =
    ({ d with regs := startRegs d.regs base device location count } : Disks).command base
      command := by
  simp [Disks.start, Disks.apply, startRegs, ataRegHdDevSelect, ataRegSecCount0, ataRegLba0,
    ataRegLba1, ataRegLba2, ataRegCommand]

theorem asked_startRegs (regs : ℕ → UInt8) (base : ℕ) (device : IdeDevice) (location count : ℕ) :
    (⟨startRegs regs base device location count, []⟩ : TaskFile).location base =
      location % 2 ^ 28 ∧
    (⟨startRegs regs base device location count, []⟩ : TaskFile).count base =
      askedCount count := by
  have hcommands := taskFile_start base regs device location count 0
  have hlast : taskFile base regs (startEffects base device location count 0) =
      TaskFile.apply base ⟨startRegs regs base device location count, []⟩
        (.out (base + ataRegCommand) 0) := by
    simp [taskFile, startEffects, TaskFile.apply, startRegs, ataRegHdDevSelect, ataRegSecCount0,
      ataRegLba0, ataRegLba1, ataRegLba2, ataRegCommand]
  rw [hlast, TaskFile.apply, if_pos rfl] at hcommands
  obtain ⟨-, hlocation, hcount⟩ := Command.mk.inj (List.singleton_inj.1 hcommands)
  exact ⟨hlocation, hcount⟩

theorem transfer_start (hdrive : device.drive < 2) (htype : transferType command = some type) :
    (d.start base base device location count command).transfer =
      some ⟨type, device.drive, 256 * (location % 2 ^ 28), 256 * askedCount count⟩ := by
  obtain ⟨hlocation, hcount⟩ := asked_startRegs d.regs base device location count
  have hselect : startRegs d.regs base device location count (base + ataRegHdDevSelect) =
      deviceByte device location := by
    simp [startRegs, Function.update, ataRegHdDevSelect, ataRegSecCount0, ataRegLba0, ataRegLba1,
      ataRegLba2]
  rw [start_eq, Disks.command]
  simp only [htype, hlocation, hcount, Disks.drive, hselect, drive_deviceByte hdrive]
  rfl

/-- The command has started the transfer, and the drive was seen ready for it. -/
theorem meets_startAccess (hdrive : device.drive < 2) (htype : transferType command = some type) :
    Meets (honestly drive ctrl disks₀)
      (Phase drive ctrl disks₀ words device.channel x ready buffer)
      (ideStartAccess drive fuel ctrl device location count command)
      fun _ => Phase drive ctrl disks₀ words device.channel
        (some ⟨type, device.drive, 256 * (location % 2 ^ 28), 256 * askedCount count⟩) True
        buffer := by
  refine meets_readyLoop.bind fun _ => ?_
  have hwait : Meets (honestly drive ctrl disks₀)
      (Phase drive ctrl disks₀ words device.channel
        (some ⟨type, device.drive, 256 * (location % 2 ^ 28), 256 * askedCount count⟩) False buffer)
      (ideChannelPoll drive fuel (ctrl.channels device.channel)) _ := meets_channelPoll
  have hpoll : Meets (honestly drive ctrl disks₀)
      (fun s => Started words device.channel
        (some ⟨type, device.drive, 256 * (location % 2 ^ 28), 256 * askedCount count⟩) buffer
        (s.disks drive ctrl disks₀) s.buffer)
      (ideChannelPoll drive fuel (ctrl.channels device.channel)) fun _ =>
        Phase drive ctrl disks₀ words device.channel
          (some ⟨type, device.drive, 256 * (location % 2 ^ 28), 256 * askedCount count⟩) True
          buffer :=
    hwait.pre fun s hs => ⟨hs.1, hs.2.1, False.elim, hs.2.2⟩
  refine Meets.pre (meets_outByte.bind fun _ => Meets.bind (meets_outByte.bind fun _ =>
    meets_outByte.bind fun _ => meets_outByte.bind fun _ => meets_outByte) fun _ =>
      meets_outByte.bind fun _ => hpoll) fun s hs => ?_
  refine ⟨fun c' hc' => ?_, ?_, hs.buffer⟩
  · exact words_start.trans (hs.words c' hc')
  · exact transfer_start hdrive htype

@[simp] theorem words_inWord : (d.apply base value (.inWord port)).words = d.words := by
  rw [Disks.apply]
  split
  · split <;> rfl
  · rfl

/-- A word of a transfer that can be moved now. -/
theorem pending_eq {n w drv : ℕ} (htransfer : d.transfer = some ⟨type, drv, w, n + 1⟩)
    (hready : d.ready = true) : d.pending type = some ⟨type, drv, w, n + 1⟩ := by
  rw [Disks.pending, htransfer, Option.filter_some, hready]
  simp

theorem meets_readWord {n w drv sector i : ℕ} (hc : c < 2)
    (hlt : sector * 256 + i < wordSize) : Meets (honestly drive ctrl disks₀)
      (Phase drive ctrl disks₀ words c (some ⟨.read, drv, w, n + 1⟩) True buffer)
      (readWord drive (ctrl.channels c) sector i)
      fun _ => Phase drive ctrl disks₀ words c (some ⟨.read, drv, w + 1, n⟩) (n % 256 ≠ 0)
        (Function.update buffer (sector * 256 + i) (words c drv w)) := by
  rintro s _ _ ⟨⟩
  refine ⟨List.suffix_cons _ _, fun hfits h => ?_⟩
  have hpending := pending_eq h.transfer (h.ready trivial)
  have hword := hfits.word s.accesses c _ hc (List.suffix_refl _) hpending
  have hmoved : (s.disks drive ctrl disks₀ c).apply (ctrl.base c) (drive s.time (ctrl.base c))
      (.inWord (ctrl.base c)) =
        (s.disks drive ctrl disks₀ c).moved ⟨.read, drv, w, n + 1⟩ := by
    rw [Disks.apply, if_pos rfl, hpending]
  refine ⟨fun c' hc' => ?_, ?_, fun hready => ?_, ?_⟩
  · show (Disks.apply _ _ (drive s.time (ctrl.base c)) (.inWord (ctrl.base c))).words = _
    rw [words_inWord]
    exact h.words c' hc'
  · exact congrArg Disks.transfer hmoved
  · exact (congrArg Disks.ready hmoved).trans (decide_eq_true hready)
  · show Function.update s.buffer ((sector * 256 + i) % wordSize) (drive s.time (ctrl.base c)) = _
    rw [Nat.mod_eq_of_lt hlt, h.buffer, ← h.words c hc]
    exact congrArg _ hword

/-- The words when a word of a drive was written. -/
abbrev setWord (words : ℕ → ℕ → ℕ → UInt16) (c drv w : ℕ) (value : UInt16) : ℕ → ℕ → ℕ → UInt16 :=
  Function.update words c (Function.update (words c) drv (Function.update (words c drv) w value))

theorem meets_writeWord {n w drv sector i : ℕ} (hc : c < 2)
    (hports : ∀ c' < 2, c' ≠ c → ctrl.base c' ≠ ctrl.base c) (hlt : sector * 256 + i < wordSize) :
    Meets (honestly drive ctrl disks₀)
      (Phase drive ctrl disks₀ words c (some ⟨.write, drv, w, n + 1⟩) True buffer)
      (writeWord (ctrl.channels c) sector i)
      fun _ => Phase drive ctrl disks₀
        (setWord words c drv w (buffer (sector * 256 + i))) c (some ⟨.write, drv, w + 1, n⟩)
        (n % 256 ≠ 0) buffer := by
  rintro s _ _ ⟨⟩
  refine ⟨List.suffix_cons _ _, fun hfits h => ?_⟩
  have hpending := pending_eq h.transfer (h.ready trivial)
  have hmoved : (s.disks drive ctrl disks₀ c).apply (ctrl.base c) (drive s.time (ctrl.base c))
      (.outWord (ctrl.base c) (s.buffer ((sector * 256 + i) % wordSize))) =
        { (s.disks drive ctrl disks₀ c).moved ⟨.write, drv, w, n + 1⟩ with
          words := Function.update (s.disks drive ctrl disks₀ c).words drv
            (Function.update ((s.disks drive ctrl disks₀ c).words drv) w
              (s.buffer (sector * 256 + i))) } := by
    rw [Disks.apply, if_pos rfl, hpending, Nat.mod_eq_of_lt hlt]
  refine ⟨fun c' hc' => ?_, ?_, fun hready => ?_, h.buffer⟩
  · by_cases heq : c' = c
    · rw [heq, setWord, Function.update_self, ← h.words c hc, ← h.buffer]
      exact congrArg Disks.words hmoved
    · rw [setWord, Function.update_of_ne heq, ← h.words c' hc']
      show (Disks.apply _ _ (drive s.time (ctrl.base c)) (.outWord (ctrl.base c) _)).words = _
      rw [Disks.apply, if_neg (Ne.symm (hports c' hc' heq))]
      rfl
  · exact congrArg Disks.transfer hmoved
  · exact (congrArg Disks.ready hmoved).trans (decide_eq_true hready)

/-- The state of a transfer of `n` words when `k` of them were moved. -/
def Moving (drive : Drive) (ctrl : IdeControl) (disks₀ : ℕ → Disks) (W : ℕ → ℕ → ℕ → ℕ → UInt16)
    (B : ℕ → ℕ → UInt16) (c : ℕ) (type : RequestType) (drv w n k : ℕ) (ready : Prop) : Bus → Prop :=
  Phase drive ctrl disks₀ (W k) c (some ⟨type, drv, w + k, n - k⟩) ready (B k)

theorem Moving.weaken {W : ℕ → ℕ → ℕ → ℕ → UInt16} {B : ℕ → ℕ → UInt16} {w drv n k : ℕ}
    {ready' : Prop} {s : Bus} (h : Moving drive ctrl disks₀ W B c type drv w n k ready s)
    (hready : ready' → ready) : Moving drive ctrl disks₀ W B c type drv w n k ready' s :=
  Phase.weaken h hready

theorem meets_poll_moving {W : ℕ → ℕ → ℕ → ℕ → UInt16} {B : ℕ → ℕ → UInt16} {w drv n k : ℕ} :
    Meets (honestly drive ctrl disks₀) (Moving drive ctrl disks₀ W B c type drv w n k ready)
      (ideChannelPoll drive fuel (ctrl.channels c))
      fun _ => Moving drive ctrl disks₀ W B c type drv w n k True :=
  meets_channelPoll

/-- The loops of a transfer, where one turn moves one word. The words of the disks and the buffer
depend on how many words were moved. -/
theorem meets_transfer {W : ℕ → ℕ → ℕ → ℕ → UInt16} {B : ℕ → ℕ → UInt16} {w drv : ℕ}
    {turn : ℕ → ℕ → Io Unit}
    (hturn : ∀ sector i, sector * 256 + i < 256 * count → Meets (honestly drive ctrl disks₀)
      (Moving drive ctrl disks₀ W B c type drv w (256 * count) (sector * 256 + i) True)
      (turn sector i)
      fun _ => Moving drive ctrl disks₀ W B c type drv w (256 * count) (sector * 256 + i + 1)
        ((256 * count - (sector * 256 + i + 1)) % 256 ≠ 0)) :
    Meets (honestly drive ctrl disks₀)
      (Moving drive ctrl disks₀ W B c type drv w (256 * count) 0 True)
      (turns (fun sector => do
        turns (turn sector) 256
        ideChannelPoll drive fuel (ctrl.channels c)) count)
      fun _ => Moving drive ctrl disks₀ W B c type drv w (256 * count) (256 * count) True := by
  have hsector : ∀ sector < count, Meets (honestly drive ctrl disks₀)
      (Moving drive ctrl disks₀ W B c type drv w (256 * count) (sector * 256) True)
      (do
        turns (turn sector) 256
        ideChannelPoll drive fuel (ctrl.channels c))
      fun _ =>
        Moving drive ctrl disks₀ W B c type drv w (256 * count) ((sector + 1) * 256) True := by
    intro sector hsector
    have hwords : Meets (honestly drive ctrl disks₀)
        (Moving drive ctrl disks₀ W B c type drv w (256 * count) (sector * 256) True)
        (turns (turn sector) 256) fun _ =>
          Moving drive ctrl disks₀ W B c type drv w (256 * count) (sector * 256 + 256) False := by
      have hturns := meets_turns (n := 256) (I := fun i =>
        Moving drive ctrl disks₀ W B c type drv w (256 * count) (sector * 256 + i) (i < 256))
        fun i hi => by
          have hleft : i + 1 < 256 → (256 * count - (sector * 256 + i + 1)) % 256 ≠ 0 := by omega
          refine (hturn sector i (by omega)).consequence (fun s hs => ?_) fun _ s hs => ?_
          · exact hs.weaken fun _ => hi
          · rw [← Nat.add_assoc]
            exact hs.weaken hleft
      rw [Nat.add_zero] at hturns
      exact hturns.consequence (fun s hs => hs.weaken fun _ => trivial)
        fun _ s hs => hs.weaken False.elim
    rw [Nat.succ_mul sector 256]
    exact hwords.bind fun _ => meets_poll_moving
  have hloop := meets_turns (I := fun sector =>
    Moving drive ctrl disks₀ W B c type drv w (256 * count) (sector * 256) True) hsector
  rw [Nat.zero_mul, Nat.mul_comm count] at hloop
  exact hloop

theorem askedCount_eq (h : 1 ≤ count) (h' : count ≤ 256) : askedCount count = count := by
  rw [askedCount]
  split <;> omega

/-- The buffer when `k` words were read. -/
def readInto (words : ℕ → UInt16) (w k : ℕ) (buffer : ℕ → UInt16) : ℕ → UInt16 :=
  fun i => if i < k then words (w + i) else buffer i

theorem readInto_zero (words : ℕ → UInt16) (w : ℕ) (buffer : ℕ → UInt16) :
    readInto words w 0 buffer = buffer :=
  funext fun _ => if_neg (Nat.not_lt_zero _)

theorem readInto_succ (words : ℕ → UInt16) (w k : ℕ) (buffer : ℕ → UInt16) :
    Function.update (readInto words w k buffer) k (words (w + k)) =
      readInto words w (k + 1) buffer := by
  funext i
  rw [Function.update_apply, readInto, readInto]
  split
  · next h => rw [h, if_pos (Nat.lt_succ_self k)]
  · next h => exact if_congr (by omega) rfl rfl

/-- The words of a drive when `k` words of the buffer were written. -/
def writeFrom (words : ℕ → UInt16) (w k : ℕ) (buffer : ℕ → UInt16) : ℕ → UInt16 :=
  fun i => if w ≤ i ∧ i < w + k then buffer (i - w) else words i

theorem writeFrom_zero (words : ℕ → UInt16) (w : ℕ) (buffer : ℕ → UInt16) :
    writeFrom words w 0 buffer = words :=
  funext fun _ => if_neg (by omega)

theorem writeFrom_succ (words : ℕ → UInt16) (w k : ℕ) (buffer : ℕ → UInt16) :
    Function.update (writeFrom words w k buffer) (w + k) (buffer k) =
      writeFrom words w (k + 1) buffer := by
  funext i
  rw [Function.update_apply, writeFrom, writeFrom]
  split
  · next h =>
    rw [h, if_pos (by omega), Nat.add_sub_cancel_left]
  · next h => exact if_congr (by omega) rfl rfl

/-- The words of all drives, with new ones for one of them. -/
def setDrive (words : ℕ → ℕ → ℕ → UInt16) (c drv : ℕ) (new : ℕ → UInt16) : ℕ → ℕ → ℕ → UInt16 :=
  Function.update words c (Function.update (words c) drv new)

theorem setDrive_self (words : ℕ → ℕ → ℕ → UInt16) (c drv : ℕ) :
    setDrive words c drv (words c drv) = words := by
  rw [setDrive, Function.update_eq_self, Function.update_eq_self]

theorem setWord_setDrive (words : ℕ → ℕ → ℕ → UInt16) (c drv w : ℕ) (new : ℕ → UInt16)
    (value : UInt16) : setWord (setDrive words c drv new) c drv w value =
      setDrive words c drv (Function.update new w value) := by
  simp [setWord, setDrive]

theorem meets_readWord_moving {w drv n k sector i : ℕ} (hc : c < 2)
    (hk : sector * 256 + i = k) (hlt : k < n) (hword : k < wordSize) :
    Meets (honestly drive ctrl disks₀)
      (Moving drive ctrl disks₀ (fun _ => words) (fun k => readInto (words c drv) w k buffer) c
        .read drv w n k True)
      (readWord drive (ctrl.channels c) sector i)
      fun _ => Moving drive ctrl disks₀ (fun _ => words)
        (fun k => readInto (words c drv) w k buffer) c .read drv w n (k + 1)
        ((n - (k + 1)) % 256 ≠ 0) := by
  have hleft : n - (k + 1) + 1 = n - k := by omega
  have hread : Meets (honestly drive ctrl disks₀)
      (Phase drive ctrl disks₀ words c (some ⟨.read, drv, w + k, n - (k + 1) + 1⟩) True
        (readInto (words c drv) w k buffer))
      (readWord drive (ctrl.channels c) sector i)
      fun _ => Phase drive ctrl disks₀ words c (some ⟨.read, drv, w + k + 1, n - (k + 1)⟩)
        ((n - (k + 1)) % 256 ≠ 0)
        (Function.update (readInto (words c drv) w k buffer) (sector * 256 + i)
          (words c drv (w + k))) := meets_readWord hc (by rwa [hk])
  rw [hk, readInto_succ, hleft] at hread
  exact hread

theorem meets_writeWord_moving {w drv n k sector i : ℕ} (hc : c < 2)
    (hports : ∀ c' < 2, c' ≠ c → ctrl.base c' ≠ ctrl.base c) (hk : sector * 256 + i = k)
    (hlt : k < n) (hword : k < wordSize) : Meets (honestly drive ctrl disks₀)
      (Moving drive ctrl disks₀
        (fun k => setDrive words c drv (writeFrom (words c drv) w k buffer)) (fun _ => buffer) c
        .write drv w n k True)
      (writeWord (ctrl.channels c) sector i)
      fun _ => Moving drive ctrl disks₀
        (fun k => setDrive words c drv (writeFrom (words c drv) w k buffer)) (fun _ => buffer) c
        .write drv w n (k + 1) ((n - (k + 1)) % 256 ≠ 0) := by
  have hleft : n - (k + 1) + 1 = n - k := by omega
  have hwrite : Meets (honestly drive ctrl disks₀)
      (Phase drive ctrl disks₀ (setDrive words c drv (writeFrom (words c drv) w k buffer)) c
        (some ⟨.write, drv, w + k, n - (k + 1) + 1⟩) True buffer)
      (writeWord (ctrl.channels c) sector i)
      fun _ => Phase drive ctrl disks₀
        (setWord (setDrive words c drv (writeFrom (words c drv) w k buffer)) c drv (w + k)
          (buffer (sector * 256 + i))) c (some ⟨.write, drv, w + k + 1, n - (k + 1)⟩)
        ((n - (k + 1)) % 256 ≠ 0) buffer := meets_writeWord hc hports (by rwa [hk])
  rw [hk, setWord_setDrive, writeFrom_succ, hleft] at hwrite
  exact hwrite

section

variable (hdrive : device.drive < 2) (hlocation : location < 2 ^ 28) (hcount : 1 ≤ count)
  (hcount' : count ≤ 256)

include hdrive hlocation hcount hcount'

theorem meets_started (htype : transferType command = some type) :
    Meets (honestly drive ctrl disks₀)
      (Phase drive ctrl disks₀ words device.channel x ready buffer)
      (ideStartAccess drive fuel ctrl device location count command)
      fun _ => Phase drive ctrl disks₀ words device.channel
        (some ⟨type, device.drive, 256 * location, 256 * count⟩) True buffer := by
  have hstart : Meets (honestly drive ctrl disks₀)
      (Phase drive ctrl disks₀ words device.channel x ready buffer)
      (ideStartAccess drive fuel ctrl device location count command)
      fun _ => Phase drive ctrl disks₀ words device.channel
        (some ⟨type, device.drive, 256 * (location % 2 ^ 28), 256 * askedCount count⟩) True
        buffer := meets_startAccess hdrive htype
  rwa [Nat.mod_eq_of_lt hlocation, askedCount_eq hcount hcount'] at hstart

/-- A read gets the words of the sectors, and the words of the disks stay as they are. -/
theorem meets_pioRead (hchannel : device.channel < 2) : Meets (honestly drive ctrl disks₀)
    (Phase drive ctrl disks₀ words device.channel x ready buffer)
    (idePioRead drive fuel ctrl device location count)
    fun _ => Phase drive ctrl disks₀ words device.channel
      (some ⟨.read, device.drive, 256 * location + 256 * count, 0⟩) True
      (readInto (words device.channel device.drive) (256 * location) (256 * count) buffer) := by
  refine (meets_started hdrive hlocation hcount hcount' rfl).bind fun _ => ?_
  have htransfer : Meets (honestly drive ctrl disks₀)
      (Moving drive ctrl disks₀ (fun _ => words)
        (fun k => readInto (words device.channel device.drive) (256 * location) k buffer)
        device.channel .read device.drive (256 * location) (256 * count) 0 True)
      (turns (fun sector => do
        turns (readWord drive (ctrl.channels device.channel) sector) 256
        ideChannelPoll drive fuel (ctrl.channels device.channel)) count)
      fun _ => Moving drive ctrl disks₀ (fun _ => words)
        (fun k => readInto (words device.channel device.drive) (256 * location) k buffer)
        device.channel .read device.drive (256 * location) (256 * count) (256 * count) True :=
    meets_transfer fun sector i hlt =>
      meets_readWord_moving hchannel rfl hlt (Nat.lt_trans hlt (by rw [wordSize]; omega))
  refine htransfer.consequence (fun s hs => ?_) fun _ s hs => ?_
  · rw [Moving, readInto_zero]
    exact hs
  · rwa [Moving, Nat.sub_self] at hs

/-- A write puts the words of the buffer into the sectors, and the other words of the disks stay as
they are. -/
theorem meets_pioWrite (hchannel : device.channel < 2)
    (hports : ∀ c < 2, c ≠ device.channel → ctrl.base c ≠ ctrl.base device.channel) :
    Meets (honestly drive ctrl disks₀)
      (Phase drive ctrl disks₀ words device.channel x ready buffer)
      (idePioWrite drive fuel ctrl device location count)
      fun _ => Phase drive ctrl disks₀ (setDrive words device.channel device.drive
        (writeFrom (words device.channel device.drive) (256 * location) (256 * count) buffer))
        device.channel none False buffer := by
  refine (meets_started hdrive hlocation hcount hcount' rfl).bind fun _ => ?_
  have htransfer : Meets (honestly drive ctrl disks₀)
      (Moving drive ctrl disks₀ (fun k => setDrive words device.channel device.drive
          (writeFrom (words device.channel device.drive) (256 * location) k buffer))
        (fun _ => buffer) device.channel .write device.drive (256 * location) (256 * count) 0 True)
      (turns (fun sector => do
        turns (writeWord (ctrl.channels device.channel) sector) 256
        ideChannelPoll drive fuel (ctrl.channels device.channel)) count)
      fun _ => Moving drive ctrl disks₀ (fun k => setDrive words device.channel device.drive
          (writeFrom (words device.channel device.drive) (256 * location) k buffer))
        (fun _ => buffer) device.channel .write device.drive (256 * location) (256 * count)
        (256 * count) True :=
    meets_transfer fun sector i hlt =>
      meets_writeWord_moving hchannel hports rfl hlt (Nat.lt_trans hlt (by rw [wordSize]; omega))
  refine Meets.bind (htransfer.pre fun s hs => ?_) fun _ => ?_
  · rw [Moving, writeFrom_zero, setDrive_self]
    exact hs
  · -- the flush ends the transfer
    refine Meets.consequence (meets_outByte (R := Started _ device.channel none buffer))
      (fun s hs => ⟨fun c' hc' => ?_, ?_, hs.buffer⟩)
      fun _ s hs => ⟨hs.1, hs.2.1, False.elim, hs.2.2⟩
    · rw [words_outByte]
      exact hs.words c' hc'
    · show (Disks.apply _ (ctrl.base device.channel) 0
        (.outByte (ctrl.base device.channel + ataRegCommand) ataCmdCacheFlush)).transfer = none
      rw [Disks.apply, if_pos rfl]
      rfl

end

end

end C4OS.Ata
