import C4OS.Ata.Sectors
import C4OS.Foundations.Histories

/-!
# Honest disks

The two drives on a channel keep registers, and the words of their sectors (`Disks`). A command
starts a transfer, and a word is moved only when a read of the status register has shown that the
drive is ready for the sector that the word is in. That the disks are honest is a property of a run
(`Honest`): each word that is read is the word of the transfer, and no status that is read shows an
error. When the drives are busy, and for how long, is left to them.

A loop of the driver that waits ends with a drive that was seen ready (`meets_readyLoop`,
`meets_channelPoll`).
-/

namespace C4OS.Ata

open Foundations

/-! ## The disks -/

/-- A transfer of words of a drive, from `word` on. -/
structure Transfer where
  type : RequestType
  drive : ℕ
  word : ℕ
  left : ℕ

/-- The drives on a channel. -/
structure Disks where
  regs : ℕ → UInt8
  words : ℕ → ℕ → UInt16
  transfer : Option Transfer
  /-- A status was read that shows that the words of the next sector can be moved. -/
  ready : Bool

instance decidableEqRequestType : DecidableEq RequestType
  | .read, .read => .isTrue rfl
  | .write, .write => .isTrue rfl
  | .read, .write => .isFalse (by rintro ⟨⟩)
  | .write, .read => .isFalse (by rintro ⟨⟩)

/-- The transfer of a command. -/
def transferType (command : UInt8) : Option RequestType :=
  if command = ataCmdReadPio then some .read
  else if command = ataCmdWritePio then some .write
  else none

namespace Disks

/-- The drive that is selected. -/
def drive (d : Disks) (base : ℕ) : ℕ := (d.regs (base + ataRegHdDevSelect)).toNat / 2 ^ 4 % 2

/-- A command is for the sectors that are in the registers. -/
def command (d : Disks) (base : ℕ) (value : UInt8) : Disks :=
  { d with
    transfer := (transferType value).map fun type =>
      ⟨type, d.drive base, 256 * (⟨d.regs, []⟩ : TaskFile).location base,
        256 * (⟨d.regs, []⟩ : TaskFile).count base⟩
    ready := false }

/-- The transfer, if it has a word that can be moved now. -/
def pending (d : Disks) (type : RequestType) : Option Transfer :=
  d.transfer.filter fun t => t.type = type ∧ t.left ≠ 0 ∧ d.ready

/-- A word has been moved. At the end of a sector the drive has to be seen ready again. -/
def moved (d : Disks) (t : Transfer) : Disks :=
  { d with
    transfer := some { t with word := t.word + 1, left := t.left - 1 }
    ready := (t.left - 1) % 256 ≠ 0 }

/-- An access of a port, and what it reads there. -/
def apply (d : Disks) (base : ℕ) (value : UInt16) : Access → Disks
  | .inByte port =>
    if port = base + ataRegStatus ∧ statusReady value.toUInt8 then { d with ready := true } else d
  | .outByte port byte =>
    if port = base + ataRegCommand then d.command base byte
    else { d with regs := Function.update d.regs port byte }
  | .inWord port =>
    if port = base then
      match d.pending .read with
      | some t => d.moved t
      | none => { d with transfer := none }
    else d
  | .outWord port word =>
    if port = base then
      match d.pending .write with
      | some t =>
        { d.moved t with
          words := Function.update d.words t.drive (Function.update (d.words t.drive) t.word word) }
      | none => { d with transfer := none }
    else d

end Disks

/-- The port of an access. -/
def Access.port : Access → ℕ
  | .inByte port => port
  | .outByte port _ => port
  | .inWord port => port
  | .outWord port _ => port

section

variable (drive : Drive) (base : ℕ → ℕ) (disks₀ : ℕ → Disks)

/-- The disks of each channel after some accesses, the latest one first. -/
def disksAfter : List Access → ℕ → Disks
  | [], c => disks₀ c
  | a :: earlier, c =>
    (disksAfter earlier c).apply (base c) (drive earlier.length a.port) a

/-- The words that were read are those of the transfers, and no status showed an error. -/
structure Honest (accesses : List Access) : Prop where
  word : ∀ earlier c t, c < 2 → (.inWord (base c) :: earlier) <:+ accesses →
    (disksAfter drive base disks₀ earlier c).pending .read = some t →
      drive earlier.length (base c) = (disksAfter drive base disks₀ earlier c).words t.drive t.word
  quiet : ∀ earlier c, (.inByte (base c + ataRegStatus) :: earlier) <:+ accesses →
    statusHasError (drive earlier.length (base c + ataRegStatus)).toUInt8 = false

end

/-! ## The triples of the driver -/

/-- The bases of the channels. -/
def IdeControl.base (ctrl : IdeControl) (c : ℕ) : ℕ := (ctrl.channels c).base

section

variable (drive : Drive) (ctrl : IdeControl) (disks₀ : ℕ → Disks)

/-- The accesses of a run come one after another, and the disks are honest. -/
def honestly : History Bus where
  le s s' := s.accesses <:+ s'.accesses
  refl _ := List.suffix_refl _
  trans := List.IsSuffix.trans
  Fits s := Honest drive ctrl.base disks₀ s.accesses
  anti hle h := ⟨fun earlier c t hc hs => h.word earlier c t hc (hs.trans hle),
    fun earlier c hs => h.quiet earlier c (hs.trans hle)⟩

/-- The disks of a channel in a state of the run. -/
def Bus.disks (s : Bus) (c : ℕ) : Disks := disksAfter drive ctrl.base disks₀ s.accesses c

/-- The words of all disks, the transfer on the channel `c` and whether its drive was seen ready,
and the buffer. -/
structure Phase (words : ℕ → ℕ → ℕ → UInt16) (c : ℕ) (x : Option Transfer) (ready : Prop)
    (buffer : ℕ → UInt16) (s : Bus) : Prop where
  words : ∀ c' < 2, (s.disks drive ctrl disks₀ c').words = words c'
  transfer : (s.disks drive ctrl disks₀ c).transfer = x
  ready : ready → (s.disks drive ctrl disks₀ c).ready = true
  buffer : s.buffer = buffer

end

section

variable {drive : Drive} {fuel : ℕ} {ctrl : IdeControl} {disks₀ : ℕ → Disks} {d : Disks}
  {words : ℕ → ℕ → ℕ → UInt16} {c base : ℕ} {x : Option Transfer} {ready : Prop}
  {buffer : ℕ → UInt16} {value : UInt16} {port : ℕ}

@[simp] theorem words_inByte : (d.apply base value (.inByte port)).words = d.words := by
  rw [Disks.apply]
  split <;> rfl

@[simp] theorem transfer_inByte : (d.apply base value (.inByte port)).transfer = d.transfer := by
  rw [Disks.apply]
  split <;> rfl

theorem ready_inByte (h : d.ready = true) :
    (d.apply base value (.inByte port)).ready = true := by
  rw [Disks.apply]
  split
  · rfl
  · exact h

theorem meets_regRead (reg : ℕ) : Meets (honestly drive ctrl disks₀)
    (Phase drive ctrl disks₀ words c x ready buffer) (ideRegRead drive (ctrl.channels c) reg)
    fun v s => Phase drive ctrl disks₀ words c x
      (ready ∨ reg = ataRegStatus ∧ statusReady v) buffer s ∧
        (reg = ataRegStatus → statusHasError v = false) := by
  rintro s _ _ ⟨⟩
  refine ⟨List.suffix_cons _ _, fun hfits h => ⟨⟨fun c' hc' => ?_, ?_, ?_, h.buffer⟩, ?_⟩⟩
  · exact words_inByte.trans (h.words c' hc')
  · exact transfer_inByte.trans h.transfer
  · rintro (hready | ⟨rfl, hready⟩)
    · exact ready_inByte (h.ready hready)
    · show (Disks.apply _ _ _ (.inByte _)).ready = true
      rw [Disks.apply, if_pos ⟨rfl, hready⟩]
  · rintro rfl
    exact hfits.quiet s.accesses c (List.suffix_refl _)

theorem meets_channelReady : Meets (honestly drive ctrl disks₀)
    (Phase drive ctrl disks₀ words c x ready buffer)
    (ideChannelReady drive (ctrl.channels c))
    fun v => Phase drive ctrl disks₀ words c x (ready ∨ v = true) buffer := by
  refine (meets_regRead _).bind fun v => ?_
  refine (Meets.pure _).pre fun s hs => ?_
  exact ⟨hs.1.words, hs.1.transfer, fun h => hs.1.ready (h.imp_right fun h => ⟨rfl, h⟩),
    hs.1.buffer⟩

theorem meets_channelHasError : Meets (honestly drive ctrl disks₀)
    (Phase drive ctrl disks₀ words c x ready buffer)
    (ideChannelHasError drive (ctrl.channels c))
    fun v s => v = false ∧ Phase drive ctrl disks₀ words c x ready buffer s := by
  refine (meets_regRead _).bind fun v => ?_
  refine (Meets.pure _).pre fun s hs => ⟨hs.2 rfl, ?_⟩
  exact ⟨hs.1.words, hs.1.transfer, fun h => hs.1.ready (.inl h), hs.1.buffer⟩

theorem Phase.weaken {ready' : Prop} {s : Bus}
    (h : Phase drive ctrl disks₀ words c x ready buffer s) (hready : ready' → ready) :
    Phase drive ctrl disks₀ words c x ready' buffer s :=
  ⟨h.words, h.transfer, fun hr => h.ready (hready hr), h.buffer⟩

/-- A loop that waits ends with a drive that was seen ready. -/
theorem meets_readyLoop : Meets (honestly drive ctrl disks₀)
    (Phase drive ctrl disks₀ words c x ready buffer) (readyLoop drive (ctrl.channels c) fuel)
    fun _ => Phase drive ctrl disks₀ words c x True buffer := by
  induction fuel with
  | zero => exact .failure
  | succ fuel ih =>
    refine meets_channelReady.bind fun v => .ite (fun hv => ?_) fun hv => ?_
    · exact (Meets.pure ()).pre fun s hs => hs.weaken fun _ => .inr hv
    · exact ih.pre fun s hs => hs.weaken .inl

theorem meets_pollLoop : Meets (honestly drive ctrl disks₀)
    (Phase drive ctrl disks₀ words c x ready buffer) (pollLoop drive (ctrl.channels c) fuel)
    fun _ => Phase drive ctrl disks₀ words c x True buffer := by
  induction fuel with
  | zero => exact .failure
  | succ fuel ih =>
    refine meets_channelReady.bind fun v => .ite (fun hv => ?_) fun hv => ?_
    · exact (Meets.pure ()).pre fun s hs => hs.weaken fun _ => .inr hv
    · refine (meets_channelHasError.pre fun s hs => hs.weaken .inl).bind fun e =>
        .ite (fun he => ?_) fun he => ?_
      · -- there are no errors
        have hread : Meets (honestly drive ctrl disks₀)
            (Phase drive ctrl disks₀ words c x True buffer)
            (do let _ ← ideRegRead drive (ctrl.channels c) ataRegError)
            fun _ => Phase drive ctrl disks₀ words c x True buffer :=
          (meets_regRead _).bind fun _ => (Meets.pure ()).pre fun s hs => hs.1.weaken .inl
        refine hread.pre fun s hs => ?_
        rw [hs.1] at he
        cases he
      · exact ih.pre fun s hs => hs.2

theorem meets_turns {H : History Bus} {I : ℕ → Bus → Prop} {f : ℕ → Io Unit} {n : ℕ}
    (h : ∀ i < n, Meets H (I i) (f i) fun _ => I (i + 1)) :
    Meets H (I 0) (turns f n) fun _ => I n := by
  induction n with
  | zero => exact Meets.pure (Q := fun _ => I 0) ()
  | succ n ih =>
    refine (ih fun i hi => h i (Nat.lt_succ_of_lt hi)).bind fun _ => ?_
    exact h n (Nat.lt_succ_self n)

theorem meets_polling {α : Type} {H : History Bus} {P : Bus → Prop} {Q : α → Bus → Prop} {m : Io α}
    (h : Meets H P m Q) (hle : ∀ s s' l, H.le s s' → H.le s { s' with polled := l })
    (hfits : ∀ s l, H.Fits { s with polled := l } → H.Fits s)
    (hQ : ∀ a s l, Q a s → Q a { s with polled := l }) : Meets H P (polling m) Q := by
  intro s a s' hrun
  rcases hm : m s with ⟨r, s₁⟩
  rw [polling, hm] at hrun
  cases hrun
  obtain ⟨hs, hpost⟩ := h s a s₁ hm
  exact ⟨hle _ _ _ hs, fun hf hP => hQ _ _ _ (hpost (hfits _ _ hf) hP)⟩

theorem meets_channelPoll : Meets (honestly drive ctrl disks₀)
    (Phase drive ctrl disks₀ words c x ready buffer)
    (ideChannelPoll drive fuel (ctrl.channels c))
    fun _ => Phase drive ctrl disks₀ words c x True buffer := by
  have hturn : Meets (honestly drive ctrl disks₀) (Phase drive ctrl disks₀ words c x ready buffer)
      (do let _ ← ideRegRead drive (ctrl.channels c) ataRegAltStatus)
      fun _ => Phase drive ctrl disks₀ words c x ready buffer :=
    (meets_regRead _).bind fun _ => (Meets.pure ()).pre fun s hs => hs.1.weaken .inl
  have hturns := meets_turns (n := 4)
    (I := fun _ => Phase drive ctrl disks₀ words c x ready buffer) fun _ _ => hturn
  exact meets_polling (hturns.bind fun _ => meets_pollLoop) (fun _ _ _ h => h) (fun _ _ h => h)
    fun _ _ _ h => ⟨h.words, h.transfer, h.ready, h.buffer⟩

end

end C4OS.Ata
