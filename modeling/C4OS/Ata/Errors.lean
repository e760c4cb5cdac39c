import C4OS.Ata.Model

/-!
# Errors of a drive

`ide_channel_poll` ends when the drive reports an error, but it returns nothing, and
`ata_handle_access` answers every request for a device that exists with `BLOCK_MSG_COMPLETED`, once
the transfer ends (`answers_completed`). So no error is ever reported (`errors_reported_iff`).
-/

namespace C4OS.Ata

open Foundations

variable {drive : Drive} {fuel : ℕ} {ctrl : IdeControl} {buffer : ℕ → UInt16} {request : Request}
  {reply : Reply} {t : ℕ}

/-- The channel of the device of a request. -/
def IdeControl.channelOf (ctrl : IdeControl) (request : Request) : IdeChannel :=
  ctrl.channels (ctrl.devices request.device).channel

section

variable (drive : Drive) (ctrl : IdeControl) (buffer : ℕ → UInt16) (request : Request)

/-- The reply that is sent, if the loops end. -/
def Answers (reply : Reply) : Prop := ∃ fuel, (run drive fuel ctrl buffer request).1 = some reply

/-- A time at which `ide_channel_poll` runs for the transfer. -/
def Polled (t : ℕ) : Prop := ∃ fuel, t ∈ (run drive fuel ctrl buffer request).2.polled

/-- `ide_channel_has_error` would be true at a time. -/
def ErrorAt (t : ℕ) : Prop :=
  statusHasError (drive t ((ctrl.channelOf request).base + ataRegStatus)).toUInt8

/-- An error at a time when `ide_channel_poll` runs is reported. -/
def ErrorsReported : Prop :=
  (∃ t, Polled drive ctrl buffer request t ∧ ErrorAt drive ctrl request t) →
    Answers drive ctrl buffer request .error ∧ ¬ Answers drive ctrl buffer request .completed

end

/-- Code that ends with a value does so whenever it ends. -/
theorem fst_bind_pure {α β : Type} (m : Io α) (b : β) (s : Bus) :
    ((m >>= fun _ => pure b : Io β) s).1 = none ∨
      ((m >>= fun _ => pure b : Io β) s).1 = some b := by
  rcases h : m s with ⟨_ | a, s'⟩
  · exact .inl (congrArg Prod.fst (Code.bind_none h))
  · exact .inr (congrArg Prod.fst (Code.bind_some h))

theorem run_absent (h : (ctrl.devices request.device).exists' = false) :
    run drive fuel ctrl buffer request = (some .error, ⟨[], [], buffer⟩) := by
  rw [run, ataHandleAccess]
  simp [h]
  rfl

/-- A request for a device that exists is answered in one way only. -/
theorem answers_completed (h : (ctrl.devices request.device).exists' = true)
    (hans : Answers drive ctrl buffer request reply) : reply = .completed := by
  obtain ⟨fuel, hrun⟩ := hans
  rw [run, ataHandleAccess] at hrun
  simp only [h, not_true_eq_false, if_false] at hrun
  have hend : ∀ m : Io Unit, ((m >>= fun _ => pure Reply.completed : Io Reply)
      ⟨[], [], buffer⟩).1 = some reply → reply = .completed := by
    intro m hm
    rcases fst_bind_pure m Reply.completed ⟨[], [], buffer⟩ with hnone | hsome
    · cases hnone.symm.trans hm
    · exact (Option.some.inj (hsome.symm.trans hm)).symm
  cases htype : request.type with
  | read =>
    rw [htype] at hrun
    exact hend _ hrun
  | write =>
    rw [htype] at hrun
    exact hend _ hrun

/-- **No error of a drive is reported.** For every behaviour of the drive and every request: an
error at a time when `ide_channel_poll` runs is reported just when there is none. -/
theorem errors_reported_iff (drive : Drive) (ctrl : IdeControl) (buffer : ℕ → UInt16)
    (request : Request) : ErrorsReported drive ctrl buffer request ↔
      ∀ t, Polled drive ctrl buffer request t → ¬ ErrorAt drive ctrl request t := by
  constructor
  · intro hreported t hpolled herror
    obtain ⟨hanswer, -⟩ := hreported ⟨t, hpolled, herror⟩
    cases hexists : (ctrl.devices request.device).exists' with
    | false =>
      obtain ⟨fuel, hmem⟩ := hpolled
      rw [run_absent hexists] at hmem
      exact absurd hmem List.not_mem_nil
    | true => exact absurd (answers_completed hexists hanswer) (by decide)
  · rintro hnone ⟨t, hpolled, herror⟩
    exact absurd herror (hnone t hpolled)

/-- A drive that is ready, with the bit of an error in its status. -/
def failingDrive : Drive := fun _ _ => 0x41

/-- One drive, on the primary channel. -/
def oneDrive : IdeControl where
  channels := fun _ => ⟨0x1f0⟩
  devices := fun _ => ⟨true, 0, 0⟩

/-- The read of a sector from the failing drive. -/
theorem failingDrive_not_reported : ¬ ∀ (drive : Drive) (ctrl : IdeControl) (buffer : ℕ → UInt16)
    (request : Request), ErrorsReported drive ctrl buffer request := by
  intro h
  have hpolled : Polled failingDrive oneDrive (fun _ => 0) ⟨.read, 0, 0, 1⟩ 7 :=
    ⟨1, by decide +kernel⟩
  obtain ⟨hanswer, -⟩ := h failingDrive oneDrive (fun _ => 0) ⟨.read, 0, 0, 1⟩
    ⟨7, hpolled, by unfold ErrorAt; decide⟩
  exact absurd (answers_completed rfl hanswer) (by decide)

end C4OS.Ata
