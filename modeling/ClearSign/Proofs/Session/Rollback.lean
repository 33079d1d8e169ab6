import ClearSign.Proofs.Session.Reassembly

/-!
This module contains what is left of a session when a command fails: nothing of the request if the
command was a packet of it, and everything otherwise.
-/

namespace ClearSign

def Event.packet? : Event → Option (PayloadKind × Frame)
  | .command received before =>
    match Frame.ofBuffer before.buffer received with
    | .error _ => none
    | .ok frame =>
      if frame.instructionClass ≠ 0 then none
      else
        match Instruction.ofByte? frame.instruction with
        | some (.sign kind) => some (kind, frame)
        | none | some .getVersion | some .getAddress => none
  | .setExpert _ | .reset | .accept _ | .reject => none

theorem Event.packet?_eq_some {event : Event} (h : event.packet? = some (kind, frame)) :
    ∃ received before, event = .command received before ∧
      Frame.ofBuffer before.buffer received = .ok frame ∧ frame.instructionClass = 0 ∧
      Instruction.ofByte? frame.instruction = some (.sign kind) := by
  cases event with
  | command received before =>
    refine ⟨received, before, rfl, ?_⟩
    simp only [packet?] at h
    split at h
    · contradiction
    · next hframe =>
      split at h
      · contradiction
      · next hclass =>
        split at h
        · next hsign =>
          cases h
          exact ⟨hframe, Decidable.not_not.1 hclass, hsign⟩
        all_goals contradiction
  | setExpert on => contradiction
  | reset => contradiction
  | accept room => contradiction
  | reject => contradiction

theorem Event.packet?_of_sign (hframe : Frame.ofBuffer before.buffer received = .ok frame)
    (hclass : frame.instructionClass = 0)
    (hsign : Instruction.ofByte? frame.instruction = some (.sign kind)) :
    (Event.command received before).packet? = some (kind, frame) := by
  simp [packet?, hframe, hclass, hsign]

namespace Session

/--
Nothing is left in `after` of what `session` had received.
-/
structure RollsBack (session after : Session) : Prop where
  expert : after.expert = session.expert
  buffer : after.buffer.contents = [] ∧ after.buffer.inFlash = false
  expansion : after.expansion.contents = [] ∧ after.expansion.inFlash = false
  transaction : after.transaction = {}
  tokens : after.transaction.tokens = []
  items : after.transaction.items.items = []
  hash : after.transaction.hash.digest = .zero 32 ∧ after.transaction.hash = .empty
  address : after.transaction.address = .zero 64
  kind : after.transaction.kind = .json
  request : after.request = none
  uploading : after.uploading = false
  prompt : after.prompt = .idle

theorem rollsBack_reset {session before : Session} (h : before.expert = session.expert) :
    session.RollsBack before.reset where
  expert := h
  buffer := ⟨rfl, rfl⟩
  expansion := ⟨rfl, rfl⟩
  transaction := rfl
  tokens := rfl
  items := rfl
  hash := ⟨rfl, rfl⟩
  address := rfl
  kind := rfl
  request := rfl
  uploading := rfl
  prompt := rfl

theorem rollsBack_of_signs {session : Session} {result : Session × Answer}
    (h : Signs device keys kind session frame result) (hstatus : result.2.status ≠ .success) :
    session.RollsBack result.1 := by
  cases h with
  | refused => apply rollsBack_reset rfl
  | badPath => apply rollsBack_reset rfl
  | started => contradiction
  | added => contradiction
  | completed payload buffer path result hphase hpayload hinitialized happend hrequest hcompletes =>
    cases hcompletes with
    | keyless =>
      apply rollsBack_reset
      rfl
    | refused key fault after hkey hreview =>
      apply rollsBack_reset
      -- what was read before the fault is dropped with the rest
      obtain ⟨transaction, expansion, -, hafter⟩ := exists_perform_prepareReview device kind key
        { session with buffer, uploading := false }
      rw [hreview] at hafter
      subst hafter
      rfl
    | opened => contradiction

theorem step_of_packet? (device : Device) (keys : Keystore) (session : Session)
    (h : event.packet? = some (kind, frame)) :
    (session.step device keys event).1 = (session.sign device keys kind frame).1 ∧
      (session.step device keys event).2.status? =
        some (session.sign device keys kind frame).2.status := by
  obtain ⟨received, before, rfl, hframe, hclass, hsign⟩ := Event.packet?_eq_some h
  have hdispatch : session.dispatch device keys frame = session.sign device keys kind frame := by
    simp [dispatch, hclass, hsign]
  rw [← hdispatch]
  refine ⟨step_command device keys session hframe, ?_⟩
  exact status?_exchange device keys session hframe

theorem step_of_failed {session : Session}
    (hpacket : (Event.command received before).packet? = none)
    (hstatus : (session.step device keys (.command received before)).2.status? ≠ some .success) :
    (session.step device keys (.command received before)).1 = session := by
  cases hframe : Frame.ofBuffer before.buffer received with
  | error short => apply step_command_of_error device keys session hframe
  | ok frame =>
    have htold := status?_exchange device keys session hframe
    have hstep := step_command device keys session hframe
    have hdispatches := dispatches device keys session frame
    generalize session.dispatch device keys frame = result at hdispatches htold hstep
    rw [hstep]
    cases hdispatches with
    | ignored => rfl
    | shown => contradiction
    | signed kind result hclass hsign =>
      rw [Event.packet?_of_sign hframe hclass hsign] at hpacket
      contradiction

theorem failures_roll_back_or_change_nothing (device : Device) (keys : Keystore)
    (session : Session) :
    (∀ received before,
      let event := Event.command received before
      let after := (session.step device keys event).1
      (session.step device keys event).2.status? ≠ some .success →
        (event.packet?.isSome → session.RollsBack after) ∧
        (event.packet? = none → after = session)) ∧
    (∀ kind frame buffer,
      Upload.receive session.buffer (session.initialized kind) frame = .ok (.complete, buffer) →
        ∃ path, session.request = some (path, kind)) := by
  constructor
  · intro received before event after hstatus
    constructor
    · intro hpacket
      obtain ⟨⟨kind, frame⟩, hpacket⟩ := Option.isSome_iff_exists.1 hpacket
      obtain ⟨hstep, htold⟩ := step_of_packet? device keys session hpacket
      unfold after
      rw [hstep]
      apply rollsBack_of_signs (signs device keys kind session frame)
      intro hsuccess
      rw [hsuccess] at htold
      contradiction
    · intro hpacket
      apply step_of_failed hpacket hstatus
  · intro kind frame buffer hreceive
    obtain ⟨payload, -, hprogress⟩ := Upload.receive_eq_ok hreceive
    rcases hprogress with ⟨-, hprogress, -⟩ | ⟨-, hprogress, -⟩ | ⟨-, -, hinitialized, -⟩
    · contradiction
    · contradiction
    · exact (request_of_initialized hinitialized).2

theorem failures_roll_back_or_change_nothing_digest :
    let keys : Keystore := ⟨fun _ => some (.zero 32), fun _ _ => none⟩
    let path : Bytes := [0x2C, 0, 0, 0x80, 0x72, 0x02, 0, 0x80] ++ List.replicate 12 0
    let exchange (buffer : Bytes) : Exchange := ⟨buffer, 0, 0⟩
    let device : Device := { Device.small with ramSize := 32, flashSize := 32 }
    let init := Upload.packet 0x23 .init path
    let last := Upload.packet 0x23 .last (List.replicate 32 1)
    let frame : Frame := ⟨last, 37, by decide, by decide⟩
    let session := ((fresh device).run device keys [.command 25 (exchange init)]).1
    (∃ buffer, Upload.receive session.buffer (session.initialized .digest) frame =
      .ok (.complete, buffer)) ∧
      (∃ path, session.request = some (path, .digest)) ∧
      session.RollsBack (session.step device keys (.command 37 (exchange last))).1 ∧
      (session.step device keys (.command 5 (exchange [0x80, 0x23, 2, 0, 0]))).1 = session := by
  intro keys path exchange device init last frame session
  obtain ⟨hfails, hkeyed⟩ := failures_roll_back_or_change_nothing device keys session
  have hreceive : Upload.receive session.buffer (session.initialized .digest) frame =
      .ok (.complete, ⟨⟨List.replicate 32 1, []⟩, ⟨[], List.replicate 32 0⟩, false⟩) := by
    decide +kernel
  refine ⟨⟨_, hreceive⟩, hkeyed .digest frame _ hreceive, ?_, ?_⟩
  · apply (hfails 37 (exchange last) _).1
    · decide +kernel
    · decide +kernel
  · apply (hfails 5 (exchange [0x80, 0x23, 2, 0, 0]) _).2
    · decide +kernel
    · decide +kernel

end Session

end ClearSign
