import ClearSign.Proofs.Memory.TieredBuffer
import ClearSign.Proofs.Session.Reply

/-!
This module contains what an upload looks like from the outside: what each event means for it, and
the proof that the session keeps exactly the request that these events make up.
-/

namespace ClearSign

inductive Move where
  | quiet
  | start (kind : PayloadKind) (path : KeyPath)
  | add (kind : PayloadKind) (chunk : Bytes)
  | last (kind : PayloadKind) (chunk : Bytes)
  | stop
  deriving DecidableEq

def Frame.packetMove (kind : PayloadKind) (frame : Frame) : Move :=
  -- A packet that is cut short, without a known phase or without a path ends whatever is uploaded.
  match Phase.ofByte frame.p1, frame.payload with
  | .ok .init, .ok payload =>
    match KeyPath.read payload with
    | .ok path => .start kind path
    | .error _ => .stop
  | .ok .add, .ok payload => .add kind payload
  | .ok .last, .ok payload => .last kind payload
  | .error _, _ | _, .error _ => .stop

def Frame.move (keys : Keystore) (frame : Frame) : Move :=
  -- Other classes and instructions, the version, and keys that are not to be confirmed are quiet.
  if frame.instructionClass ≠ 0 then .quiet
  else
    match Instruction.ofByte? frame.instruction with
    | none | some .getVersion => .quiet
    | some .getAddress => if (Session.shownKey? keys frame).isSome then .stop else .quiet
    | some (.sign kind) => frame.packetMove kind

def Event.move (keys : Keystore) : Event → Move
  | .command received before =>
    match Frame.ofBuffer before.buffer received with
    | .error _ => .quiet
    | .ok frame => frame.move keys
  | .reset => .stop
  -- The holder can accept or reject only when the upload is over.
  | .setExpert _ | .accept _ | .reject => .quiet

theorem Event.move_command (keys : Keystore)
    (hframe : Frame.ofBuffer before.buffer received = .ok frame) :
    (Event.command received before).move keys = frame.move keys := by
  simp only [move, hframe]

theorem Event.move_command_of_error (keys : Keystore)
    (hframe : Frame.ofBuffer before.buffer received = .error short) :
    (Event.command received before).move keys = .quiet := by
  simp only [move, hframe]

theorem Frame.move_of_sign {keys : Keystore} {frame : Frame} (hclass : frame.instructionClass = 0)
    (hsign : Instruction.ofByte? frame.instruction = some (.sign kind)) :
    frame.move keys = frame.packetMove kind := by
  simp [move, hclass, hsign]

structure PartialRequest where
  kind : PayloadKind
  path : KeyPath
  content : Bytes

def Move.advance (capacity : Nat) : Option PartialRequest → Move → Option PartialRequest
  | request, .quiet => request
  | _, .start kind path => some { kind, path, content := [] }
  | some request, .add kind chunk =>
    if request.kind = kind ∧ request.content.length + chunk.length ≤ capacity then
      some { request with content := request.content ++ chunk }
    else none
  | none, .add _ _ | _, .last _ _ | _, .stop => none

namespace Session

def partialRequest? (session : Session) : Option PartialRequest :=
  if session.uploading then
    session.request.map fun (path, kind) => { kind, path, content := session.buffer.contents }
  else none

structure Sound (device : Device) (session : Session) : Prop where
  valid : session.buffer.Valid
  capacity : session.buffer.capacity = max device.ramSize device.flashSize
  idle : session.uploading → session.prompt = .idle

theorem sound_fresh (device : Device) : (fresh device).Sound device :=
  ⟨TieredBuffer.valid_fresh _ _, TieredBuffer.capacity_fresh _ _, fun _ => rfl⟩

theorem sound_reset {session : Session} (h : session.Sound device) : session.reset.Sound device :=
  ⟨TieredBuffer.valid_rewind _, (TieredBuffer.capacity_rewind _).trans h.capacity, fun _ => rfl⟩

@[simp]
theorem partialRequest?_reset (session : Session) : session.reset.partialRequest? = none := rfl

theorem partialRequest?_of_initialized {session : Session} (h : session.initialized kind) :
    ∃ path, session.request = some (path, kind) ∧
      session.partialRequest? = some { kind, path, content := session.buffer.contents } := by
  obtain ⟨huploading, path, hrequest⟩ := request_of_initialized h
  exact ⟨path, hrequest, by simp [partialRequest?, huploading, hrequest]⟩

theorem initialized_of_partialRequest? {session : Session} {request : PartialRequest}
    (h : session.partialRequest? = some request) :
    session.initialized request.kind ∧ session.request = some (request.path, request.kind) ∧
      session.buffer.contents = request.content := by
  unfold partialRequest? at h
  split at h
  · next huploading =>
    rw [Option.map_eq_some_iff] at h
    obtain ⟨⟨path, kind⟩, hrequest, rfl⟩ := h
    exact ⟨by simp [initialized, huploading, hrequest], hrequest, rfl⟩
  · contradiction

theorem advance_of_refused {session : Session} (hsound : session.Sound device)
    (h : Upload.receive session.buffer (session.initialized kind) frame = .error status) :
    (frame.packetMove kind).advance (max device.ramSize device.flashSize) session.partialRequest? =
      none := by
  -- a chunk is refused without an upload of its kind, or without room for it
  have hchunk : ∀ chunk, session.initialized kind = false ∨
      (∀ after, session.buffer.append chunk ≠ .ok after) →
      (Move.add kind chunk).advance (max device.ramSize device.flashSize) session.partialRequest? =
        none := by
    intro chunk hrefused
    cases hrequest : session.partialRequest? with
    | none => rfl
    | some request =>
      obtain ⟨hinitialized, -, hcontents⟩ := initialized_of_partialRequest? hrequest
      apply if_neg
      rintro ⟨rfl, hroom⟩
      rw [← hcontents, ← hsound.capacity] at hroom
      obtain ⟨after, happend⟩ := (TieredBuffer.append_isOk_iff hsound.valid chunk).2 hroom
      rcases hrefused with hrefused | hrefused
      · rw [hinitialized] at hrefused
        contradiction
      · exact hrefused after happend
  unfold Frame.packetMove
  rcases Upload.receive_eq_error h with hphase | ⟨⟨short, hpayload⟩, -⟩ |
    ⟨phase, payload, hphase, hpayload, hinit, hrefused⟩
  · rw [hphase]
    rfl
  · rw [hpayload]
    cases Phase.ofByte frame.p1 with
    | error => rfl
    | ok phase => cases phase <;> rfl
  · rw [hphase, hpayload]
    cases phase with
    | init => contradiction
    | add =>
      apply hchunk
      rcases hrefused with ⟨hstarted, -⟩ | hfull
      · exact .inl hstarted
      · exact .inr hfull
    | last => rfl

theorem sound_of_completes {session : Session} {result : Session × Answer}
    (hsound : Sound device { session with uploading := false })
    (h : Completes device keys kind session frame path result) :
    result.1.Sound device ∧ result.1.partialRequest? = none := by
  cases h with
  | keyless => exact ⟨sound_reset hsound, rfl⟩
  | refused key fault after hkey hreview =>
    obtain ⟨transaction, expansion, -, hafter⟩ :=
      exists_perform_prepareReview device kind key { session with uploading := false }
    rw [hreview] at hafter
    subst hafter
    exact ⟨sound_reset ⟨hsound.valid, hsound.capacity, hsound.idle⟩, rfl⟩
  | opened key after hkey hreview =>
    obtain ⟨transaction, expansion, -, hafter⟩ :=
      exists_perform_prepareReview device kind key { session with uploading := false }
    rw [hreview] at hafter
    subst hafter
    refine ⟨⟨hsound.valid, hsound.capacity, fun huploading => ?_⟩, rfl⟩
    contradiction

theorem partialRequest?_of_signs {session : Session} {result : Session × Answer}
    (hsound : session.Sound device) (h : Signs device keys kind session frame result) :
    result.1.Sound device ∧
      result.1.partialRequest? =
        (frame.packetMove kind).advance (max device.ramSize device.flashSize)
          session.partialRequest? := by
  cases h with
  | refused status hreceive => exact ⟨sound_reset hsound, (advance_of_refused hsound hreceive).symm⟩
  | badPath payload status hphase hpayload hpath =>
    refine ⟨sound_reset ⟨TieredBuffer.valid_rewind _, ?_, hsound.idle⟩, ?_⟩
    · rw [TieredBuffer.capacity_rewind]
      exact hsound.capacity
    · simp [Frame.packetMove, hphase, hpayload, hpath, Move.advance]
  | started payload path hphase hpayload hpath =>
    refine ⟨⟨TieredBuffer.valid_rewind _, ?_, fun _ => rfl⟩, ?_⟩
    · simp only [reset, TieredBuffer.capacity_rewind]
      exact hsound.capacity
    · simp only [Frame.packetMove, hphase, hpayload, hpath]
      rfl
  | added payload buffer hphase hpayload hinitialized happend =>
    refine ⟨⟨TieredBuffer.valid_of_append hsound.valid happend, ?_, hsound.idle⟩, ?_⟩
    · rw [TieredBuffer.capacity_of_append happend]
      exact hsound.capacity
    · obtain ⟨path, hrequest, -⟩ := partialRequest?_of_initialized hinitialized
      have hroom := (TieredBuffer.append_isOk_iff hsound.valid payload).1 ⟨buffer, happend⟩
      rw [hsound.capacity] at hroom
      have huploading := (request_of_initialized hinitialized).1
      simp [Frame.packetMove, hphase, hpayload, Move.advance, hroom, partialRequest?, huploading,
        hrequest, TieredBuffer.contents_of_append happend]
  | completed payload buffer path result hphase hpayload hinitialized happend hrequest hcompletes =>
    have hmove : (frame.packetMove kind).advance (max device.ramSize device.flashSize)
        session.partialRequest? = none := by
      simp [Frame.packetMove, hphase, hpayload, Move.advance]
    have hsound' : Sound device { session with buffer, uploading := false } := by
      refine ⟨TieredBuffer.valid_of_append hsound.valid happend, ?_, fun huploading => ?_⟩
      · rw [TieredBuffer.capacity_of_append happend]
        exact hsound.capacity
      · contradiction
    rw [hmove]
    exact sound_of_completes hsound' hcompletes

theorem move_of_ignored {keys : Keystore}
    (h : frame.instructionClass ≠ 0 ∨ Instruction.ofByte? frame.instruction = none ∨
      Instruction.ofByte? frame.instruction = some .getVersion ∨
      Instruction.ofByte? frame.instruction = some .getAddress ∧ shownKey? keys frame = none) :
    frame.move keys = .quiet := by
  unfold Frame.move
  rcases h with h | h | h | ⟨h, hshown⟩
  · rw [if_pos h]
  all_goals split
  · rfl
  · rw [h]
  · rfl
  · rw [h]
  · rfl
  · rw [h, hshown]
    rfl

theorem partialRequest?_dispatch {session : Session} (hsound : session.Sound device)
    (keys : Keystore) (frame : Frame) :
    (session.dispatch device keys frame).1.Sound device ∧
      (session.dispatch device keys frame).1.partialRequest? =
        (frame.move keys).advance (max device.ramSize device.flashSize) session.partialRequest? := by
  have hdispatches := dispatches device keys session frame
  generalize session.dispatch device keys frame = result at hdispatches ⊢
  cases hdispatches with
  | ignored answer hignored =>
    rw [move_of_ignored hignored]
    exact ⟨hsound, rfl⟩
  | shown key hclass haddress hshown =>
    have hmove : frame.move keys = .stop := by
      simp [Frame.move, hclass, haddress, hshown]
    rw [hmove]
    exact ⟨⟨TieredBuffer.valid_rewind _, (sound_reset hsound).capacity, nofun⟩, rfl⟩
  | signed kind result hclass hsign hsigns =>
    rw [Frame.move_of_sign hclass hsign]
    exact partialRequest?_of_signs hsound hsigns

theorem partialRequest?_of_isReviewing {session : Session} (hsound : session.Sound device)
    (h : session.isReviewing) : session.partialRequest? = none := by
  unfold partialRequest?
  rw [if_neg]
  intro huploading
  simp [isReviewing, hsound.idle huploading] at h

theorem partialRequest?_step {session : Session} (hsound : session.Sound device) (keys : Keystore)
    (event : Event) :
    (session.step device keys event).1.Sound device ∧
      (session.step device keys event).1.partialRequest? =
        (event.move keys).advance (max device.ramSize device.flashSize) session.partialRequest? := by
  cases event with
  | command received before =>
    cases hframe : Frame.ofBuffer before.buffer received with
    | error short =>
      rw [step_command_of_error device keys session hframe, Event.move_command_of_error keys hframe]
      exact ⟨hsound, rfl⟩
    | ok frame =>
      rw [step_command device keys session hframe, Event.move_command keys hframe]
      exact partialRequest?_dispatch hsound keys frame
  | setExpert on => exact ⟨⟨hsound.valid, hsound.capacity, hsound.idle⟩, rfl⟩
  | reset => exact ⟨sound_reset hsound, rfl⟩
  | accept room =>
    simp only [step, Event.move, Move.advance]
    split
    · next hreviewing =>
      exact ⟨sound_reset hsound, (partialRequest?_of_isReviewing hsound hreviewing).symm⟩
    · exact ⟨hsound, rfl⟩
  | reject =>
    simp only [step, Event.move, Move.advance]
    split
    · next hreviewing =>
      exact ⟨sound_reset hsound, (partialRequest?_of_isReviewing hsound hreviewing).symm⟩
    · exact ⟨hsound, rfl⟩

theorem partialRequest?_run {session : Session} (hsound : session.Sound device) (keys : Keystore)
    (events : List Event) :
    (session.run device keys events).1.Sound device ∧
      (session.run device keys events).1.partialRequest? =
        (events.map (Event.move keys)).foldl (Move.advance (max device.ramSize device.flashSize))
          session.partialRequest? := by
  induction events generalizing session with
  | nil => exact ⟨hsound, rfl⟩
  | cons event events ih =>
    obtain ⟨hsound, hrequest⟩ := partialRequest?_step hsound keys event
    rw [List.map_cons, List.foldl_cons, ← hrequest]
    exact ih hsound

end Session

end ClearSign
