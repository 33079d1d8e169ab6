import ClearSign.Proofs.Transaction
import ClearSign.Session.Run

/-!
This module contains everything that a signing command can do to a session. What follows about the
session is derived from these cases, the commands themselves are not opened again.
-/

namespace ClearSign

namespace Upload

theorem receive_eq_ok {buffer after : TieredBuffer} {started : Bool}
    (h : receive buffer started frame = .ok (progress, after)) :
    ∃ payload, frame.payload = .ok payload ∧
      ((Phase.ofByte frame.p1 = .ok .init ∧ progress = .started payload ∧ after = buffer.rewind) ∨
        (Phase.ofByte frame.p1 = .ok .add ∧ progress = .ongoing ∧ started ∧
          buffer.append payload = .ok after) ∨
        (Phase.ofByte frame.p1 = .ok .last ∧ progress = .complete ∧ started ∧
          buffer.append payload = .ok after)) := by
  rw [receive, bind_eq_ok] at h
  obtain ⟨phase, hphase, h⟩ := h
  split at h
  · contradiction
  · next payload hpayload =>
    refine ⟨payload, hpayload, ?_⟩
    split at h
    · next hinit =>
      cases h
      exact .inl ⟨hinit ▸ hphase, rfl, rfl⟩
    · next hinit =>
      split at h
      · contradiction
      · next hstarted =>
        simp only [Bool.not_eq_true', Bool.not_eq_false] at hstarted
        split at h
        · contradiction
        · next longer happend =>
          cases h
          cases phase with
          | init => contradiction
          | add => exact .inr (.inl ⟨hphase, rfl, hstarted, happend⟩)
          | last => exact .inr (.inr ⟨hphase, rfl, hstarted, happend⟩)

theorem receive_eq_error {buffer : TieredBuffer} {started : Bool}
    (h : receive buffer started frame = .error status) :
    Phase.ofByte frame.p1 = .error status ∨
      ((∃ short, frame.payload = .error short) ∧ status = .wrongLength) ∨
      ∃ phase payload, Phase.ofByte frame.p1 = .ok phase ∧ frame.payload = .ok payload ∧
        phase ≠ .init ∧
        (started = false ∧ status = .transactionNotInitialized ∨
          ∀ after, buffer.append payload ≠ .ok after) := by
  unfold receive at h
  cases hphase : Phase.ofByte frame.p1 with
  | error refused =>
    rw [hphase, error_bind] at h
    cases h
    exact .inl rfl
  | ok phase =>
    rw [hphase, ok_bind] at h
    right
    split at h
    · next short hpayload =>
      cases h
      exact .inl ⟨⟨short, hpayload⟩, rfl⟩
    · next payload hpayload =>
      right
      split at h
      · contradiction
      · next hinit =>
        refine ⟨phase, payload, rfl, hpayload, hinit, ?_⟩
        split at h
        · next hstarted =>
          cases h
          exact .inl ⟨by simpa using hstarted, rfl⟩
        · split at h
          · next full happend =>
            right
            intro after hok
            rw [happend] at hok
            contradiction
          · contradiction

end Upload

namespace Session

theorem perform_readRequest_json (device : Device) (key : Octets 32) (session : Session) :
    (readRequest device .json key).perform session =
      let (outcome, transaction) :=
        (Transaction.readJson device session.buffer.contents key).perform session.transaction
      (outcome, { session with transaction }) := rfl

theorem perform_readRequest_digest (device : Device) (key : Octets 32) (session : Session) :
    (readRequest device .digest key).perform session =
      let (outcome, transaction) :=
        (Transaction.readDigest device session.buffer.contents key session.expert).perform
          session.transaction
      (outcome, { session with transaction }) := rfl

theorem perform_readRequest_transfer (device : Device) (key : Octets 32) (session : Session) :
    (readRequest device .transfer key).perform session =
      let (outcome, transaction, expansion) :=
        (Transaction.readTransfer device session.buffer.contents key).perform
          (session.transaction, session.expansion)
      (outcome, { session with transaction, expansion }) := rfl

theorem exists_perform_readRequest (device : Device) (kind : PayloadKind) (key : Octets 32)
    (session : Session) :
    ∃ transaction expansion, expansion.tiers = session.expansion.tiers ∧
      ((readRequest device kind key).perform session).2 =
        { session with transaction, expansion } := by
  cases kind with
  | json => exact ⟨_, _, rfl, rfl⟩
  | digest => exact ⟨_, _, rfl, rfl⟩
  | transfer =>
    rw [perform_readRequest_transfer]
    exact ⟨_, _, Transaction.tiers_readTransfer device _ key _ _, rfl⟩

theorem exists_perform_prepareReview (device : Device) (kind : PayloadKind) (key : Octets 32)
    (session : Session) :
    ∃ transaction expansion, expansion.tiers = session.expansion.tiers ∧
      ((prepareReview device kind key).perform session).2 =
        { session with transaction, expansion } := by
  obtain ⟨transaction, expansion, htiers, hread⟩ :=
    exists_perform_readRequest device kind key session
  refine ⟨transaction, expansion, htiers, ?_⟩
  rw [prepareReview, Attempt.perform_bind]
  rcases hperform : (readRequest device kind key).perform session with ⟨outcome, after⟩
  rw [hperform] at hread
  cases outcome with
  | error fault => exact hread
  | ok =>
    dsimp only
    rw [Attempt.perform_bind, Attempt.perform_get]
    dsimp only
    cases after.transaction.validate after.source with
    | error fault => exact hread
    | ok => exact hread

theorem prepareReview_eq_ok {session after : Session}
    (h : (prepareReview device kind key).perform session = (.ok (), after)) :
    (readRequest device kind key).perform session = (.ok (), after) ∧
      after.transaction.validate after.source = .ok () := by
  rw [prepareReview, Attempt.perform_bind_eq_ok] at h
  obtain ⟨⟨⟩, read, hread, h⟩ := h
  rw [Attempt.perform_bind_eq_ok] at h
  obtain ⟨kept, same, hsame, h⟩ := h
  cases hsame
  obtain ⟨hvalid, rfl⟩ := Attempt.perform_lift_eq_ok.1 h
  exact ⟨hread, hvalid⟩

inductive Completes (device : Device) (keys : Keystore) (kind : PayloadKind) (session : Session)
    (frame : Frame) (path : KeyPath) : Session × Answer → Prop where
  | keyless : keys.publicKey path = none →
      Completes device keys kind session frame path
        (({ session with uploading := false } : Session).reset, { status := .executionError })
  | refused (key : Octets 32) (fault : Fault) (after : Session) :
      keys.publicKey path = some key →
      (prepareReview device kind key).perform { session with uploading := false } =
        (.error fault, after) →
      Completes device keys kind session frame path (after.reset, refusal fault frame)
  | opened (key : Octets 32) (after : Session) :
      keys.publicKey path = some key →
      (prepareReview device kind key).perform { session with uploading := false } =
        (.ok (), after) →
      Completes device keys kind session frame path
        ({ after with prompt := .sign }, { status := .success, deferred := true })

theorem completes (device : Device) (keys : Keystore) (kind : PayloadKind) (session : Session)
    (frame : Frame) (hrequest : session.request = some (path, kind')) :
    Completes device keys kind session frame path
      (session.completeUpload device keys kind frame) := by
  unfold completeUpload
  dsimp only
  split
  · next hnone =>
    rw [hnone] at hrequest
    contradiction
  · next asked _ hsome =>
    rw [hsome] at hrequest
    cases hrequest
    split
    · next hkey => exact .keyless hkey
    · next key hkey =>
      split
      · next after hreview => exact .opened key after hkey hreview
      · next fault after hreview => exact .refused key fault after hkey hreview

inductive Signs (device : Device) (keys : Keystore) (kind : PayloadKind) (session : Session)
    (frame : Frame) : Session × Answer → Prop where
  | refused (status : Status) :
      Upload.receive session.buffer (session.initialized kind) frame = .error status →
      Signs device keys kind session frame (session.reset, { status })
  | badPath (payload : Bytes) (status : Status) :
      Phase.ofByte frame.p1 = .ok .init → frame.payload = .ok payload →
      KeyPath.read payload = .error status →
      Signs device keys kind session frame
        (({ session with buffer := session.buffer.rewind } : Session).reset, { status })
  | started (payload : Bytes) (path : KeyPath) :
      Phase.ofByte frame.p1 = .ok .init → frame.payload = .ok payload →
      KeyPath.read payload = .ok path →
      Signs device keys kind session frame
        ({ ({ session with buffer := session.buffer.rewind } : Session).reset with
            request := some (path, kind), uploading := true }, { status := .success })
  | added (payload : Bytes) (buffer : TieredBuffer) :
      Phase.ofByte frame.p1 = .ok .add → frame.payload = .ok payload →
      session.initialized kind → session.buffer.append payload = .ok buffer →
      Signs device keys kind session frame ({ session with buffer }, { status := .success })
  | completed (payload : Bytes) (buffer : TieredBuffer) (path : KeyPath)
      (result : Session × Answer) :
      Phase.ofByte frame.p1 = .ok .last → frame.payload = .ok payload →
      session.initialized kind → session.buffer.append payload = .ok buffer →
      session.request = some (path, kind) →
      Completes device keys kind { session with buffer } frame path result →
      Signs device keys kind session frame result

theorem request_of_initialized {session : Session} (h : session.initialized kind) :
    session.uploading ∧ ∃ path, session.request = some (path, kind) := by
  simp only [initialized, Bool.and_eq_true, beq_iff_eq, Option.map_eq_some_iff, Prod.exists,
    exists_eq_right] at h
  exact h

theorem signs (device : Device) (keys : Keystore) (kind : PayloadKind) (session : Session)
    (frame : Frame) :
    Signs device keys kind session frame (session.sign device keys kind frame) := by
  unfold sign
  split
  · next status hreceive => exact .refused status hreceive
  · next progress buffer hreceive =>
    obtain ⟨payload, hpayload, hprogress⟩ := Upload.receive_eq_ok hreceive
    rcases hprogress with ⟨hphase, rfl, rfl⟩ | ⟨hphase, rfl, hinitialized, happend⟩ |
      ⟨hphase, rfl, hinitialized, happend⟩
    · dsimp only [startUpload]
      split
      · next status hpath => exact .badPath payload status hphase hpayload hpath
      · next path hpath => exact .started payload path hphase hpayload hpath
    · exact .added payload buffer hphase hpayload hinitialized happend
    · obtain ⟨-, path, hrequest⟩ := request_of_initialized hinitialized
      apply Signs.completed payload buffer path _ hphase hpayload hinitialized happend hrequest
      exact completes device keys kind { session with buffer } frame hrequest

def shownKey? (keys : Keystore) (frame : Frame) : Option (Octets 32) :=
  match frame.payload with
  | .error _ => none
  | .ok payload =>
    match KeyPath.read payload with
    | .error _ => none
    | .ok path => if frame.p1 ≥ 1 then keys.publicKey path else none

theorem shownKey?_eq_some {frame : Frame} (h : shownKey? keys frame = some key) :
    ∃ payload path, frame.payload = .ok payload ∧ KeyPath.read payload = .ok path ∧
      1 ≤ frame.p1 ∧ keys.publicKey path = some key := by
  unfold shownKey? at h
  split at h
  · contradiction
  next payload hpayload =>
  split at h
  · contradiction
  next path hpath =>
  split at h
  · next hp1 => exact ⟨payload, path, hpayload, hpath, hp1, h⟩
  · contradiction

inductive Dispatches (device : Device) (keys : Keystore) (session : Session) (frame : Frame) :
    Session × Answer → Prop where
  | ignored (answer : Answer) :
      (frame.instructionClass ≠ 0 ∨ Instruction.ofByte? frame.instruction = none ∨
        Instruction.ofByte? frame.instruction = some .getVersion ∨
        Instruction.ofByte? frame.instruction = some .getAddress ∧ shownKey? keys frame = none) →
      Dispatches device keys session frame (session, answer)
  | shown (key : Octets 32) :
      frame.instructionClass = 0 → Instruction.ofByte? frame.instruction = some .getAddress →
      shownKey? keys frame = some key →
      Dispatches device keys session frame
        ({ session.reset with prompt := .address key }, { status := .success, deferred := true })
  | signed (kind : PayloadKind) (result : Session × Answer) :
      frame.instructionClass = 0 → Instruction.ofByte? frame.instruction = some (.sign kind) →
      Signs device keys kind session frame result → Dispatches device keys session frame result

theorem dispatches (device : Device) (keys : Keystore) (session : Session) (frame : Frame) :
    Dispatches device keys session frame (session.dispatch device keys frame) := by
  unfold dispatch
  split
  · next hclass => exact .ignored _ (.inl hclass)
  · next hclass =>
    rw [Decidable.not_not] at hclass
    split
    · next hnone => exact .ignored _ (.inr (.inl hnone))
    · next hversion => exact .ignored _ (.inr (.inr (.inl hversion)))
    · next haddress =>
      have hignored : ∀ answer, shownKey? keys frame = none →
          Dispatches device keys session frame (session, answer) := by
        intro answer hshown
        exact .ignored _ (.inr (.inr (.inr ⟨haddress, hshown⟩)))
      unfold getAddress
      split
      · next hpayload => exact hignored _ (by simp [shownKey?, hpayload])
      · next payload hpayload =>
        split
        · next hpath => exact hignored _ (by simp [shownKey?, hpayload, hpath])
        · next path hpath =>
          split
          · next hkey => exact hignored _ (by simp [shownKey?, hpayload, hpath, hkey])
          · next key hkey =>
            split
            · next hp1 =>
              exact .shown key hclass haddress (by simp [shownKey?, hpayload, hpath, hkey, hp1])
            · next hp1 =>
              split
              · exact hignored _ (by simp [shownKey?, hpayload, hpath, hp1])
              · exact hignored _ (by simp [shownKey?, hpayload, hpath, hp1])
    · next kind hsign => exact .signed kind _ hclass hsign (signs device keys kind session frame)

end Session

end ClearSign
