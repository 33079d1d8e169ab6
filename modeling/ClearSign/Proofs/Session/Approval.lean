import ClearSign.Proofs.Session.Faithful
import ClearSign.Proofs.Session.Rollback

/-!
This module contains the proof that a signature is made only for a request that was uploaded in full
after everything else that was signed, dropped or refused.
-/

namespace ClearSign

def Event.Waits (keys : Keystore) (event : Event) : Prop :=
  event.move keys = .quiet ∧ (∀ room, event ≠ .accept room) ∧ event ≠ .reject

theorem Event.move_of_packet? (keys : Keystore) {event : Event}
    (h : event.packet? = some (kind, frame)) : event.move keys = frame.packetMove kind := by
  obtain ⟨received, before, rfl, hframe, hclass, hsign⟩ := packet?_eq_some h
  rw [move_command keys hframe, Frame.move_of_sign hclass hsign]

theorem Frame.advance_of_init {frame : Frame} (h : Phase.ofByte frame.p1 = .ok .init)
    (request : Option PartialRequest) :
    (frame.packetMove kind).advance capacity request =
      (frame.packetMove kind).advance capacity none := by
  unfold packetMove
  rw [h]
  cases frame.payload with
  | error short => rfl
  | ok payload =>
    dsimp only
    cases KeyPath.read payload with
    | error status => rfl
    | ok path => rfl

namespace Session

def signCall? (session : Session) : Event → Option (KeyPath × Octets 32)
  | .accept _ => session.toSign?
  | .command _ _ | .setExpert _ | .reset | .reject => none

inductive Interrupts (device : Device) (keys : Keystore) (session : Session) : Event → Prop where
  | reset : Interrupts device keys session .reset
  | init (event : Event) (kind : PayloadKind) (frame : Frame) :
      event.packet? = some (kind, frame) → Phase.ofByte frame.p1 = .ok .init →
      Interrupts device keys session event
  | refused (event : Event) :
      event.packet?.isSome → (session.step device keys event).2.status? ≠ some .success →
      Interrupts device keys session event
  | shown (received : Nat) (before : Exchange) (frame : Frame) (key : Octets 32) :
      Frame.ofBuffer before.buffer received = .ok frame → frame.instructionClass = 0 →
      Instruction.ofByte? frame.instruction = some .getAddress →
      shownKey? keys frame = some key →
      Interrupts device keys session (.command received before)
  | accepted (room : Nat) : session.isReviewing → Interrupts device keys session (.accept room)
  | rejected : session.isReviewing → Interrupts device keys session .reject

/--
The event brings the last chunk of the request that was uploaded so far, and is told to wait for the
review of `digest`. Only in expert mode, a request is itself the digest.
-/
structure Completing (device : Device) (keys : Keystore) (session : Session) (event : Event)
    (request : PartialRequest) (chunk : Bytes) (digest : Octets 32) : Prop where
  last : event.move keys = .last request.kind chunk
  pending : session.partialRequest? = some request
  deferred : ∃ after, (session.step device keys event).2 = .exchange after ∧
    after.status? = some .success ∧ after.flags = Exchange.deferredFlag
  digest : request.kind = .digest → session.expert ∧ digest.bytes = request.content ++ chunk

/--
An upload that begins with `init`, goes on with `between` and is completed by `last`, which opens
the review of `digest`.
-/
structure Opens (device : Device) (keys : Keystore) (session : Session) (earlier : List Event)
    (init : Event) (between : List Event) (last : Event) (path : KeyPath) (digest : Octets 32) :
    Prop where
  exchange : ∃ request chunk,
    init.move keys = .start request.kind path ∧
    (∀ event ∈ between, event.Continues keys request.kind) ∧
    request.path = path ∧ request.content = uploaded keys between ∧
    (session.run device keys (earlier ++ init :: between)).1.Completing device keys last request
      chunk digest
  welcomed : ((session.run device keys earlier).1.step device keys init).2.status? = some .success
  signable : (session.run device keys (earlier ++ init :: between ++ [last])).1.toSign? =
    some (path, digest)

def Opened (device : Device) (keys : Keystore) (session : Session) (events : List Event)
    (path : KeyPath) (digest : Octets 32) : Prop :=
  ∃ earlier init between last waiting,
    events = earlier ++ init :: between ++ last :: waiting ∧
    session.Opens device keys earlier init between last path digest ∧
    ∀ event ∈ waiting, event.Waits keys

theorem toSign?_eq_some {session : Session} :
    session.toSign? = some (path, digest) ↔
      session.prompt = .sign ∧ (∃ kind, session.request = some (path, kind)) ∧
        session.transaction.hash.digest = digest := by
  unfold toSign?
  split
  · next path' kind' hprompt hrequest =>
    simp only [hprompt, hrequest, Option.some.injEq, Prod.mk.injEq]
    constructor
    · rintro ⟨rfl, rfl⟩
      exact ⟨trivial, ⟨kind', rfl, rfl⟩, rfl⟩
    · rintro ⟨-, ⟨kind, rfl, -⟩, rfl⟩
      exact ⟨rfl, rfl⟩
  · next hnone =>
    constructor
    · intro h
      contradiction
    · rintro ⟨hprompt, ⟨kind, hrequest⟩, -⟩
      exact absurd hrequest (hnone path kind hprompt)

theorem toSign?_of_prompt {session : Session} (h : session.prompt ≠ .sign) :
    session.toSign? = none := by
  rw [Option.eq_none_iff_forall_ne_some]
  rintro ⟨path, digest⟩ hsome
  exact h (toSign?_eq_some.1 hsome).1

theorem isReviewing_of_toSign? {session : Session} (h : session.toSign? = some (path, digest)) :
    session.isReviewing := by
  rw [isReviewing, (toSign?_eq_some.1 h).1]
  rfl

theorem step_eq_of_signCall? {keys keys' : Keystore} (session : Session) (event : Event)
    (hpublic : keys'.publicKey = keys.publicKey)
    (hsign : ∀ path digest, session.signCall? event = some (path, digest) →
      keys'.sign path digest = keys.sign path digest) :
    session.step device keys' event = session.step device keys event := by
  cases event with
  | command received before =>
    simp only [step, exchange, dispatch, getAddress, sign, completeUpload, hpublic]
  | setExpert on => rfl
  | reset => rfl
  | accept room =>
    have happroval : session.approval keys' room = session.approval keys room := by
      unfold approval
      cases hcall : session.toSign? with
      | none => cases session.prompt <;> rfl
      | some call =>
        dsimp only
        rw [hsign call.1 call.2 hcall]
    simp only [step, accept, happroval]
  | reject => rfl

theorem isReviewing_accept (device : Device) (keys : Keystore) (session : Session) (room : Nat) :
    (session.step device keys (.accept room)).1.isReviewing = false := by
  simp only [step]
  split
  · rfl
  · next hidle => exact Bool.not_eq_true _ ▸ hidle

theorem isReviewing_reject (device : Device) (keys : Keystore) (session : Session) :
    (session.step device keys .reject).1.isReviewing = false := by
  simp only [step]
  split
  · rfl
  · next hidle => exact Bool.not_eq_true _ ▸ hidle

theorem flags_step (device : Device) (keys : Keystore) (session : Session)
    (hframe : Frame.ofBuffer before.buffer received = .ok frame)
    (hanswer : (session.dispatch device keys frame).2 = { status := .success, deferred := true }) :
    ∃ after, (session.step device keys (.command received before)).2 = .exchange after ∧
      after.status? = some .success ∧ after.flags = Exchange.deferredFlag := by
  refine ⟨(session.exchange device keys received before).2, rfl, ?_, ?_⟩
  · rw [status?_exchange device keys session hframe, hanswer]
  · rw [exchange_of_ok device keys session hframe, hanswer, Exchange.conclude]
    split
    · rfl
    · rfl

theorem digests_of_prepareReview {session after : Session}
    (h : (prepareReview device .digest key).perform session = (.ok (), after)) :
    session.expert ∧ after.transaction.hash.digest.bytes = session.buffer.contents := by
  obtain ⟨hread, -⟩ := prepareReview_eq_ok h
  rcases hperform : (Transaction.readDigest device session.buffer.contents key
    session.expert).perform session.transaction with ⟨outcome, transaction⟩
  rw [perform_readRequest_digest, hperform] at hread
  cases hread
  obtain ⟨hexpert, digest, items, hdigest, -, rfl⟩ := Transaction.readDigest_eq_ok hperform
  exact ⟨hexpert, Octets.bytes_of_ofBytes? hdigest⟩

theorem toSign?_of_signs {session : Session} {result : Session × Answer}
    (hsound : session.Sound device) (h : Signs device keys kind session frame result)
    (hsome : result.1.toSign? = some (path, digest)) :
    ∃ content chunk, frame.packetMove kind = .last kind chunk ∧
      session.partialRequest? = some { kind, path, content } ∧
      result.2 = { status := .success, deferred := true } ∧
      (kind = .digest → session.expert ∧ digest.bytes = content ++ chunk) := by
  obtain ⟨hprompt, ⟨kind', hpath⟩, hdigest⟩ := toSign?_eq_some.1 hsome
  cases h with
  | refused => contradiction
  | badPath => contradiction
  | started => contradiction
  | added payload buffer hphase hpayload hinitialized happend =>
    have hidle := hsound.idle (request_of_initialized hinitialized).1
    rw [hidle] at hprompt
    contradiction
  | completed payload buffer asked result hphase hpayload hinitialized happend hrequest hcompletes =>
    obtain ⟨path', hrequest', hpartial⟩ := partialRequest?_of_initialized hinitialized
    rw [hrequest'] at hrequest
    cases hrequest
    cases hcompletes with
    | keyless => contradiction
    | refused => contradiction
    | opened key after hkey hreview =>
      obtain ⟨transaction, expansion, -, hafter⟩ := exists_perform_prepareReview device kind key
        { session with buffer, uploading := false }
      rw [hreview] at hafter
      have hsame : asked = path := by
        subst hafter
        rw [hrequest'] at hpath
        cases hpath
        rfl
      subst hsame
      refine ⟨_, payload, packetMove_eq_last.2 ⟨hphase, hpayload⟩, hpartial, rfl, ?_⟩
      rintro rfl
      obtain ⟨hexpert, hbytes⟩ := digests_of_prepareReview hreview
      refine ⟨hexpert, ?_⟩
      rw [← hdigest, ← TieredBuffer.contents_of_append happend]
      exact hbytes

theorem toSign?_step {session : Session} (hsound : session.Sound device) (event : Event)
    (hsome : (session.step device keys event).1.toSign? = some (path, digest)) :
    (event.Waits keys ∧ session.toSign? = some (path, digest)) ∨
      ∃ request chunk, request.path = path ∧
        session.Completing device keys event request chunk digest := by
  cases event with
  | command received before =>
    cases hframe : Frame.ofBuffer before.buffer received with
    | error short =>
      rw [step_command_of_error device keys session hframe] at hsome
      left
      exact ⟨⟨Event.move_command_of_error keys hframe, by nofun, by nofun⟩, hsome⟩
    | ok frame =>
      have hreply := flags_step device keys session hframe
      have hmove := Event.move_command keys hframe
      rw [step_command device keys session hframe] at hsome
      have hdispatches := dispatches device keys session frame
      generalize session.dispatch device keys frame = result at hdispatches hreply hsome
      cases hdispatches with
      | ignored answer hignored =>
        rw [move_of_ignored hignored] at hmove
        left
        exact ⟨⟨hmove, by nofun, by nofun⟩, hsome⟩
      | shown => contradiction
      | signed kind result hclass hsign hsigns =>
        rw [Frame.move_of_sign hclass hsign] at hmove
        obtain ⟨content, chunk, hlast, hpartial, hanswer, hdigest⟩ :=
          toSign?_of_signs hsound hsigns hsome
        right
        refine ⟨{ kind, path, content }, chunk, rfl, ?_⟩
        exact ⟨hmove.trans hlast, hpartial, hreply hanswer, hdigest⟩
  | setExpert on =>
    left
    exact ⟨⟨rfl, by nofun, by nofun⟩, hsome⟩
  | reset => contradiction
  | accept room =>
    have hreviewing := isReviewing_of_toSign? hsome
    rw [isReviewing_accept] at hreviewing
    contradiction
  | reject =>
    have hreviewing := isReviewing_of_toSign? hsome
    rw [isReviewing_reject] at hreviewing
    contradiction

theorem step_of_start {session : Session} {keys : Keystore} {event : Event}
    (hsound : session.Sound device) (hstart : event.move keys = .start kind path) :
    (session.step device keys event).2.status? = some .success := by
  apply status?_of_partialRequest?
  · rw [hstart]
    nofun
  · rw [hstart]
    nofun
  · rw [(partialRequest?_step hsound keys event).2, hstart]
    nofun

theorem opened_of_completing {session : Session} {keys : Keystore} {events : List Event}
    {request : PartialRequest} (hsound : session.Sound device)
    (hpartial : (session.run device keys events).1.partialRequest? =
      (events.map (Event.move keys)).foldl (Move.advance (max device.ramSize device.flashSize)) none)
    (hcompleting : (session.run device keys events).1.Completing device keys event request chunk
      digest)
    (hsome : (session.run device keys (events ++ [event])).1.toSign? = some (request.path, digest)) :
    session.Opened device keys (events ++ [event]) request.path digest := by
  have hpending := hcompleting.pending
  rw [hpartial] at hpending
  obtain ⟨earlier, init, between, rfl, hinit, hbetween, hcontent⟩ := exists_start hpending
  refine ⟨earlier, init, between, event, [], rfl, ?_, by simp⟩
  constructor
  · exact ⟨request, chunk, hinit, hbetween, rfl, hcontent, hcompleting⟩
  · apply step_of_start (partialRequest?_run hsound keys earlier).1 hinit
  · exact hsome

theorem opened_of_toSign? {session : Session} {keys : Keystore} (opening second : List Event)
    (hsound : session.Sound device)
    (hidle : (session.run device keys opening).1.toSign? = none)
    (hpartial : (session.run device keys opening).1.partialRequest? =
      (opening.map (Event.move keys)).foldl (Move.advance (max device.ramSize device.flashSize))
        none)
    (hsome : (session.run device keys (opening ++ second)).1.toSign? = some (path, digest)) :
    session.Opened device keys (opening ++ second) path digest := by
  -- from the last event backwards, to the one that opened the review
  induction second using List.reverseRecOn with
  | nil =>
    rw [List.append_nil, hidle] at hsome
    contradiction
  | append_singleton second event ih =>
    rw [← List.append_assoc] at hsome ⊢
    have hbefore := (partialRequest?_run hsound keys (opening ++ second)).1
    have hstep := hsome
    rw [run_append] at hstep
    rcases toSign?_step hbefore event hstep with ⟨hwaits, hwaiting⟩ |
      ⟨request, chunk, rfl, hcompleting⟩
    · obtain ⟨earlier, init, between, last, waiting, hevents, hopens, hwaiting⟩ := ih hwaiting
      refine ⟨earlier, init, between, last, waiting ++ [event], ?_, hopens, ?_⟩
      · rw [hevents, List.append_assoc]
        rfl
      · intro other hother
        rw [List.mem_append, List.mem_singleton] at hother
        rcases hother with hother | rfl
        · exact hwaiting other hother
        · exact hwaits
    · apply opened_of_completing hsound _ hcompleting hsome
      have hopening := (partialRequest?_run hsound keys opening).1
      rw [run_append, (partialRequest?_run hopening keys second).2, hpartial, List.map_append,
        List.foldl_append]

theorem interrupts_of_idle {session : Session} {keys : Keystore} {event : Event}
    (hsound : session.Sound device) (hprompt : (session.step device keys event).1.prompt ≠ .sign)
    (hpartial : (session.step device keys event).1.partialRequest? = none) :
    (session.step device keys event).1.toSign? = none ∧
      (session.step device keys event).1.partialRequest? =
        (event.move keys).advance (max device.ramSize device.flashSize) none := by
  refine ⟨toSign?_of_prompt hprompt, ?_⟩
  have hadvance := (partialRequest?_step hsound keys event).2
  rw [hpartial] at hadvance ⊢
  cases hmove : event.move keys with
  | start kind path =>
    rw [hmove] at hadvance
    contradiction
  | quiet => rfl
  | add kind chunk => rfl
  | last kind chunk => rfl
  | stop => rfl

theorem interrupts_step {session : Session} {keys : Keystore} {event : Event}
    (hsound : session.Sound device) (h : session.Interrupts device keys event) :
    (session.step device keys event).1.toSign? = none ∧
      (session.step device keys event).1.partialRequest? =
        (event.move keys).advance (max device.ramSize device.flashSize) none := by
  cases h with
  | reset => exact ⟨rfl, rfl⟩
  | init event kind frame hpacket hinit =>
    constructor
    · apply toSign?_of_prompt
      rw [(step_of_packet? device keys session hpacket).1]
      have hsigns := signs device keys kind session frame
      generalize session.sign device keys kind frame = result at hsigns
      cases hsigns with
      | refused => simp [reset]
      | badPath => simp [reset]
      | started => simp [reset]
      | added payload buffer hphase =>
        rw [hinit] at hphase
        contradiction
      | completed payload buffer path result hphase =>
        rw [hinit] at hphase
        contradiction
    · rw [(partialRequest?_step hsound keys event).2, Event.move_of_packet? keys hpacket,
        Frame.advance_of_init hinit]
  | refused event hpacket hstatus =>
    obtain ⟨⟨kind, frame⟩, hpacket⟩ := Option.isSome_iff_exists.1 hpacket
    obtain ⟨hstep, htold⟩ := step_of_packet? device keys session hpacket
    rw [htold] at hstatus
    have hrolled := rollsBack_of_signs (signs device keys kind session frame)
      fun hsuccess => hstatus (congrArg some hsuccess)
    rw [← hstep] at hrolled
    apply interrupts_of_idle hsound
    · simp [hrolled.prompt]
    · simp [partialRequest?, hrolled.uploading]
  | shown received before frame key hframe hclass haddress hshown =>
    have hshows : (session.step device keys (.command received before)).1 =
        { session.reset with prompt := .address key } := by
      rw [step_command device keys session hframe]
      have hdispatches := dispatches device keys session frame
      generalize session.dispatch device keys frame = result at hdispatches
      cases hdispatches with
      | ignored answer hignored => simp [hclass, haddress, hshown] at hignored
      | shown key' _ _ hshown' =>
        rw [hshown] at hshown'
        cases hshown'
        rfl
      | signed kind result _ hsign =>
        rw [haddress] at hsign
        cases hsign
    apply interrupts_of_idle hsound
    · simp [hshows]
    · rw [hshows]
      rfl
  | accepted room hreviewing =>
    apply interrupts_of_idle hsound
    · simp [step, hreviewing, accept, reset]
    · simp [step, hreviewing, accept]
  | rejected hreviewing =>
    apply interrupts_of_idle hsound
    · simp [step, hreviewing, reject, reset]
    · simp [step, hreviewing, reject]

theorem opened_since {session : Session} {keys : Keystore} {event : Event} {second : List Event}
    (hsound : session.Sound device) (h : session.Interrupts device keys event)
    (hsome : (session.run device keys (event :: second)).1.toSign? = some (path, digest)) :
    session.Opened device keys (event :: second) path digest := by
  obtain ⟨hidle, hpartial⟩ := interrupts_step hsound h
  exact opened_of_toSign? [event] second hsound hidle hpartial hsome

theorem opened_since_call {session : Session} {keys : Keystore} {second : List Event}
    (hsound : session.Sound device) (hcall : session.toSign? = some (path, digest))
    (hsome : ((session.step device keys (.accept room)).1.run device keys second).1.toSign? =
      some (path', digest')) :
    (session.step device keys (.accept room)).1.Opened device keys second path' digest' := by
  have hinterrupts : session.Interrupts device keys (.accept room) :=
    .accepted room (isReviewing_of_toSign? hcall)
  obtain ⟨hidle, hpartial⟩ := interrupts_step hsound hinterrupts
  have hafter := (partialRequest?_step hsound keys (.accept room)).1
  exact opened_of_toSign? [] second hafter hidle hpartial hsome

theorem toSign?_of_signCall? {session : Session} {event : Event}
    (h : session.signCall? event = some call) :
    (∃ room, event = .accept room) ∧ session.toSign? = some call := by
  cases event with
  | accept room => exact ⟨⟨room, rfl⟩, h⟩
  | command => contradiction
  | setExpert => contradiction
  | reset => contradiction
  | reject => contradiction

theorem one_signature_for_each_approval (device : Device) (keys : Keystore) :
    (∀ (session : Session) (event : Event) (keys' : Keystore), keys'.publicKey = keys.publicKey →
      (∀ path digest, session.signCall? event = some (path, digest) →
        keys'.sign path digest = keys.sign path digest) →
      session.step device keys' event = session.step device keys event) ∧
    (∀ events event path digest,
      ((fresh device).run device keys events).1.signCall? event = some (path, digest) →
      (∃ room, event = .accept room) ∧ (fresh device).Opened device keys events path digest) ∧
    (∀ first event second call path digest,
      let session := ((fresh device).run device keys first).1
      session.Interrupts device keys event →
      (session.run device keys (event :: second)).1.signCall? call = some (path, digest) →
      session.Opened device keys (event :: second) path digest) ∧
    (∀ first room second call path digest path' digest',
      let session := ((fresh device).run device keys first).1
      let after := (session.step device keys (.accept room)).1
      session.signCall? (.accept room) = some (path, digest) →
      (after.run device keys second).1.signCall? call = some (path', digest') →
      after.Opened device keys second path' digest') ∧
    (∀ (session : Session) (room : Nat),
      (session.step device keys (.accept room)).1.isReviewing = false ∧
        (session.step device keys .reject).1.isReviewing = false) := by
  have hfresh := sound_fresh device
  refine ⟨?_, ?_, ?_, ?_, ?_⟩
  · intro session event keys' hpublic hsign
    exact step_eq_of_signCall? session event hpublic hsign
  · intro events event path digest hcall
    obtain ⟨haccept, hsome⟩ := toSign?_of_signCall? hcall
    refine ⟨haccept, ?_⟩
    exact opened_of_toSign? [] events hfresh rfl rfl hsome
  · intro first event second call path digest session hinterrupts hcall
    apply opened_since (partialRequest?_run hfresh keys first).1 hinterrupts
    exact (toSign?_of_signCall? hcall).2
  · intro first room second call path digest path' digest' session after hfirst hsecond
    apply opened_since_call (partialRequest?_run hfresh keys first).1 hfirst
    exact (toSign?_of_signCall? hsecond).2
  · intro session room
    exact ⟨isReviewing_accept device keys session room, isReviewing_reject device keys session⟩

theorem one_signature_for_each_approval_digest :
    let keys : Keystore := ⟨fun _ => some (.zero 32), fun _ _ => some (.zero 64)⟩
    let keyless : Keystore := ⟨fun _ => some (.zero 32), fun _ _ => none⟩
    let path : Bytes := [0x2C, 0, 0, 0x80, 0x72, 0x02, 0, 0x80] ++ List.replicate 12 0
    let send (phase : Phase) (payload : Bytes) : Event :=
      .command (payload.length + 5) ⟨Upload.packet 0x23 phase payload, 0, 0⟩
    let upload := [send .init path, send .last (List.replicate 32 0)]
    let first := .setExpert true :: upload
    let session := ((fresh .small).run .small keys first).1
    session.signCall? (.accept 64) = some (⟨0, 0, 0⟩, .zero 32) ∧
      session.step .small keyless .reject = session.step .small keys .reject ∧
      (fresh .small).Opened .small keys first ⟨0, 0, 0⟩ (.zero 32) ∧
      session.Opened .small keys (.reset :: upload) ⟨0, 0, 0⟩ (.zero 32) ∧
      (session.step .small keys (.accept 64)).1.Opened .small keys upload ⟨0, 0, 0⟩ (.zero 32) := by
  intro keys keyless path send upload first session
  obtain ⟨hkeeper, hopened, hsince, hagain, -⟩ := one_signature_for_each_approval .small keys
  have hcall : session.signCall? (.accept 64) = some (⟨0, 0, 0⟩, .zero 32) := by decide +kernel
  refine ⟨hcall, ?_, (hopened first (.accept 64) _ _ hcall).2, ?_, ?_⟩
  · apply hkeeper session .reject keyless rfl
    nofun
  · apply hsince first .reset upload (.accept 64) _ _ .reset
    decide +kernel
  · apply hagain first 64 upload (.accept 64) _ _ _ _ hcall
    decide +kernel

end Session

end ClearSign
