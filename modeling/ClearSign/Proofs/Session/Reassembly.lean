import ClearSign.Proofs.Session.Upload
import Mathlib.Data.List.Induction

/-!
This module contains the proof that a request is read only when its last packet arrives, and that
what is read are exactly the packets that were sent for it, whatever the host sends in between.
Every request for which there is memory arrives.
-/

namespace ClearSign

def Event.Continues (keys : Keystore) (kind : PayloadKind) (event : Event) : Prop :=
  event.move keys = .quiet ∨ ∃ chunk, event.move keys = .add kind chunk

def Event.Ends (keys : Keystore) (kind : PayloadKind) (event : Event) (status? : Option Status) :
    Prop :=
  event.move keys ≠ .quiet ∧ (∀ path, event.move keys ≠ .start kind path) ∧
    ∀ chunk, event.move keys = .add kind chunk → status? ≠ some .success

def Move.chunk : Move → Bytes
  | .add _ chunk => chunk
  | .quiet | .start _ _ | .last _ _ | .stop => []

@[simp]
theorem Move.chunk_quiet : quiet.chunk = [] := rfl

@[simp]
theorem Move.chunk_add (kind : PayloadKind) (chunk : Bytes) : (add kind chunk).chunk = chunk := rfl

def uploaded (keys : Keystore) (events : List Event) : Bytes :=
  events.flatMap fun event => (event.move keys).chunk

@[simp]
theorem uploaded_nil (keys : Keystore) : uploaded keys [] = [] := rfl

@[simp]
theorem uploaded_cons (keys : Keystore) (event : Event) (events : List Event) :
    uploaded keys (event :: events) = (event.move keys).chunk ++ uploaded keys events := by
  simp [uploaded]

@[simp]
theorem uploaded_append (keys : Keystore) (first second : List Event) :
    uploaded keys (first ++ second) = uploaded keys first ++ uploaded keys second := by
  simp [uploaded]

def Output.status? : Output → Option Status
  | .exchange after => after.status?
  | .verdict told => some told.status
  | .nothing => none

theorem advance_eq_some {move : Move} {before : Option PartialRequest} {after : PartialRequest}
    (h : move.advance capacity before = some after) :
    (move = .quiet ∧ before = some after) ∨
      (move = .start after.kind after.path ∧ after.content = []) ∨
      ∃ request chunk, before = some request ∧ move = .add after.kind chunk ∧
        request.kind = after.kind ∧ request.path = after.path ∧
        after.content = request.content ++ chunk := by
  unfold Move.advance at h
  split at h
  · exact .inl ⟨rfl, h⟩
  · cases h
    exact .inr (.inl ⟨rfl, rfl⟩)
  · next request kind chunk =>
    split at h
    · next hroom =>
      cases h
      exact .inr (.inr ⟨request, chunk, rfl, by rw [hroom.1], rfl, rfl, rfl⟩)
    · contradiction
  · contradiction
  · contradiction
  · contradiction

theorem exists_start {events : List Event} {request : PartialRequest}
    (h : (events.map (Event.move keys)).foldl (Move.advance capacity) none = some request) :
    ∃ earlier init between, events = earlier ++ init :: between ∧
      init.move keys = .start request.kind request.path ∧
      (∀ event ∈ between, event.Continues keys request.kind) ∧
      request.content = uploaded keys between := by
  -- from the last event backwards, because an upload is what came since it was started
  induction events using List.reverseRecOn generalizing request with
  | nil => contradiction
  | append_singleton events event ih =>
    rw [List.map_append, List.foldl_append] at h
    rcases advance_eq_some h with ⟨hquiet, hbefore⟩ | ⟨hstart, hcontent⟩ |
      ⟨before, chunk, hbefore, hadd, hkind, hpath, hcontent⟩
    · obtain ⟨earlier, init, between, rfl, hinit, hbetween, hcontent⟩ := ih hbefore
      refine ⟨earlier, init, between ++ [event], by simp, hinit, ?_, ?_⟩
      · intro other hother
        rw [List.mem_append, List.mem_singleton] at hother
        rcases hother with hother | rfl
        · exact hbetween other hother
        · exact .inl hquiet
      · simp [hcontent, hquiet]
    · exact ⟨events, event, [], rfl, hstart, by simp, hcontent⟩
    · obtain ⟨earlier, init, between, rfl, hinit, hbetween, hbefore⟩ := ih hbefore
      rw [hkind] at hinit hbetween
      rw [hpath] at hinit
      refine ⟨earlier, init, between ++ [event], by simp, hinit, ?_, ?_⟩
      · intro other hother
        rw [List.mem_append, List.mem_singleton] at hother
        rcases hother with hother | rfl
        · exact hbetween other hother
        · exact .inr ⟨chunk, hadd⟩
      · simp [hcontent, hbefore, hadd]

theorem foldl_advance_of_continues {events : List Event} (request : PartialRequest)
    (h : ∀ event ∈ events, event.Continues keys request.kind)
    (hroom : request.content.length + (uploaded keys events).length ≤ capacity) :
    (events.map (Event.move keys)).foldl (Move.advance capacity) (some request) =
      some { request with content := request.content ++ uploaded keys events } := by
  induction events generalizing request with
  | nil => simp
  | cons event events ih =>
    have hevents : ∀ other ∈ events, other.Continues keys request.kind := by
      intro other hother
      exact h other (by simp [hother])
    rw [List.map_cons, List.foldl_cons, uploaded_cons]
    rw [uploaded_cons, List.length_append] at hroom
    rcases h event (by simp) with hquiet | ⟨chunk, hadd⟩
    · rw [hquiet, Move.chunk_quiet, List.length_nil] at hroom
      rw [hquiet, Move.chunk_quiet, List.nil_append]
      exact ih request hevents (by omega)
    · rw [hadd, Move.chunk_add] at hroom
      have hchunk : (Move.add request.kind chunk).advance capacity (some request) =
          some { request with content := request.content ++ chunk } :=
        if_pos ⟨rfl, by omega⟩
      have hrest := ih { request with content := request.content ++ chunk } hevents
        (by rw [List.length_append]; omega)
      rw [hadd, Move.chunk_add, hchunk, hrest, List.append_assoc]

def Idle (kind : PayloadKind) (request? : Option PartialRequest) : Prop :=
  ∀ request, request? = some request → request.kind ≠ kind

theorem idle_foldl {request? : Option PartialRequest} {events : List Event}
    (hidle : Idle kind request?) (h : ∀ event ∈ events, ∀ path, event.move keys ≠ .start kind path) :
    Idle kind ((events.map (Event.move keys)).foldl (Move.advance capacity) request?) := by
  induction events generalizing request? with
  | nil => exact hidle
  | cons event events ih =>
    rw [List.map_cons, List.foldl_cons]
    apply ih
    · rintro after hafter rfl
      rcases advance_eq_some hafter with ⟨-, hbefore⟩ | ⟨hstart, -⟩ | ⟨before, -, hbefore, -, hkind, -⟩
      · exact hidle after hbefore rfl
      · exact h event (by simp) after.path hstart
      · exact hidle before hbefore hkind
    · intro other hother
      exact h other (by simp [hother])

namespace Session

def completed? (session : Session) (kind : PayloadKind) (frame : Frame) :
    Option (KeyPath × Bytes) :=
  match Upload.receive session.buffer (session.initialized kind) frame, session.request with
  | .ok (.complete, buffer), some (path, _) => some (path, buffer.contents)
  | _, _ => none

theorem completes_of_completed? {session : Session}
    (h : session.completed? kind frame = some (path, content)) (device : Device) (keys : Keystore) :
    (∃ buffer, buffer.contents = content ∧
      Completes device keys kind { session with buffer } frame path
        (session.sign device keys kind frame)) ∧
      ∃ chunk request, Phase.ofByte frame.p1 = .ok .last ∧ frame.payload = .ok chunk ∧
        session.partialRequest? = some request ∧ request.kind = kind ∧ request.path = path ∧
        content = request.content ++ chunk := by
  unfold completed? at h
  split at h
  · next buffer asked kind' hreceive hrequest =>
    cases h
    obtain ⟨chunk, hpayload, hprogress⟩ := Upload.receive_eq_ok hreceive
    rcases hprogress with ⟨-, hprogress, -⟩ | ⟨-, hprogress, -⟩ | ⟨hphase, -, hinitialized, happend⟩
    · contradiction
    · contradiction
    · obtain ⟨path', hrequest', hpartial⟩ := partialRequest?_of_initialized hinitialized
      rw [hrequest] at hrequest'
      cases hrequest'
      refine ⟨⟨buffer, rfl, ?_⟩, chunk, _, hphase, hpayload, hpartial, rfl, rfl,
        TieredBuffer.contents_of_append happend⟩
      unfold sign
      rw [hreceive]
      exact completes device keys kind { session with buffer } frame hrequest
  · contradiction

theorem sign_eq_of_completed? {session : Session} (h : session.completed? kind frame = none)
    (device : Device) (keys keys' : Keystore) :
    session.sign device keys' kind frame = session.sign device keys kind frame := by
  unfold completed? at h
  unfold sign
  cases hreceive : Upload.receive session.buffer (session.initialized kind) frame with
  | error status => rfl
  | ok result =>
    obtain ⟨progress, buffer⟩ := result
    cases progress with
    | started payload => rfl
    | ongoing => rfl
    | complete =>
      cases hrequest : session.request with
      | none => simp [completeUpload]
      | some request => simp [hreceive, hrequest] at h

theorem status_of_signs {session : Session} {result : Session × Answer}
    (h : Signs device keys kind session frame result) (hpartial : result.1.partialRequest? ≠ none) :
    result.2.status = .success := by
  cases h with
  | refused => contradiction
  | badPath => contradiction
  | started => rfl
  | added => rfl
  | completed payload buffer path result hphase hpayload hinitialized happend hrequest hcompletes =>
    cases hcompletes with
    | keyless => contradiction
    | refused => contradiction
    | opened => rfl

end Session

theorem Event.exists_packet {keys : Keystore} {event : Event} (hquiet : event.move keys ≠ .quiet)
    (hstop : event.move keys ≠ .stop) :
    ∃ received before frame kind, event = .command received before ∧
      Frame.ofBuffer before.buffer received = .ok frame ∧ frame.instructionClass = 0 ∧
      Instruction.ofByte? frame.instruction = some (.sign kind) ∧
      event.move keys = frame.packetMove kind := by
  cases event with
  | command received before =>
    cases hframe : Frame.ofBuffer before.buffer received with
    | error short =>
      rw [move_command_of_error keys hframe] at hquiet
      contradiction
    | ok frame =>
      rw [move_command keys hframe] at hquiet hstop ⊢
      refine ⟨received, before, frame, ?_⟩
      unfold Frame.move at hquiet hstop
      split at hquiet
      · contradiction
      · next hclass =>
        rw [Decidable.not_not] at hclass
        rw [if_neg (by simp [hclass])] at hstop
        split at hquiet
        · contradiction
        · contradiction
        · next haddress =>
          simp only [haddress] at hstop
          split at hquiet
          · next hshown => simp [hshown] at hstop
          · contradiction
        · next kind hsign =>
          exact ⟨kind, rfl, hframe, hclass, hsign, Frame.move_of_sign hclass hsign⟩
  | setExpert on => contradiction
  | reset => contradiction
  | accept room => contradiction
  | reject => contradiction

namespace Session

theorem run_append (device : Device) (keys : Keystore) (session : Session)
    (first second : List Event) :
    (session.run device keys (first ++ second)).1 =
      ((session.run device keys first).1.run device keys second).1 := by
  induction first generalizing session with
  | nil => rfl
  | cons event first ih => exact ih _

theorem status?_of_partialRequest? {session : Session} {keys : Keystore} {event : Event}
    (hquiet : event.move keys ≠ .quiet) (hstop : event.move keys ≠ .stop)
    (hpartial : (session.step device keys event).1.partialRequest? ≠ none) :
    (session.step device keys event).2.status? = some .success := by
  obtain ⟨received, before, frame, kind, rfl, hframe, hclass, hsign, -⟩ :=
    Event.exists_packet hquiet hstop
  have hdispatch : session.dispatch device keys frame = session.sign device keys kind frame := by
    simp [dispatch, hclass, hsign]
  rw [step_command device keys session hframe, hdispatch] at hpartial
  have hstatus := status?_exchange device keys session hframe
  rw [hdispatch, status_of_signs (signs device keys kind session frame) hpartial] at hstatus
  exact hstatus

theorem idle_of_ends {session : Session} {keys : Keystore} {event : Event}
    (hsound : session.Sound device)
    (hends : event.Ends keys kind (session.step device keys event).2.status?) :
    Idle kind (session.step device keys event).1.partialRequest? := by
  obtain ⟨hquiet, hstart, hadd⟩ := hends
  rintro after hafter rfl
  have hadvance := (partialRequest?_step hsound keys event).2
  rw [hafter] at hadvance
  rcases advance_eq_some hadvance.symm with ⟨hmove, -⟩ | ⟨hmove, -⟩ | ⟨-, chunk, -, hmove, -⟩
  · contradiction
  · exact hstart after.path hmove
  · apply hadd chunk hmove
    apply status?_of_partialRequest? hquiet
    · rw [hmove]
      nofun
    · rw [hafter]
      nofun

theorem status?_of_idle {session : Session} (hidle : Idle kind session.partialRequest?)
    (device : Device) (keys : Keystore) (hframe : Frame.ofBuffer before.buffer received = .ok frame)
    (hclass : frame.instructionClass = 0)
    (hsign : Instruction.ofByte? frame.instruction = some (.sign kind))
    (hphase : Phase.ofByte frame.p1 = .ok .add ∨ Phase.ofByte frame.p1 = .ok .last) :
    (session.step device keys (.command received before)).2.status? =
      some (match frame.payload with
        | .ok _ => .transactionNotInitialized
        | .error _ => .wrongLength) := by
  -- the length of a packet is checked before the state of the upload
  have hinitialized : session.initialized kind = false := by
    rw [Bool.eq_false_iff]
    intro hinitialized
    obtain ⟨path, -, hpartial⟩ := partialRequest?_of_initialized hinitialized
    exact hidle _ hpartial rfl
  have hreceive : Upload.receive session.buffer (session.initialized kind) frame =
      .error (match frame.payload with
        | .ok _ => .transactionNotInitialized
        | .error _ => .wrongLength) := by
    rw [hinitialized]
    unfold Upload.receive
    cases frame.payload with
    | error short => rcases hphase with h | h <;> simp [h]
    | ok payload => rcases hphase with h | h <;> simp [h]
  have hstatus := status?_exchange device keys session hframe
  simp only [dispatch, hclass, hsign, sign, hreceive] at hstatus
  exact hstatus

theorem step_of_quiet {keys : Keystore} (session : Session)
    (h : (Event.command received before).move keys = .quiet) (device : Device) :
    (session.step device keys (.command received before)).1 = session := by
  cases hframe : Frame.ofBuffer before.buffer received with
  | error short => exact step_command_of_error device keys session hframe
  | ok frame =>
    rw [Event.move_command keys hframe] at h
    rw [step_command device keys session hframe]
    have hdispatches := dispatches device keys session frame
    generalize session.dispatch device keys frame = result at hdispatches ⊢
    cases hdispatches with
    | ignored => rfl
    | shown key hclass haddress hshown => simp [Frame.move, hclass, haddress, hshown] at h
    | signed kind result hclass hsign hsigns =>
      rw [Frame.move_of_sign hclass hsign] at h
      unfold Frame.packetMove at h
      split at h <;> try contradiction
      split at h <;> contradiction

theorem packetMove_eq_last {kind : PayloadKind} {frame : Frame} :
    frame.packetMove kind = .last kind chunk ↔
      Phase.ofByte frame.p1 = .ok .last ∧ frame.payload = .ok chunk := by
  unfold Frame.packetMove
  constructor
  · intro h
    split at h
    · split at h <;> contradiction
    · contradiction
    · next payload hphase hpayload =>
      cases h
      exact ⟨hphase, hpayload⟩
    · contradiction
    · contradiction
  · rintro ⟨hphase, hpayload⟩
    rw [hphase, hpayload]

theorem completed?_of_partialRequest? {session : Session} {request : PartialRequest}
    (hsound : session.Sound device) (hpartial : session.partialRequest? = some request)
    (hlast : frame.packetMove request.kind = .last request.kind chunk)
    (hroom : request.content.length + chunk.length ≤ max device.ramSize device.flashSize) :
    session.completed? request.kind frame = some (request.path, request.content ++ chunk) := by
  obtain ⟨hinitialized, hrequest, hcontents⟩ := initialized_of_partialRequest? hpartial
  obtain ⟨hphase, hpayload⟩ := packetMove_eq_last.1 hlast
  rw [← hcontents, ← hsound.capacity] at hroom
  obtain ⟨after, happend⟩ := (TieredBuffer.append_isOk_iff hsound.valid chunk).2 hroom
  have hreceive : Upload.receive session.buffer (session.initialized request.kind) frame =
      .ok (.complete, after) := by
    unfold Upload.receive
    simp [hphase, hpayload, hinitialized, happend]
  unfold completed?
  rw [hreceive, hrequest]
  dsimp only
  rw [TieredBuffer.contents_of_append happend, hcontents]

theorem partialRequest?_of_start (device : Device) {keys : Keystore} {init : Event}
    {between : List Event} (earlier : List Event) (hinit : init.move keys = .start kind path)
    (hbetween : ∀ event ∈ between, event.Continues keys kind)
    (hroom : (uploaded keys between).length ≤ max device.ramSize device.flashSize) :
    ((fresh device).run device keys (earlier ++ init :: between)).1.partialRequest? =
      some { kind, path, content := uploaded keys between } := by
  obtain ⟨-, hpartial⟩ := partialRequest?_run (sound_fresh device) keys (earlier ++ init :: between)
  have hcontinues := foldl_advance_of_continues { kind, path, content := [] } hbetween
    (Nat.le_trans (Nat.le_of_eq (Nat.zero_add _)) hroom)
  rw [hpartial, List.map_append, List.foldl_append, List.map_cons, List.foldl_cons, hinit]
  exact hcontinues

theorem status?_of_start {keys : Keystore} {init : Event} {between : List Event}
    (earlier : List Event) (hinit : init.move keys = .start kind path)
    (hbetween : ∀ event ∈ between, event.Continues keys kind)
    (hroom : (uploaded keys between).length ≤ max device.ramSize device.flashSize)
    (hsplit : init :: between = sent ++ event :: rest) (hquiet : event.move keys ≠ .quiet) :
    (((fresh device).run device keys (earlier ++ sent)).1.step device keys event).2.status? =
      some .success := by
  have hafter : ((fresh device).run device keys (earlier ++ (sent ++ [event]))).1.partialRequest? ≠
      none := by
    cases sent with
    | nil =>
      rw [List.nil_append, List.cons.injEq] at hsplit
      rw [List.nil_append, ← hsplit.1]
      rw [partialRequest?_of_start device earlier hinit (by simp) (by simp)]
      nofun
    | cons first sent =>
      rw [List.cons_append, List.cons.injEq] at hsplit
      obtain ⟨rfl, rfl⟩ := hsplit
      have hsent : ∀ other ∈ sent ++ [event], other.Continues keys kind := by
        intro other hother
        apply hbetween
        rw [List.mem_append, List.mem_singleton] at hother
        rw [List.mem_append, List.mem_cons]
        rcases hother with hother | hother
        · exact .inl hother
        · exact .inr (.inl hother)
      have hlength : (uploaded keys (sent ++ [event])).length ≤
          max device.ramSize device.flashSize := by
        simp only [uploaded_append, uploaded_cons, uploaded_nil, List.length_append,
          List.append_nil] at hroom ⊢
        omega
      rw [List.cons_append, partialRequest?_of_start device earlier hinit hsent hlength]
      nofun
  rw [← List.append_assoc, run_append] at hafter
  apply status?_of_partialRequest? hquiet _ hafter
  have hmem : event ∈ init :: between := by simp [hsplit]
  rw [List.mem_cons] at hmem
  rcases hmem with rfl | hmem
  · rw [hinit]
    nofun
  · rcases hbetween event hmem with hmove | ⟨chunk, hmove⟩
    · rw [hmove]
      nofun
    · rw [hmove]
      nofun

theorem requests_are_reassembled (device : Device) (keys : Keystore) (events : List Event) :
    let session := ((fresh device).run device keys events).1
    (∀ received before, (Event.command received before).move keys = .quiet →
      (session.step device keys (.command received before)).1 = session) ∧
    (∀ kind frame, session.completed? kind frame = none →
      ∀ keys', session.sign device keys' kind frame = session.sign device keys kind frame) ∧
    (∀ kind frame path content, session.completed? kind frame = some (path, content) →
      (∃ buffer, buffer.contents = content ∧
        Completes device keys kind { session with buffer } frame path
          (session.sign device keys kind frame)) ∧
      ∃ earlier init between chunk, events = earlier ++ init :: between ∧
        init.move keys = .start kind path ∧
        (∀ event ∈ between, event.Continues keys kind) ∧
        frame.packetMove kind = .last kind chunk ∧ content = uploaded keys between ++ chunk) ∧
    (∀ kind earlier ender later, events = earlier ++ ender :: later →
      ender.Ends keys kind
        (((fresh device).run device keys earlier).1.step device keys ender).2.status? →
      (∀ event ∈ later, ∀ path, event.move keys ≠ .start kind path) →
      ∀ received before frame, Frame.ofBuffer before.buffer received = .ok frame →
        frame.instructionClass = 0 →
        Instruction.ofByte? frame.instruction = some (.sign kind) →
        Phase.ofByte frame.p1 = .ok .add ∨ Phase.ofByte frame.p1 = .ok .last →
        (session.step device keys (.command received before)).2.status? =
          some (match frame.payload with
            | .ok _ => .transactionNotInitialized
            | .error _ => .wrongLength)) ∧
    (∀ kind path earlier init between, events = earlier ++ init :: between →
      init.move keys = .start kind path → (∀ event ∈ between, event.Continues keys kind) →
      ∀ frame chunk, frame.packetMove kind = .last kind chunk →
        (uploaded keys between ++ chunk).length ≤ max device.ramSize device.flashSize →
        session.completed? kind frame = some (path, uploaded keys between ++ chunk) ∧
        ∀ sent event rest, init :: between = sent ++ event :: rest → event.move keys ≠ .quiet →
          (((fresh device).run device keys (earlier ++ sent)).1.step device keys event).2.status? =
            some .success) := by
  intro session
  obtain ⟨hsound, hpartial⟩ := partialRequest?_run (sound_fresh device) keys events
  refine ⟨?_, ?_, ?_, ?_, ?_⟩
  · intro received before hquiet
    exact step_of_quiet session hquiet device
  · intro kind frame hnone keys'
    exact sign_eq_of_completed? hnone device keys keys'
  · intro kind frame path content hcompleted
    obtain ⟨hcompletes, chunk, request, hphase, hpayload, hrequest, rfl, rfl, rfl⟩ :=
      completes_of_completed? hcompleted device keys
    refine ⟨hcompletes, ?_⟩
    rw [hpartial] at hrequest
    obtain ⟨earlier, init, between, hevents, hinit, hbetween, hcontent⟩ := exists_start hrequest
    refine ⟨earlier, init, between, chunk, hevents, hinit, hbetween, ?_, by rw [hcontent]⟩
    exact packetMove_eq_last.2 ⟨hphase, hpayload⟩
  · rintro kind earlier ender later rfl hends hlater received before frame hframe hclass hsign hphase
    have hearlier := (partialRequest?_run (sound_fresh device) keys earlier).1
    have hidle := idle_of_ends hearlier hends
    have hended := (partialRequest?_step hearlier keys ender).1
    have hidle' : Idle kind session.partialRequest? := by
      have hrest := (partialRequest?_run hended keys later).2
      unfold session
      rw [run_append, run, hrest]
      exact idle_foldl hidle hlater
    exact status?_of_idle hidle' device keys hframe hclass hsign hphase
  · rintro kind path earlier init between rfl hinit hbetween frame chunk hlast hroom
    rw [List.length_append] at hroom
    have hstarted := partialRequest?_of_start device earlier hinit hbetween (by omega)
    refine ⟨completed?_of_partialRequest? hsound hstarted hlast hroom, ?_⟩
    intro sent event rest hsplit hquiet
    exact status?_of_start earlier hinit hbetween (by omega) hsplit hquiet

theorem requests_are_reassembled_json :
    let keys : Keystore := ⟨fun _ => some (.zero 32), fun _ _ => none⟩
    let path : Bytes := [0x2C, 0, 0, 0x80, 0x72, 0x02, 0, 0x80] ++ List.replicate 12 0
    let send (buffer : Bytes) : Event := .command buffer.length ⟨buffer, 0, 0⟩
    let init := send (Upload.packet 0x22 .init path)
    let version := send [0, 0x20, 0, 0, 0]
    let last : Frame := ⟨Upload.packet 0x22 .last [2], 6, by decide, by decide⟩
    let session := ((fresh .standard).run .standard keys
      [init, version, send (Upload.packet 0x22 .add [1])]).1
    let dropped := ((fresh .standard).run .standard keys [init, .reset, version]).1
    session.completed? .json last = some (⟨0, 0, 0⟩, [1, 2]) ∧
      (∃ buffer, buffer.contents = [1, 2] ∧
        Completes .standard keys .json { session with buffer } last ⟨0, 0, 0⟩
          (session.sign .standard keys .json last)) ∧
      (session.step .standard keys version).1 = session ∧
      (dropped.step .standard keys (send last.buffer)).2.status? =
        some .transactionNotInitialized := by
  intro keys path send init version last session dropped
  have hinit : init.move keys = .start .json ⟨0, 0, 0⟩ := by decide +kernel
  have hversion : version.move keys = .quiet := by decide +kernel
  have hadd : (send (Upload.packet 0x22 .add [1])).move keys = .add .json [1] := by decide +kernel
  have hbetween : ∀ event ∈ [version, send (Upload.packet 0x22 .add [1])],
      event.Continues keys .json := by
    intro event hevent
    simp only [List.mem_cons, List.not_mem_nil, or_false] at hevent
    rcases hevent with rfl | rfl
    · exact .inl hversion
    · exact .inr ⟨[1], hadd⟩
  obtain ⟨hquiet, -, honly, -, hall⟩ := requests_are_reassembled .standard keys
    [init, version, send (Upload.packet 0x22 .add [1])]
  have hcompleted := (hall .json ⟨0, 0, 0⟩ [] init _ rfl hinit hbetween last [2] (by decide +kernel)
    (by simp [hversion, hadd]; decide)).1
  simp only [uploaded_cons, uploaded_nil, hversion, hadd, Move.chunk_quiet, Move.chunk_add] at hcompleted
  obtain ⟨-, -, -, hended, -⟩ := requests_are_reassembled .standard keys [init, .reset, version]
  refine ⟨hcompleted, (honly _ _ _ _ hcompleted).1, hquiet _ _ hversion, ?_⟩
  apply hended .json [init] .reset [version] rfl _ _ _ _ last rfl (by decide) (by decide) (by decide)
  · refine ⟨by nofun, by nofun, by nofun⟩
  · intro event hevent
    rw [List.mem_singleton] at hevent
    rw [hevent, hversion]
    nofun

theorem status?_of_cut_packet :
    let keys : Keystore := ⟨fun _ => some (.zero 32), fun _ _ => none⟩
    let path : Bytes := [0x2C, 0, 0, 0x80, 0x72, 0x02, 0, 0x80] ++ List.replicate 12 0
    let send (buffer : Bytes) : Event := .command buffer.length ⟨buffer, 0, 0⟩
    let init := send (Upload.packet 0x22 .init path)
    let dropped := ((fresh .standard).run .standard keys [init, .reset]).1
    init.move keys = .start .json ⟨0, 0, 0⟩ ∧
      (dropped.step .standard keys (send [0, 0x22, Phase.add.toByte, 0, 1])).2.status? ≠
        some .transactionNotInitialized := by
  decide +kernel

end Session

end ClearSign
