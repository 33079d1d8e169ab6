import ClearSign.Proofs.Session.Command

/-!
This module contains the proof that a session which starts over has forgotten everything but its
mode. From then on nobody can tell what it handled before: neither the host from the replies, nor
the holder from the screen.
-/

namespace ClearSign

inductive Interaction where
  | event (event : Event)
  | countItems
  | showPage (index page : Nat) (title message : Bytes)

inductive Response where
  | sent (output : Output)
  | counted (items : Option Nat)
  | shown (screen : Except ScreenError Screen)

/--
An event after which no request is in flight that was in flight before: a reset, or the first packet
of an upload, whether or not it is accepted.
-/
inductive Event.StartsOver : Event → Prop where
  | reset : StartsOver .reset
  | init (received : Nat) (before : Exchange) (frame : Frame) (kind : PayloadKind) :
      Frame.ofBuffer before.buffer received = .ok frame → frame.instructionClass = 0 →
      Instruction.ofByte? frame.instruction = some (.sign kind) →
      Phase.ofByte frame.p1 = .ok .init → StartsOver (.command received before)

namespace Session

def interact (device : Device) (keys : Keystore) (session : Session) :
    Interaction → Session × Response
  | .event event =>
    let (session, output) := session.step device keys event
    (session, .sent output)
  | .countItems => (session, .counted session.itemCount?)
  | .showPage index page title message =>
    (session, .shown (session.screen index page title message))

def converse (device : Device) (keys : Keystore) (session : Session) :
    List Interaction → Session × List Response
  | [] => (session, [])
  | interaction :: interactions =>
    let (session, response) := session.interact device keys interaction
    let (session, responses) := converse device keys session interactions
    (session, response :: responses)

structure Sized (device : Device) (session : Session) : Prop where
  buffer : session.buffer.tiers = (device.ramSize, device.flashSize)
  expansion : session.expansion.tiers = (0, device.expansionSize)

theorem sized_fresh (device : Device) : (fresh device).Sized device :=
  ⟨TieredBuffer.tiers_fresh _ _, TieredBuffer.tiers_fresh _ _⟩

theorem Sized.capacity_expansion {session : Session} (h : session.Sized device) :
    session.expansion.capacity = device.expansionSize := by
  have hfresh := h.expansion.trans (TieredBuffer.tiers_fresh 0 device.expansionSize).symm
  rw [TieredBuffer.capacity_eq_of_tiers hfresh, TieredBuffer.capacity_fresh, Nat.zero_max]

theorem sized_reset {session : Session} (h : session.Sized device) : session.reset.Sized device :=
  ⟨(TieredBuffer.tiers_rewind _).trans h.buffer, (TieredBuffer.tiers_rewind _).trans h.expansion⟩

theorem sized_of_completes {session : Session} {result : Session × Answer}
    (hsized : session.Sized device) (h : Completes device keys kind session frame path result) :
    result.1.Sized device := by
  cases h with
  | keyless => exact sized_reset ⟨hsized.buffer, hsized.expansion⟩
  | refused key fault after hkey hreview =>
    obtain ⟨transaction, expansion, htiers, hafter⟩ :=
      exists_perform_prepareReview device kind key { session with uploading := false }
    rw [hreview] at hafter
    subst hafter
    exact sized_reset ⟨hsized.buffer, htiers.trans hsized.expansion⟩
  | opened key after hkey hreview =>
    obtain ⟨transaction, expansion, htiers, hafter⟩ :=
      exists_perform_prepareReview device kind key { session with uploading := false }
    rw [hreview] at hafter
    subst hafter
    exact ⟨hsized.buffer, htiers.trans hsized.expansion⟩

theorem sized_of_signs {session : Session} {result : Session × Answer}
    (hsized : session.Sized device) (h : Signs device keys kind session frame result) :
    result.1.Sized device := by
  cases h with
  | refused => exact sized_reset hsized
  | badPath =>
    exact sized_reset ⟨(TieredBuffer.tiers_rewind _).trans hsized.buffer, hsized.expansion⟩
  | started =>
    have hreset := sized_reset hsized
    exact ⟨(TieredBuffer.tiers_rewind _).trans hreset.buffer, hreset.expansion⟩
  | added payload buffer hphase hpayload hinitialized happend =>
    exact ⟨(TieredBuffer.tiers_of_append happend).trans hsized.buffer, hsized.expansion⟩
  | completed payload buffer path result hphase hpayload hinitialized happend hrequest hcompletes =>
    apply sized_of_completes _ hcompletes
    exact ⟨(TieredBuffer.tiers_of_append happend).trans hsized.buffer, hsized.expansion⟩

theorem sized_step {session : Session} (hsized : session.Sized device) (event : Event) :
    (session.step device keys event).1.Sized device := by
  cases event with
  | command received before =>
    simp only [step, exchange]
    split
    · exact hsized
    · next frame hframe =>
      have hdispatches := dispatches device keys session frame
      generalize session.dispatch device keys frame = result at hdispatches ⊢
      cases hdispatches with
      | ignored => exact hsized
      | shown =>
        have hreset := sized_reset hsized
        exact ⟨hreset.buffer, hreset.expansion⟩
      | signed kind result hclass hsign hsigns => exact sized_of_signs hsized hsigns
  | setExpert on => exact ⟨hsized.buffer, hsized.expansion⟩
  | reset => exact sized_reset hsized
  | accept room =>
    simp only [step]
    split
    · exact sized_reset hsized
    · exact hsized
  | reject =>
    simp only [step]
    split
    · exact sized_reset hsized
    · exact hsized

theorem sized_run {session : Session} (hsized : session.Sized device) (events : List Event) :
    (session.run device keys events).1.Sized device := by
  induction events generalizing session with
  | nil => exact hsized
  | cons event events ih => exact ih (sized_step hsized event)

theorem sized_converse {session : Session} (hsized : session.Sized device)
    (interactions : List Interaction) :
    (session.converse device keys interactions).1.Sized device := by
  induction interactions generalizing session with
  | nil => exact hsized
  | cons interaction interactions ih =>
    cases interaction with
    | event event => exact ih (sized_step hsized event)
    | countItems => exact ih hsized
    | showPage => exact ih hsized

structure Alike (session other : Session) : Prop where
  expert : session.expert = other.expert
  buffer : session.buffer.Alike other.buffer
  expansion : session.expansion.Alike other.expansion
  transaction : session.transaction = other.transaction
  request : session.request = other.request
  uploading : session.uploading = other.uploading
  prompt : session.prompt = other.prompt

theorem alike_reset {session other : Session} (hexpert : session.expert = other.expert)
    (hbuffer : session.buffer.tiers = other.buffer.tiers)
    (hexpansion : session.expansion.tiers = other.expansion.tiers) :
    session.reset.Alike other.reset :=
  ⟨hexpert, TieredBuffer.alike_rewind hbuffer, TieredBuffer.alike_rewind hexpansion, rfl, rfl, rfl,
    rfl⟩

namespace Alike

theorem reset {session other : Session} (h : session.Alike other) :
    session.reset.Alike other.reset :=
  alike_reset h.expert h.buffer.tiers_eq h.expansion.tiers_eq

theorem source_eq {session other : Session} (h : session.Alike other) :
    session.source = other.source := by
  rw [source, source, h.transaction, h.buffer.contents_eq, h.expansion.contents_eq]

theorem itemCount?_eq {session other : Session} (h : session.Alike other) :
    session.itemCount? = other.itemCount? := by
  rw [itemCount?, itemCount?, h.prompt, h.transaction]

theorem screen_eq {session other : Session} (h : session.Alike other) (index page : Nat)
    (title message : Bytes) :
    session.screen index page title message = other.screen index page title message := by
  rw [screen, screen, h.prompt, h.transaction, h.source_eq]

theorem approval_eq {session other : Session} (h : session.Alike other) (keys : Keystore)
    (room : Nat) : session.approval keys room = other.approval keys room := by
  rw [approval, approval, toSign?, toSign?, h.prompt, h.request, h.transaction]

theorem isReviewing_eq {session other : Session} (h : session.Alike other) :
    session.isReviewing = other.isReviewing := by
  rw [isReviewing, isReviewing, h.prompt]

end Alike

theorem respects_readRequest (device : Device) (kind : PayloadKind) (key : Octets 32) :
    (readRequest device kind key).Respects Alike := by
  rintro session other ⟨hexpert, hbuffer, hexpansion, htransaction, hrequest, huploading, hprompt⟩
  cases kind with
  | json =>
    rw [perform_readRequest_json, perform_readRequest_json, hbuffer.contents_eq, htransaction]
    exact ⟨rfl, hexpert, hbuffer, hexpansion, rfl, hrequest, huploading, hprompt⟩
  | digest =>
    rw [perform_readRequest_digest, perform_readRequest_digest, hbuffer.contents_eq, htransaction,
      hexpert]
    exact ⟨rfl, rfl, hbuffer, hexpansion, rfl, hrequest, huploading, hprompt⟩
  | transfer =>
    rw [perform_readRequest_transfer, perform_readRequest_transfer, hbuffer.contents_eq]
    obtain ⟨houtcome, hafter, hout⟩ := Transaction.respects_readTransfer device
      other.buffer.contents key (session.transaction, session.expansion)
      (other.transaction, other.expansion) ⟨htransaction, hexpansion⟩
    exact ⟨houtcome, hexpert, hbuffer, hout, hafter, hrequest, huploading, hprompt⟩

theorem respects_prepareReview (device : Device) (kind : PayloadKind) (key : Octets 32) :
    (prepareReview device kind key).Respects Alike := by
  apply Attempt.respects_bind (respects_readRequest device kind key)
  intro _ session other h
  rw [Attempt.perform_bind, Attempt.perform_bind, Attempt.perform_get, Attempt.perform_get]
  dsimp only
  rw [h.transaction, h.source_eq]
  cases other.transaction.validate other.source with
  | error fault => exact ⟨rfl, h⟩
  | ok => exact ⟨rfl, h⟩

def Agree (result other : Session × Answer) : Prop :=
  result.2 = other.2 ∧ result.1.Alike other.1

namespace Alike

theorem completeUpload {session other : Session} (h : session.Alike other) (device : Device)
    (keys : Keystore) (kind : PayloadKind) (frame : Frame) :
    Agree (session.completeUpload device keys kind frame)
      (other.completeUpload device keys kind frame) := by
  have hended : Alike { session with request := other.request, uploading := false }
      { other with uploading := false } :=
    ⟨h.expert, h.buffer, h.expansion, h.transaction, rfl, rfl, h.prompt⟩
  unfold Session.completeUpload
  dsimp only
  rw [h.request]
  split
  · exact ⟨rfl, hended⟩
  · next path _ _ =>
    split
    · exact ⟨rfl, hended.reset⟩
    · next key _ =>
      obtain ⟨houtcome, hafter⟩ := respects_prepareReview device kind key _ _ hended
      generalize (prepareReview device kind key).perform
        { session with request := other.request, uploading := false } = read at houtcome hafter
      generalize (prepareReview device kind key).perform { other with uploading := false } = read'
        at houtcome hafter
      obtain ⟨outcome, after⟩ := read
      obtain ⟨outcome', after'⟩ := read'
      cases houtcome
      cases outcome with
      | error fault => exact ⟨rfl, hafter.reset⟩
      | ok =>
        exact ⟨rfl, hafter.expert, hafter.buffer, hafter.expansion, hafter.transaction,
          hafter.request, hafter.uploading, rfl⟩

end Alike

end Session

theorem TieredBuffer.Alike.receive {buffer other : TieredBuffer} (h : buffer.Alike other)
    (started : Bool) (frame : Frame) :
    (∃ status, Upload.receive buffer started frame = .error status ∧
        Upload.receive other started frame = .error status) ∨
      ∃ progress after otherAfter, Upload.receive buffer started frame = .ok (progress, after) ∧
        Upload.receive other started frame = .ok (progress, otherAfter) ∧
        after.Alike otherAfter := by
  unfold Upload.receive
  cases Phase.ofByte frame.p1 with
  | error status => exact .inl ⟨status, rfl, rfl⟩
  | ok phase =>
    simp only [ok_bind]
    cases frame.payload with
    | error short => exact .inl ⟨_, rfl, rfl⟩
    | ok payload =>
      dsimp only
      split
      · exact .inr ⟨_, _, _, rfl, rfl, alike_rewind h.tiers_eq⟩
      · split
        · exact .inl ⟨_, rfl, rfl⟩
        · rcases h.append payload with ⟨full, hfull, hfull'⟩ | ⟨after, after', hok, hok', halike⟩
          · rw [hfull, hfull']
            exact .inl ⟨_, rfl, rfl⟩
          · rw [hok, hok']
            exact .inr ⟨_, _, _, rfl, rfl, halike⟩

namespace Session

theorem agree_startUpload {session other : Session} (h : session.reset.Alike other.reset)
    (kind : PayloadKind) (payload : Bytes) :
    Agree (session.startUpload kind payload) (other.startUpload kind payload) := by
  unfold startUpload
  dsimp only
  split
  · exact ⟨rfl, h⟩
  · exact ⟨rfl, h.expert, h.buffer, h.expansion, rfl, rfl, rfl, rfl⟩

namespace Alike

theorem sign {session other : Session} (h : session.Alike other) (device : Device)
    (keys : Keystore) (kind : PayloadKind) (frame : Frame) :
    Agree (session.sign device keys kind frame) (other.sign device keys kind frame) := by
  have hinitialized : session.initialized kind = other.initialized kind := by
    rw [initialized, initialized, h.uploading, h.request]
  unfold Session.sign
  rw [hinitialized]
  rcases h.buffer.receive (other.initialized kind) frame with
    ⟨status, hstatus, hstatus'⟩ | ⟨progress, after, after', hafter, hafter', halike⟩
  · rw [hstatus, hstatus']
    exact ⟨rfl, h.reset⟩
  · rw [hafter, hafter']
    dsimp only
    have hreceived : Alike { session with buffer := after } { other with buffer := after' } :=
      ⟨h.expert, halike, h.expansion, h.transaction, h.request, h.uploading, h.prompt⟩
    cases progress with
    | started payload => exact agree_startUpload hreceived.reset kind payload
    | ongoing => exact ⟨rfl, hreceived⟩
    | complete => exact hreceived.completeUpload device keys kind frame

theorem getAddress {session other : Session} (h : session.Alike other) (keys : Keystore)
    (frame : Frame) : Agree (session.getAddress keys frame) (other.getAddress keys frame) := by
  have hreset := h.reset
  unfold Session.getAddress
  split
  · exact ⟨rfl, h⟩
  split
  · exact ⟨rfl, h⟩
  split
  · exact ⟨rfl, h⟩
  split
  · exact ⟨rfl, hreset.expert, hreset.buffer, hreset.expansion, rfl, rfl, rfl, rfl⟩
  split
  · exact ⟨rfl, h⟩
  · exact ⟨rfl, h⟩

theorem dispatch {session other : Session} (h : session.Alike other) (device : Device)
    (keys : Keystore) (frame : Frame) :
    Agree (session.dispatch device keys frame) (other.dispatch device keys frame) := by
  unfold Session.dispatch
  split
  · exact ⟨rfl, h⟩
  split
  · exact ⟨rfl, h⟩
  · exact ⟨rfl, h⟩
  · exact h.getAddress keys frame
  · exact h.sign device keys _ frame

end Alike

theorem step_command_of_agree {session other : Session} (device : Device) (keys : Keystore)
    (hframe : Frame.ofBuffer before.buffer received = .ok frame)
    (h : Agree (session.dispatch device keys frame) (other.dispatch device keys frame)) :
    (session.step device keys (.command received before)).2 =
        (other.step device keys (.command received before)).2 ∧
      (session.step device keys (.command received before)).1.Alike
        (other.step device keys (.command received before)).1 := by
  simp only [step, exchange, hframe, h.1, true_and]
  exact h.2

namespace Alike

theorem step {session other : Session} (h : session.Alike other) (device : Device)
    (keys : Keystore) (event : Event) :
    (session.step device keys event).2 = (other.step device keys event).2 ∧
      (session.step device keys event).1.Alike (other.step device keys event).1 := by
  cases event with
  | command received before =>
    cases hframe : Frame.ofBuffer before.buffer received with
    | error short =>
      simp only [Session.step, exchange, hframe, true_and]
      exact h
    | ok frame => exact step_command_of_agree device keys hframe (h.dispatch device keys frame)
  | setExpert on =>
    exact ⟨rfl, rfl, h.buffer, h.expansion, h.transaction, h.request, h.uploading, h.prompt⟩
  | reset => exact ⟨rfl, h.reset⟩
  | accept room =>
    simp only [Session.step, h.isReviewing_eq]
    split
    · simp only [accept, h.approval_eq, true_and]
      exact h.reset
    · exact ⟨rfl, h⟩
  | reject =>
    simp only [Session.step, h.isReviewing_eq]
    split
    · exact ⟨rfl, h.reset⟩
    · exact ⟨rfl, h⟩

theorem converse_eq {session other : Session} (h : session.Alike other) (device : Device)
    (keys : Keystore) (interactions : List Interaction) :
    (session.converse device keys interactions).2 =
      (other.converse device keys interactions).2 := by
  induction interactions generalizing session other with
  | nil => rfl
  | cons interaction interactions ih =>
    cases interaction with
    | event event =>
      obtain ⟨houtput, hafter⟩ := h.step device keys event
      simp only [converse, interact, houtput, ih hafter]
    | countItems => simp only [converse, interact, h.itemCount?_eq, ih h]
    | showPage index page title message =>
      simp only [converse, interact, h.screen_eq index page title message, ih h]

end Alike

theorem step_of_startsOver {session other : Session} (hsized : session.Sized device)
    (hother : other.Sized device) (hexpert : session.expert = other.expert)
    (hevent : event.StartsOver) (keys : Keystore) :
    (session.step device keys event).2 = (other.step device keys event).2 ∧
      (session.step device keys event).1.Alike (other.step device keys event).1 := by
  have htiers := hsized.buffer.trans hother.buffer.symm
  have hexpansion := hsized.expansion.trans hother.expansion.symm
  have hreset := alike_reset hexpert htiers hexpansion
  cases hevent with
  | reset => exact ⟨rfl, hreset⟩
  | init received before frame kind hframe hclass hsign hphase =>
    apply step_command_of_agree device keys hframe
    unfold dispatch
    rw [if_neg (not_not_intro hclass), if_neg (not_not_intro hclass), hsign]
    dsimp only
    unfold sign Upload.receive
    rw [hphase]
    simp only [ok_bind]
    cases frame.payload with
    | error short => exact ⟨rfl, hreset⟩
    | ok payload =>
      apply agree_startUpload
      apply alike_reset
      · exact hexpert
      · exact (TieredBuffer.tiers_rewind _).trans (htiers.trans (TieredBuffer.tiers_rewind _).symm)
      · exact hexpansion

theorem history_is_forgotten (device : Device) (keys : Keystore)
    (history otherHistory : List Interaction) (first : Event) (hfirst : first.StartsOver)
    (later : List Interaction) :
    let session := ((fresh device).converse device keys history).1
    let other := ((fresh device).converse device keys otherHistory).1
    session.expert = other.expert →
      (session.converse device keys (.event first :: later)).2 =
          (other.converse device keys (.event first :: later)).2 ∧
        (session.converse device keys (.event first :: later)).2 =
          (((fresh device).setExpert session.expert).converse device keys
            (.event first :: later)).2 := by
  intro session other hexpert
  have hsized : session.Sized device := sized_converse (sized_fresh device) history
  have hlike : ∀ third : Session, third.Sized device → session.expert = third.expert →
      (session.converse device keys (.event first :: later)).2 =
        (third.converse device keys (.event first :: later)).2 := by
    intro third hthird hmode
    obtain ⟨houtput, hafter⟩ := step_of_startsOver hsized hthird hmode hfirst keys
    simp only [converse, interact, houtput, hafter.converse_eq device keys later]
  constructor
  · apply hlike other _ hexpert
    exact sized_converse (sized_fresh device) otherHistory
  · apply hlike
    · exact ⟨(sized_fresh device).buffer, (sized_fresh device).expansion⟩
    · rfl

theorem history_is_forgotten_refused :
    let keys : Keystore := ⟨fun _ => some (.zero 32), fun _ _ => none⟩
    let path : Bytes := [0x2C, 0, 0, 0x80, 0x72, 0x02, 0, 0x80] ++ List.replicate 12 0
    let send (instruction : UInt8) (phase : Phase) (payload : Bytes) : Event :=
      .command (payload.length + 5) ⟨Upload.packet instruction phase payload, 0, 0⟩
    let history : List Interaction :=
      [.event (.setExpert true), .event (send 0x23 .init path),
       .event (send 0x23 .last (List.replicate 32 1)), .countItems]
    let session := ((fresh .standard).converse .standard keys history).1
    let first := send 0x22 .init (path.take 8)
    session.prompt = .sign ∧ first.StartsOver ∧
      ∀ later, (session.converse .standard keys (.event first :: later)).2 =
        (((fresh .standard).setExpert true).converse .standard keys (.event first :: later)).2 := by
  intro keys path send history session first
  have hfirst : first.StartsOver :=
    .init _ _ ⟨Upload.packet 0x22 .init (path.take 8), 13, by decide, by decide⟩ .json rfl
      (by decide) (by decide) rfl
  refine ⟨by decide +kernel, hfirst, ?_⟩
  intro later
  exact (history_is_forgotten .standard keys history [.event (.setExpert true)] first hfirst later
    (by decide +kernel)).1

end Session

end ClearSign
