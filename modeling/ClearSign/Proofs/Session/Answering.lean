import ClearSign.Proofs.Session.Reply

/-!
This module contains what the host finds in the shared buffer after a command: the body of the
answer, the status word behind it, and whether the answer proper follows after a review.
-/

namespace ClearSign

theorem Upload.receive_of_last {buffer after : TieredBuffer} {frame : Frame}
    (hphase : Phase.ofByte frame.p1 = .ok .last) (hpayload : frame.payload = .ok payload)
    (happend : buffer.append payload = .ok after) :
    receive buffer true frame = .ok (.complete, after) := by
  rw [receive, hphase, ok_bind]
  simp [hpayload, happend]

namespace Exchange

structure Carries (after : Exchange) (answer : Answer) (buffer : Bytes) : Prop where
  length : after.buffer.length = buffer.length
  status_fits : 2 ≤ after.tx
  tx_le : after.tx ≤ buffer.length
  body : after.buffer.take (after.tx - 2) = answer.body
  status : (after.buffer.take after.tx).drop (after.tx - 2) = bigEndian16 answer.status.code
  rest : after.buffer.drop after.tx = buffer.drop after.tx

theorem conclude_ofAnswer {answer : Answer} {frame : Frame}
    (h : answer.body.length + 2 ≤ frame.buffer.length) :
    (ofAnswer answer frame).conclude answer.status =
      { buffer := answer.body ++ answer.status.toBytes ++
          frame.buffer.drop (answer.body.length + 2)
        tx := answer.body.length + 2
        flags := if answer.deferred then deferredFlag else 0 } := by
  have hroom : (overwrite frame.buffer answer.body).length = frame.buffer.length := by
    apply length_overwrite
    omega
  rw [conclude, if_pos]
  · simp [ofAnswer, overwrite, List.drop_append, List.drop_eq_nil_of_le]
  · simpa [ofAnswer, hroom] using h

theorem flags_conclude {answer : Answer} {frame : Frame}
    (h : answer.body.length + 2 ≤ frame.buffer.length) :
    ((ofAnswer answer frame).conclude answer.status).flags = deferredFlag ∧ answer.deferred ∨
      ((ofAnswer answer frame).conclude answer.status).flags = 0 ∧ answer.deferred = false := by
  rw [conclude_ofAnswer h]
  cases answer.deferred with
  | true => exact .inl ⟨rfl, rfl⟩
  | false => exact .inr ⟨rfl, rfl⟩

theorem carries_conclude {answer : Answer} {frame : Frame}
    (h : answer.body.length + 2 ≤ frame.buffer.length) :
    ((ofAnswer answer frame).conclude answer.status).Carries answer frame.buffer := by
  have hstatus : answer.status.toBytes.length = 2 := rfl
  have hreply : (answer.body ++ answer.status.toBytes).length = answer.body.length + 2 := by
    rw [List.length_append, hstatus]
  rw [conclude_ofAnswer h]
  constructor <;> dsimp only
  · rw [List.length_append, hreply, List.length_drop]
    omega
  · omega
  · exact h
  · rw [Nat.add_sub_cancel, List.append_assoc, List.take_left]
  · rw [List.take_left' hreply, Nat.add_sub_cancel, List.drop_left]
    rfl
  · rw [List.drop_left' hreply]

end Exchange

namespace Session

inductive Prepares (device : Device) (keys : Keystore) (session : Session) (frame : Frame)
    (outcome : Except Fault Unit) : Prop where
  | completed (kind : PayloadKind) (buffer : TieredBuffer) (path : KeyPath) (key : Octets 32)
      (after : Session) :
      frame.instructionClass = 0 → Instruction.ofByte? frame.instruction = some (.sign kind) →
      Upload.receive session.buffer (session.initialized kind) frame = .ok (.complete, buffer) →
      session.request = some (path, kind) → keys.publicKey path = some key →
      (prepareReview device kind key).perform { session with buffer, uploading := false } =
        (outcome, after) →
      Prepares device keys session frame outcome

inductive Asks (device : Device) (keys : Keystore) (session : Session) (frame : Frame) :
    Prompt → Prop where
  | address (key : Octets 32) :
      frame.instructionClass = 0 → Instruction.ofByte? frame.instruction = some .getAddress →
      shownKey? keys frame = some key → Asks device keys session frame (.address key)
  | sign : Prepares device keys session frame (.ok ()) → Asks device keys session frame .sign

theorem dispatch_of_prepares {session : Session}
    (h : session.Prepares device keys frame outcome) :
    ∃ after : Session,
      (outcome = .ok () ∧ session.dispatch device keys frame =
        ({ after with prompt := .sign }, { status := .success, deferred := true })) ∨
      ∃ fault, outcome = .error fault ∧
        session.dispatch device keys frame = (after.reset, refusal fault frame) := by
  obtain ⟨kind, buffer, path, key, after, hclass, hinstruction, hreceive, hrequest, hkey, hreview⟩ :=
    h
  rw [hrequest] at hreview
  refine ⟨after, ?_⟩
  rw [dispatch, if_neg (not_not_intro hclass), hinstruction]
  simp only [sign, hreceive, completeUpload, hrequest, hkey, hreview]
  cases outcome with
  | ok => exact .inl ⟨rfl, rfl⟩
  | error fault => exact .inr ⟨fault, rfl, rfl⟩

theorem answer_of_refused {session : Session}
    (h : session.Prepares device keys frame (.error fault)) :
    (session.dispatch device keys frame).2 = refusal fault frame := by
  obtain ⟨refused, ⟨hok, -⟩ | ⟨fault', hfault, hdispatch⟩⟩ := dispatch_of_prepares h
  · contradiction
  · cases hfault
    rw [hdispatch]

theorem dispatch_of_shownKey? {session : Session} (hclass : frame.instructionClass = 0)
    (hinstruction : Instruction.ofByte? frame.instruction = some .getAddress)
    (hshown : shownKey? keys frame = some key) :
    session.dispatch device keys frame =
      ({ session.reset with prompt := .address key }, { status := .success, deferred := true }) := by
  obtain ⟨payload, path, hpayload, hpath, hp1, hkey⟩ := shownKey?_eq_some hshown
  rw [dispatch, if_neg (not_not_intro hclass), hinstruction]
  dsimp only
  rw [getAddress, hpayload]
  dsimp only
  rw [hpath]
  dsimp only
  rw [hkey]
  dsimp only
  rw [if_pos hp1]

theorem dispatch_of_asks {session : Session} {prompt : Prompt}
    (h : session.Asks device keys frame prompt) :
    (session.dispatch device keys frame).2 = { status := .success, deferred := true } ∧
      (session.dispatch device keys frame).1.prompt = prompt := by
  cases h with
  | address key hclass hinstruction hshown =>
    rw [dispatch_of_shownKey? hclass hinstruction hshown]
    exact ⟨rfl, rfl⟩
  | sign hprepares =>
    obtain ⟨after, ⟨-, hdispatch⟩ | ⟨fault, hfault, -⟩⟩ := dispatch_of_prepares hprepares
    · rw [hdispatch]
      exact ⟨rfl, rfl⟩
    · contradiction

def Quiet (session : Session) (result : Session × Answer) : Prop :=
  result.2.deferred = false ∧
    (result.1.prompt = session.prompt ∨ result.1.prompt = .idle)

theorem quiet_getAddress {session : Session} (h : shownKey? keys frame = none) :
    session.Quiet (session.getAddress keys frame) := by
  unfold shownKey? at h
  unfold getAddress
  split
  · exact ⟨rfl, .inl rfl⟩
  next payload hpayload =>
  split
  · exact ⟨rfl, .inl rfl⟩
  next path hpath =>
  split
  · exact ⟨rfl, .inl rfl⟩
  next key hkey =>
  split
  · next hp1 => simp [hpayload, hpath, hkey, hp1] at h
  · split
    · exact ⟨rfl, .inl rfl⟩
    · exact ⟨rfl, .inl rfl⟩

theorem quiet_of_signs {session : Session} {result : Session × Answer}
    (h : Signs device keys kind session frame result) (hclass : frame.instructionClass = 0)
    (hinstruction : Instruction.ofByte? frame.instruction = some (.sign kind))
    (hquiet : ∀ prompt, ¬ session.Asks device keys frame prompt) : session.Quiet result := by
  cases h with
  | refused => exact ⟨rfl, .inr rfl⟩
  | badPath => exact ⟨rfl, .inr rfl⟩
  | started => exact ⟨rfl, .inr rfl⟩
  | added => exact ⟨rfl, .inl rfl⟩
  | completed payload buffer path result hphase hpayload hinitialized happend hrequest hcompletes =>
    cases hcompletes with
    | keyless => exact ⟨rfl, .inr rfl⟩
    | refused => exact ⟨rfl, .inr rfl⟩
    | opened key after hkey hreview =>
      have hreceive : Upload.receive session.buffer (session.initialized kind) frame =
          .ok (.complete, buffer) := by
        rw [hinitialized]
        exact Upload.receive_of_last hphase hpayload happend
      exact absurd (.sign (.completed kind buffer path key after hclass hinstruction hreceive
        hrequest hkey hreview)) (hquiet .sign)

theorem quiet_dispatch {session : Session} (h : ∀ prompt, ¬ session.Asks device keys frame prompt) :
    session.Quiet (session.dispatch device keys frame) := by
  unfold dispatch
  split
  · exact ⟨rfl, .inl rfl⟩
  next hclass =>
  rw [Decidable.not_not] at hclass
  split
  · exact ⟨rfl, .inl rfl⟩
  · unfold getVersion
    split
    · exact ⟨rfl, .inl rfl⟩
    · exact ⟨rfl, .inl rfl⟩
  · next hinstruction =>
    apply quiet_getAddress
    cases hshown : shownKey? keys frame with
    | none => rfl
    | some key => exact absurd (.address key hclass hinstruction hshown) (h (.address key))
  · next kind hinstruction =>
    exact quiet_of_signs (signs device keys kind session frame) hclass hinstruction h

theorem deferred_dispatch_iff (device : Device) (keys : Keystore) (session : Session)
    (frame : Frame) :
    (session.dispatch device keys frame).2.deferred ↔
      ∃ prompt, session.Asks device keys frame prompt := by
  constructor
  · intro hdeferred
    apply Classical.byContradiction
    intro hnone
    have hquiet := quiet_dispatch (not_exists.1 hnone)
    rw [hquiet.1] at hdeferred
    contradiction
  · rintro ⟨prompt, hasks⟩
    rw [(dispatch_of_asks hasks).1]

theorem commands_are_answered (device : Device) (keys : Keystore) (session : Session)
    (before : Exchange) (received : Nat) (hheader : 5 ≤ received)
    (hreceived : received ≤ before.buffer.length) :
    let frame : Frame := ⟨before.buffer, received, hheader, hreceived⟩
    let after := (session.exchange device keys received before).1
    let reply := (session.exchange device keys received before).2
    let answer := (session.dispatch device keys frame).2
    after = (session.dispatch device keys frame).1 ∧
    reply.Carries answer before.buffer ∧
    (∀ tx flags, session.exchange device keys received { before with tx, flags } =
      session.exchange device keys received before) ∧
    (reply.flags = Exchange.deferredFlag ∨ reply.flags = 0) ∧
    (reply.flags = Exchange.deferredFlag ↔
      answer.status = .success ∧ ∃ prompt, session.Asks device keys frame prompt) ∧
    (∀ prompt, session.Asks device keys frame prompt →
      reply.flags = Exchange.deferredFlag ∧ reply.tx = 2 ∧ after.prompt = prompt) ∧
    (reply.flags = 0 → after.prompt = session.prompt ∨ after.prompt = .idle) ∧
    (∀ fault, session.Prepares device keys frame (.error fault) →
      answer.status = .dataInvalid ∧
      answer.body = (ascii fault.message).take (before.buffer.length - 2) ∧
      ((ascii fault.message).length + 2 ≤ before.buffer.length →
        answer.body = ascii fault.message)) := by
  intro frame after reply answer
  have hframe : Frame.ofBuffer before.buffer received = .ok frame := by
    rw [Frame.ofBuffer, dif_pos hheader, dif_pos hreceived]
  have hexchange (tx flags : Nat) :
      session.exchange device keys received { before with tx, flags } =
        ((session.dispatch device keys frame).1,
          (Exchange.ofAnswer answer frame).conclude answer.status) :=
    exchange_of_ok device keys session hframe
  have hafter : after = (session.dispatch device keys frame).1 :=
    congrArg Prod.fst (hexchange before.tx before.flags)
  have hreply : reply = (Exchange.ofAnswer answer frame).conclude answer.status :=
    congrArg Prod.snd (hexchange before.tx before.flags)
  have hbody : answer.body.length + 2 ≤ frame.buffer.length :=
    length_body_dispatch device keys session frame
  have hflags := Exchange.flags_conclude hbody
  rw [← hreply] at hflags
  have hdeferred := deferred_dispatch_iff device keys session frame
  have hset : reply.flags = Exchange.deferredFlag ↔ answer.deferred := by
    rcases hflags with ⟨hset, hdefers⟩ | ⟨hclear, hanswers⟩
    · simp [hset, hdefers]
    · simp [hclear, hanswers, Exchange.deferredFlag]
  refine ⟨hafter, ?_, ?_, ?_, ?_, ?_, ?_, ?_⟩
  · rw [hreply]
    exact Exchange.carries_conclude hbody
  · intro tx flags
    rw [hexchange tx flags]
    exact (hexchange before.tx before.flags).symm
  · exact hflags.imp And.left And.left
  · rw [hset, hdeferred]
    constructor
    · rintro ⟨prompt, hasks⟩
      refine ⟨?_, prompt, hasks⟩
      show (session.dispatch device keys frame).2.status = .success
      rw [(dispatch_of_asks hasks).1]
    · exact And.right
  · intro prompt hasks
    obtain ⟨hanswer, hprompt⟩ := dispatch_of_asks hasks
    refine ⟨hset.2 (hdeferred.2 ⟨prompt, hasks⟩), ?_, ?_⟩
    · rw [hreply, Exchange.conclude_ofAnswer hbody]
      show (session.dispatch device keys frame).2.body.length + 2 = 2
      rw [hanswer]
      rfl
    · rw [hafter, hprompt]
  · intro hzero
    have hnone : ¬ ∃ prompt, session.Asks device keys frame prompt := by
      rw [← hdeferred, ← hset, hzero]
      decide
    rw [hafter]
    exact (quiet_dispatch (not_exists.1 hnone)).2
  · intro fault hprepares
    have hanswer : answer = refusal fault frame := answer_of_refused hprepares
    rw [hanswer]
    refine ⟨rfl, rfl, ?_⟩
    intro hroom
    apply List.take_of_length_le
    show (ascii fault.message).length ≤ before.buffer.length - 2
    omega

theorem commands_are_answered_cut :
    let keys : Keystore := ⟨fun _ => some (.zero 32), fun _ _ => none⟩
    let path : Bytes := [0x2C, 0, 0, 0x80, 0x72, 0x02, 0, 0x80] ++ List.replicate 12 0
    let device : Device := { Device.small with ramSize := 32, flashSize := 32 }
    let init : Exchange := ⟨Upload.packet 0x23 .init path, 0, 0⟩
    let last : Exchange := ⟨Upload.packet 0x23 .last (List.replicate 32 1), 7, 9⟩
    let frame : Frame := ⟨last.buffer, 37, by decide, by decide⟩
    let session := ((fresh device).run device keys [.command 25 init]).1
    let reply := (session.exchange device keys 37 last).2
    let answer := (session.dispatch device keys frame).2
    session.Prepares device keys frame (.error .expertModeRequired) ∧
      answer.status = .dataInvalid ∧
      answer.body = ascii "Expert mode required for this opera" ∧
      reply.Carries answer last.buffer ∧ reply.flags = 0 := by
  intro keys path device init last frame session reply answer
  obtain ⟨-, hcarries, -, hflags, hasks, -, -, hrefused⟩ :=
    commands_are_answered device keys session last 37 (by decide) (by decide)
  have hprepares : session.Prepares device keys frame (.error .expertModeRequired) := by
    apply Prepares.completed .digest ⟨⟨List.replicate 32 1, []⟩, ⟨[], List.replicate 32 0⟩, false⟩
      ⟨0, 0, 0⟩ (.zero 32)
    · rfl
    · rfl
    · rfl
    · rfl
    · rfl
    · exact Prod.ext rfl rfl
  obtain ⟨hstatus, hbody, -⟩ := hrefused .expertModeRequired hprepares
  refine ⟨hprepares, hstatus, hbody.trans (by decide), hcarries, hflags.resolve_left ?_⟩
  intro hset
  have hsuccess := (hasks.1 hset).1
  rw [hstatus] at hsuccess
  contradiction

end Session

end ClearSign
