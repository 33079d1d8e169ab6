import ClearSign.Proofs.KeyPath
import ClearSign.Proofs.Review.Terminator
import ClearSign.Proofs.Review.Validated
import ClearSign.Proofs.Session.Approval

/-!
This module contains the proof that the key that the holder confirms is the key that was asked for,
that all of it is on the screen, and that it is what the host is told.
-/

namespace ClearSign

def hexValue (digit : UInt8) : UInt8 :=
  if digit < 58 then digit - 48 else digit - 87

def unhex : Bytes → Bytes
  | high :: low :: digits => (16 * hexValue high + hexValue low) :: unhex digits
  | _ => []

theorem unhex_hex (bytes : Bytes) : unhex (hex bytes) = bytes := by
  have hbyte : ∀ byte : UInt8,
      16 * hexValue (hexDigit (byte / 16)) + hexValue (hexDigit (byte % 16)) = byte := by
    decide +kernel
  induction bytes with
  | nil => rfl
  | cons byte bytes ih => rw [hex_cons, unhex, hbyte, ih]

theorem Octets.eq_of_hex_eq {first second : Octets n} (h : hex first.bytes = hex second.bytes) :
    first = second := by
  have hbytes : first.bytes = second.bytes := by rw [← unhex_hex first.bytes, h, unhex_hex]
  cases first
  cases second
  cases hbytes
  rfl

theorem mem_digits_of_mem_hex {digit : UInt8} (h : digit ∈ hex bytes) :
    digit ∈ ascii "0123456789abcdef" := by
  have hbyte : ∀ byte : UInt8, hexDigit (byte / 16) ∈ ascii "0123456789abcdef" ∧
      hexDigit (byte % 16) ∈ ascii "0123456789abcdef" := by
    decide +kernel
  exact forall_mem_hex hbyte bytes digit h

namespace Session

theorem readItem_of_paged {session : Session}
    (h : Paged (fun page => session.screen index page title message) noPage label value title
      message) (hlabel : 0 ∉ label) (hvalue : 0 ∉ value) :
    session.readItem index title message =
      .ok { title := label, value, pages := Page.count value message } := by
  have hpages : session.readPages index title message (List.range (Page.count value message)) =
      .ok value := by
    unfold readPages
    rw [mapM_of_forall (g := terminated ∘ Page.chunk value message), ok_bind]
    · have hall := flatten_terminated_eq_iff
        ((List.range (Page.count value message)).map (Page.chunk value message))
      rw [h.whole, List.map_map] at hall
      rw [hall.2 hvalue]
      rfl
    · intro page hpage
      rw [h.page page (List.mem_range.1 hpage), ok_bind, Page.terminated_overwrite]
      rfl
  unfold readItem
  rw [h.page 0 h.count_pos, ok_bind, hpages, ok_bind, Page.terminated_overwrite,
    (terminated_eq_self_iff label).2 hlabel]
  rfl

section

variable {session : Session} (hprompt : session.prompt = .address key)

include hprompt

theorem paged_of_address {title message : Bytes} (htitle : 8 ≤ title.length)
    (hmessage : 2 ≤ message.length) :
    Paged (fun page => session.screen 0 page title message) .noData addressTitle (hex key.bytes)
      title message := by
  have hwidth : 1 ≤ Page.width message := by
    unfold Page.width
    apply Nat.le_min.2
    exact ⟨by omega, by decide⟩
  have hcount : Page.count (hex key.bytes) message ≤ 64 := by
    apply Page.count_le (w := 1) (by decide) hwidth (by decide)
    rw [length_hex, key.length_bytes]
  have hroom : ¬title.length ≤ addressTitle.length := Nat.not_le_of_lt htitle
  have hscreen : ∀ page, session.screen 0 page title message =
      showAddress key page title message := by
    intro page
    rw [screen, hprompt]
    rfl
  constructor
  · apply Page.count_pos
  · omega
  · intro page hpage
    rw [hscreen, showAddress, if_neg hroom, Page.write_of_lt hwidth (by omega) hpage]
  · apply Page.flatten_all_chunks hwidth
  · intro page hpage
    rw [hscreen, showAddress, if_neg hroom, Page.write_of_le hwidth (by omega) hpage]
    rfl

theorem screen_of_address (hindex : 0 < index) (page : Nat) (title message : Bytes) :
    session.screen index page title message = .error .noData := by
  rw [screen, hprompt]
  exact if_pos hindex

theorem toSign?_of_address : session.toSign? = none := by
  apply toSign?_of_prompt
  simp [hprompt]

theorem accept_of_address (device : Device) (keys : Keystore) (hroom : 32 ≤ room) :
    session.step device keys (.accept room) =
      (session.reset, .verdict { status := .success, body := key.bytes }) := by
  have hreviewing : session.isReviewing := by
    rw [isReviewing, hprompt]
    rfl
  have hfits : key.bytes.length ≤ room := by
    rw [key.length_bytes]
    exact hroom
  simp only [step, if_pos hreviewing, accept, approval, toSign?_of_address hprompt, hprompt,
    if_pos hfits]

end

structure AsksAddress (device : Device) (keys : Keystore) (session : Session) (event : Event)
    (path : KeyPath) (key : Octets 32) : Prop where
  command : ∃ received before frame payload, event = .command received before ∧
    Frame.ofBuffer before.buffer received = .ok frame ∧ frame.instructionClass = 0 ∧
    Instruction.ofByte? frame.instruction = some .getAddress ∧ 1 ≤ frame.p1 ∧
    frame.payload = .ok payload ∧ payload.take 20 = path.components.flatMap littleEndian32
  publicKey : keys.publicKey path = some key
  deferred : ∃ after, (session.step device keys event).2 = .exchange after ∧
    after.status? = some .success ∧ after.flags = Exchange.deferredFlag
  result : (session.step device keys event).1 = { session.reset with prompt := .address key }

theorem prompt_of_signs {session : Session} {result : Session × Answer}
    (hsound : session.Sound device) (h : Signs device keys kind session frame result)
    (key : Octets 32) : result.1.prompt ≠ .address key := by
  intro hprompt
  cases h with
  | refused => contradiction
  | badPath => contradiction
  | started => contradiction
  | added payload buffer hphase hpayload hinitialized happend =>
    have hidle := hsound.idle (request_of_initialized hinitialized).1
    rw [hidle] at hprompt
    contradiction
  | completed payload buffer path result hphase hpayload hinitialized happend hrequest hcompletes =>
    cases hcompletes with
    | keyless => contradiction
    | refused => contradiction
    | opened => contradiction

theorem address_step {session : Session} (hsound : session.Sound device) (event : Event)
    (hprompt : (session.step device keys event).1.prompt = .address key) :
    (event.Waits keys ∧ session.prompt = .address key) ∨
      ∃ path, session.AsksAddress device keys event path key := by
  cases event with
  | command received before =>
    cases hframe : Frame.ofBuffer before.buffer received with
    | error short =>
      rw [step_command_of_error device keys session hframe] at hprompt
      left
      exact ⟨⟨Event.move_command_of_error keys hframe, by nofun, by nofun⟩, hprompt⟩
    | ok frame =>
      have hreply := flags_step device keys session hframe
      have hmove := Event.move_command keys hframe
      have hstep := step_command device keys session hframe
      rw [hstep] at hprompt
      have hdispatches := dispatches device keys session frame
      generalize session.dispatch device keys frame = result at hdispatches hreply hstep hprompt
      cases hdispatches with
      | ignored answer hignored =>
        rw [move_of_ignored hignored] at hmove
        left
        exact ⟨⟨hmove, by nofun, by nofun⟩, hprompt⟩
      | shown shown hclass haddress hshown =>
        cases hprompt
        obtain ⟨payload, path, hpayload, hpath, hp1, hkey⟩ := shownKey?_eq_some hshown
        right
        refine ⟨path, ?_, hkey, hreply rfl, hstep⟩
        exact ⟨received, before, frame, payload, rfl, hframe, hclass, haddress, hp1, hpayload,
          KeyPath.take_of_read hpath⟩
      | signed kind result hclass hsign hsigns =>
        exact absurd hprompt (prompt_of_signs hsound hsigns key)
  | setExpert on =>
    left
    exact ⟨⟨rfl, by nofun, by nofun⟩, hprompt⟩
  | reset => contradiction
  | accept room =>
    have hidle := isReviewing_accept device keys session room
    rw [isReviewing, hprompt] at hidle
    contradiction
  | reject =>
    have hidle := isReviewing_reject device keys session
    rw [isReviewing, hprompt] at hidle
    contradiction

theorem step_of_waits {event : Event} (h : event.Waits keys) (device : Device) (session : Session) :
    ∃ on, (session.step device keys event).1 = session.setExpert on := by
  obtain ⟨hmove, haccept, hreject⟩ := h
  cases event with
  | command received before => exact ⟨session.expert, step_of_quiet session hmove device⟩
  | setExpert on => exact ⟨on, rfl⟩
  | reset => contradiction
  | accept room => exact absurd rfl (haccept room)
  | reject => exact absurd rfl hreject

theorem run_of_waits {waiting : List Event} (h : ∀ event ∈ waiting, event.Waits keys)
    (device : Device) (session : Session) :
    ∃ on, (session.run device keys waiting).1 = session.setExpert on := by
  induction waiting generalizing session with
  | nil => exact ⟨session.expert, rfl⟩
  | cons event waiting ih =>
    rw [List.forall_mem_cons] at h
    obtain ⟨on, hstep⟩ := step_of_waits h.1 device session
    obtain ⟨on', hrun⟩ := ih h.2 (session.step device keys event).1
    refine ⟨on', ?_⟩
    rw [run, hrun, hstep]
    rfl

theorem exists_asksAddress {session : Session} (hsound : session.Sound device)
    (hidle : session.prompt = .idle) {events : List Event}
    (hprompt : (session.run device keys events).1.prompt = .address key) :
    ∃ earlier event waiting path, events = earlier ++ event :: waiting ∧
      (session.run device keys earlier).1.AsksAddress device keys event path key ∧
      ∀ other ∈ waiting, other.Waits keys := by
  -- from the last event backwards, to the one that asked
  induction events using List.reverseRecOn with
  | nil =>
    rw [run, hidle] at hprompt
    contradiction
  | append_singleton events event ih =>
    have hbefore := (partialRequest?_run hsound keys events).1
    rw [run_append] at hprompt
    rcases address_step hbefore event hprompt with ⟨hwaits, hprompt⟩ | ⟨path, hasks⟩
    · obtain ⟨earlier, asking, waiting, path, rfl, hasks, hwaiting⟩ := ih hprompt
      refine ⟨earlier, asking, waiting ++ [event], path, ?_, hasks, ?_⟩
      · rw [List.append_assoc, List.cons_append]
      · intro other hother
        rw [List.mem_append, List.mem_singleton] at hother
        rcases hother with hother | rfl
        · exact hwaiting other hother
        · exact hwaits
    · exact ⟨events, event, [], path, rfl, hasks, by simp⟩

/--
The session waits for `key` to be confirmed, and for nothing else. All of the key can be read on the
screen, however small the pages, and only a key that is accepted is told to the host.
-/
structure Confirms (device : Device) (session : Session) (key : Octets 32) : Prop where
  uploading : session.uploading = false
  request : session.request = none
  itemCount : session.itemCount? = some 1
  paged : ∀ title message : Bytes, 8 ≤ title.length → 2 ≤ message.length →
    Paged (fun page => session.screen 0 page title message) .noData (ascii "Address")
      (hex key.bytes) title message
  read : ∀ title message : Bytes, 8 ≤ title.length → 2 ≤ message.length →
    session.readItem 0 title message = .ok
      { title := ascii "Address"
        value := hex key.bytes
        pages := Page.count (hex key.bytes) message }
  behind : ∀ index > 0, ∀ page title message,
    session.screen index page title message = .error .noData
  accepted : ∀ room ≥ 32, ∀ keys : Keystore, session.step device keys (.accept room) =
    (session.reset, .verdict { status := .success, body := key.bytes })
  unsigned : ∀ room, session.signCall? (.accept room) = none

theorem confirms_of_prompt {session : Session} (hprompt : session.prompt = .address key)
    (huploading : session.uploading = false) (hrequest : session.request = none)
    (device : Device) : session.Confirms device key where
  uploading := huploading
  request := hrequest
  itemCount := by rw [itemCount?, hprompt]
  paged := by
    intro title message htitle hmessage
    exact paged_of_address hprompt htitle hmessage
  read := by
    intro title message htitle hmessage
    have hpaged := paged_of_address hprompt htitle hmessage
    exact readItem_of_paged hpaged (by decide) (hex_nul_not_mem key.bytes)
  behind := by
    intro index hindex page title message
    exact screen_of_address hprompt hindex page title message
  accepted := by
    intro room hroom keys
    exact accept_of_address hprompt device keys hroom
  unsigned := fun _ => toSign?_of_address hprompt

theorem confirmed_address_is_returned (device : Device) (keys : Keystore) (events : List Event)
    (key : Octets 32) (h : ((fresh device).run device keys events).1.prompt = .address key) :
    let session := ((fresh device).run device keys events).1
    (∃ earlier event waiting path on, events = earlier ++ event :: waiting ∧
      ((fresh device).run device keys earlier).1.AsksAddress device keys event path key ∧
      (∀ other ∈ waiting, other.Waits keys) ∧
      session = ((fresh device).run device keys (earlier ++ [event])).1.setExpert on) ∧
    session.Confirms device key ∧
    (hex key.bytes).length = 64 ∧
    (∀ digit ∈ hex key.bytes, digit ∈ ascii "0123456789abcdef") ∧
    unhex (hex key.bytes) = key.bytes ∧
    (∀ other : Octets 32, hex other.bytes = hex key.bytes → other = key) := by
  intro session
  obtain ⟨earlier, event, waiting, path, hevents, hasks, hwaiting⟩ :=
    exists_asksAddress (sound_fresh device) rfl h
  obtain ⟨on, hsince⟩ := run_of_waits hwaiting device
    ((fresh device).run device keys (earlier ++ [event])).1
  have hsession : session =
      ((fresh device).run device keys (earlier ++ [event])).1.setExpert on := by
    rw [← hsince, ← run_append, List.append_assoc, List.singleton_append, ← hevents]
  have hasked : ((fresh device).run device keys (earlier ++ [event])).1 =
      { ((fresh device).run device keys earlier).1.reset with prompt := .address key } := by
    rw [run_append]
    exact hasks.result
  have huploading : session.uploading = false := by
    rw [hsession, hasked]
    rfl
  have hrequest : session.request = none := by
    rw [hsession, hasked]
    rfl
  refine ⟨⟨earlier, event, waiting, path, on, hevents, hasks, hwaiting, hsession⟩,
    confirms_of_prompt h huploading hrequest device, ?_, ?_, unhex_hex key.bytes,
    fun other => Octets.eq_of_hex_eq⟩
  · rw [length_hex, key.length_bytes]
  · intro digit hdigit
    exact mem_digits_of_mem_hex hdigit

theorem confirmed_address_is_returned_zero :
    let key : Octets 32 := .zero 32
    let keys : Keystore := ⟨fun _ => some key, fun _ _ => none⟩
    let path : Bytes := [0x2C, 0, 0, 0x80, 0x72, 0x02, 0, 0x80] ++ List.replicate 12 0
    let packet (instruction : UInt8) (payload : Bytes) : Event :=
      .command (payload.length + 5) ⟨Upload.packet instruction .add payload, 0, 0⟩
    let events := [packet 0x21 path, packet 0x20 [], .setExpert true]
    let session := ((fresh .small).run .small keys events).1
    session.prompt = .address key ∧ session.Confirms .small key ∧
      session.readItem 0 (List.replicate 8 0) [0, 0] =
        .ok { title := ascii "Address", value := List.replicate 64 48, pages := 64 } := by
  intro key keys path packet events session
  have hprompt : session.prompt = .address key := by decide +kernel
  have hconfirms := (confirmed_address_is_returned .small keys events key hprompt).2.1
  refine ⟨hprompt, hconfirms, ?_⟩
  rw [hconfirms.read _ _ (by decide) (by decide)]
  decide +kernel

end Session

end ClearSign
