import ClearSign.Proofs.Review.Schedule
import ClearSign.Proofs.Review.Text
import ClearSign.Proofs.Session.Command
import ClearSign.Proofs.Transaction

/-!
This module contains the proof that whatever waits to be signed is what was uploaded and what is on
the screen, however the session got there.
-/

namespace ClearSign

theorem Octets.bytes_of_ofBytes? {octets : Octets n} {content : Bytes}
    (h : ofBytes? n content = some octets) : octets.bytes = content := by
  unfold ofBytes? at h
  split at h
  · cases h
    rfl
  · contradiction

namespace Transaction

def Reviews (device : Device) (tx : Transaction) (source : Bytes) : Prop :=
  match tx.kind with
  | .json | .transfer =>
    Json.tokenize source = .ok tx.tokens ∧
      (ItemList.build device ⟨source, tx.tokens⟩).perform {} = (.ok (), tx.items)
  | .digest => tx.tokens = [] ∧ (ItemList.buildForDigest device).perform {} = (.ok (), tx.items)

def Digests (tx : Transaction) (request expansion : Bytes) : Prop :=
  match tx.kind with
  | .json => tx.hash.digest = blake2b request
  | .digest => tx.hash.digest.bytes = request
  | .transfer =>
    tx.hash.digest = blake2b expansion ∧
      ∃ t, Template.ofBytes request = .ok t ∧ expansion = t.transaction tx.address.bytes

theorem shows_hash {tx : Transaction} (source : Bytes) (hhash : tx.hash = .ofDigest tx.hash.digest)
    (hitem : item.kind = .hash) : tx.Shows source item (base64 tx.hash.digest.bytes) := by
  have htext : tx.hash.text.bytes = base64 tx.hash.digest.bytes := by
    rw [hhash]
    rfl
  rw [shows_iff, ReviewData.text, hitem, length_base64, tx.hash.digest.length_bytes]
  exact ⟨congrArg Except.ok htext, by decide⟩

theorem shows_address (tx : Transaction) (source : Bytes) (hitem : item.kind = .signForAddress) :
    tx.Shows source item tx.address.bytes := by
  rw [shows_iff, ReviewData.text, hitem, tx.address.length_bytes]
  exact ⟨rfl, by decide⟩

theorem mem_items_of_reviews {tx : Transaction} (h : tx.Reviews device source) :
    { kind := .hash } ∈ tx.items.items ∧
      (device.showsSigner → { kind := .signForAddress } ∈ tx.items.items) := by
  have hbuild : ∀ {doc}, (ItemList.build device doc).perform {} = (.ok (), tx.items) →
      { kind := .hash } ∈ tx.items.items ∧
        (device.showsSigner → { kind := .signForAddress } ∈ tx.items.items) := by
    intro doc hitems
    rw [ItemList.build_eq_ok hitems]
    simp +contextual [ItemList.schedule, ItemList.extend, ItemList.addressItems]
  unfold Reviews at h
  split at h
  · exact hbuild h.2
  · exact hbuild h.2
  · rw [ItemList.buildForDigest_eq_ok h.2]
    simp +contextual [ItemList.digestSchedule, ItemList.extend, ItemList.addressItems]

end Transaction

namespace Session

/--
What waits to be signed is the request that was uploaded for `path`, whose public key is `key`.
-/
structure Faithful (device : Device) (keys : Keystore) (session : Session) (path : KeyPath)
    (key : Octets 32) : Prop where
  uploading : session.uploading = false
  request : session.request = some (path, session.transaction.kind)
  publicKey : keys.publicKey path = some key
  address : session.transaction.address.bytes = hex key.bytes
  reviews : session.transaction.Reviews device session.source
  digests : session.transaction.Digests session.buffer.contents session.expansion.contents
  hashText : session.transaction.hash = .ofDigest session.transaction.hash.digest
  valid : session.transaction.validate session.source = .ok ()

theorem faithful_of_prepareReview {session after : Session}
    (h : (prepareReview device kind key).perform session = (.ok (), after))
    (huploading : session.uploading = false) (hrequest : session.request = some (path, kind))
    (hkey : keys.publicKey path = some key) : after.Faithful device keys path key := by
  obtain ⟨hread, hvalid⟩ := prepareReview_eq_ok h
  cases kind with
  | json =>
    rcases hperform : (Transaction.readJson device session.buffer.contents key).perform
      session.transaction with ⟨outcome, transaction⟩
    rw [perform_readRequest_json, hperform] at hread
    cases hread
    obtain ⟨tokens, items, htokens, hitems, rfl⟩ := Transaction.readJson_eq_ok hperform
    exact ⟨huploading, hrequest, hkey, rfl, ⟨htokens, hitems⟩, rfl, rfl, hvalid⟩
  | digest =>
    rcases hperform : (Transaction.readDigest device session.buffer.contents key
      session.expert).perform session.transaction with ⟨outcome, transaction⟩
    rw [perform_readRequest_digest, hperform] at hread
    cases hread
    obtain ⟨-, digest, items, hdigest, hitems, rfl⟩ := Transaction.readDigest_eq_ok hperform
    exact ⟨huploading, hrequest, hkey, rfl, ⟨rfl, hitems⟩, Octets.bytes_of_ofBytes? hdigest, rfl,
      hvalid⟩
  | transfer =>
    rcases hperform : (Transaction.readTransfer device session.buffer.contents key).perform
      (session.transaction, session.expansion) with ⟨outcome, transaction, expansion⟩
    rw [perform_readRequest_transfer, hperform] at hread
    cases hread
    obtain ⟨t, tokens, items, htemplate, hcontents, htokens, hitems, rfl⟩ :=
      Transaction.readTransfer_eq_ok hperform
    exact ⟨huploading, hrequest, hkey, rfl, ⟨htokens, hitems⟩, ⟨rfl, t, htemplate, hcontents⟩, rfl,
      hvalid⟩

def Guarded (device : Device) (keys : Keystore) (session : Session) : Prop :=
  session.prompt = .sign → ∃ path key, session.Faithful device keys path key

theorem guarded_of_idle {session : Session} (h : session.prompt ≠ .sign) :
    session.Guarded device keys := by
  intro hsign
  contradiction

theorem guarded_reset (session : Session) : session.reset.Guarded device keys :=
  guarded_of_idle (by simp [reset])

theorem guarded_of_signs {session : Session} {result : Session × Answer}
    (hguarded : session.Guarded device keys) (h : Signs device keys kind session frame result) :
    result.1.Guarded device keys := by
  cases h with
  | refused => exact guarded_reset _
  | badPath => exact guarded_reset _
  | started => exact guarded_of_idle (by simp [reset])
  | added payload buffer hphase hpayload hinitialized happend =>
    -- a packet is taken only while nothing waits for approval
    intro hsign
    obtain ⟨path, key, hfaithful⟩ := hguarded hsign
    have huploading := (request_of_initialized hinitialized).1
    rw [hfaithful.uploading] at huploading
    contradiction
  | completed payload buffer path result hphase hpayload hinitialized happend hrequest hcompletes =>
    cases hcompletes with
    | keyless => exact guarded_reset _
    | refused => exact guarded_reset _
    | opened key after hkey hreview =>
      intro hsign
      obtain ⟨huploading, hrequest, hkey, haddress, hreviews, hdigests, htext, hvalid⟩ :=
        faithful_of_prepareReview hreview rfl hrequest hkey
      exact ⟨path, key, huploading, hrequest, hkey, haddress, hreviews, hdigests, htext, hvalid⟩

theorem guarded_step {session : Session} (hguarded : session.Guarded device keys) (event : Event) :
    (session.step device keys event).1.Guarded device keys := by
  cases event with
  | command received before =>
    simp only [step, exchange]
    split
    · exact hguarded
    · next frame hframe =>
      have hdispatches := dispatches device keys session frame
      generalize session.dispatch device keys frame = result at hdispatches ⊢
      cases hdispatches with
      | ignored => exact hguarded
      | shown => exact guarded_of_idle (by simp)
      | signed kind result hclass hsign hsigns => exact guarded_of_signs hguarded hsigns
  | setExpert on =>
    intro hsign
    obtain ⟨path, key, huploading, hrequest, hkey, haddress, hreviews, hdigests, htext, hvalid⟩ :=
      hguarded hsign
    exact ⟨path, key, huploading, hrequest, hkey, haddress, hreviews, hdigests, htext, hvalid⟩
  | reset => exact guarded_reset _
  | accept room =>
    simp only [step]
    split
    · exact guarded_reset _
    · exact hguarded
  | reject =>
    simp only [step]
    split
    · exact guarded_reset _
    · exact hguarded

theorem guarded_run {session : Session} (hguarded : session.Guarded device keys)
    (events : List Event) : (session.run device keys events).1.Guarded device keys := by
  induction events generalizing session with
  | nil => exact hguarded
  | cons event events ih => exact ih (guarded_step hguarded event)

theorem shown_is_signed (device : Device) (keys : Keystore) (events : List Event) :
    let session := ((fresh device).run device keys events).1
    let tx := session.transaction
    session.prompt = .sign →
      ∃ path key, session.Faithful device keys path key ∧
        (∀ room, session.approval keys room =
          match keys.sign path tx.hash.digest with
          | none => { status := .signVerifyError }
          | some signature =>
            if signature.bytes.length ≤ room then { status := .success, body := signature.bytes }
            else { status := .outputBufferTooSmall }) ∧
        (∃ item ∈ tx.items.items, item.kind = .hash) ∧
        (∀ item ∈ tx.items.items, item.kind = .hash →
          tx.Shows session.source item (base64 tx.hash.digest.bytes)) ∧
        (device.showsSigner → ∃ item ∈ tx.items.items, item.kind = .signForAddress) ∧
        (∀ item ∈ tx.items.items, item.kind = .signForAddress →
          tx.Shows session.source item (hex key.bytes)) := by
  intro session tx hsign
  have hguarded : session.Guarded device keys :=
    guarded_run (guarded_of_idle (by simp [fresh])) events
  obtain ⟨path, key, hfaithful⟩ := hguarded hsign
  obtain ⟨hhash, hsigner⟩ := Transaction.mem_items_of_reviews hfaithful.reviews
  refine ⟨path, key, hfaithful, ?_, ⟨_, hhash, rfl⟩, ?_, ?_, ?_⟩
  · intro room
    simp only [approval, toSign?, hsign, hfaithful.request]
    rfl
  · intro item _ hkind
    exact Transaction.shows_hash session.source hfaithful.hashText hkind
  · intro hshows
    exact ⟨_, hsigner hshows, rfl⟩
  · intro item _ hkind
    rw [← hfaithful.address]
    exact Transaction.shows_address tx session.source hkind

theorem shown_is_signed_digest :
    let keys : Keystore := ⟨fun _ => some (.zero 32), fun _ _ => none⟩
    let path : Bytes := [0x2C, 0, 0, 0x80, 0x72, 0x02, 0, 0x80] ++ List.replicate 12 0
    let send (phase : Phase) (payload : Bytes) : Event :=
      .command (payload.length + 5) ⟨Upload.packet 0x23 phase payload, 0, 0⟩
    let events := [.setExpert true, send .init path, send .last (List.replicate 32 1)]
    let session := ((fresh .standard).run .standard keys events).1
    session.prompt = .sign ∧ ∃ path key, session.Faithful .standard keys path key := by
  intro keys path send events session
  have hsign : session.prompt = .sign := by decide +kernel
  obtain ⟨path, key, hfaithful, -⟩ := shown_is_signed .standard keys events hsign
  exact ⟨hsign, path, key, hfaithful⟩

end Session

end ClearSign
