import ClearSign.Proofs.Session.Forgetting
import ClearSign.Proofs.Transfer.Value

/-!
This module contains the proof that what is hashed while a compact transfer is expanded is what is in
memory afterwards, whether or not there is room for all of it.
-/

namespace ClearSign

theorem Expansion.write_isOk_iff (t : Template) (address : Bytes) (before : Expansion) :
    ((write t address).perform before).1 = .ok () ↔
      (t.transaction address).length ≤ before.out.capacity := by
  constructor
  · intro h
    have hcapacity := TieredBuffer.capacity_eq_of_tiers (tiers_write t address before)
    have hcontents := (write_eq_ok (Prod.ext h rfl)).1
    have hlength := TieredBuffer.length_contents_le ((write t address).perform before).2.out
    rwa [hcontents, hcapacity] at hlength
  · intro hroom
    obtain ⟨after, hwrite⟩ := exists_write t address before hroom
    rw [hwrite]

theorem Template.length_transaction_le_capacity {t : Template} (hbounded : t.Bounded)
    (haddress : address.length = 64) (hdevice : Device.small.expansionSize ≤ device.expansionSize)
    (keys : Keystore) (events : List Event) :
    (t.transaction address).length ≤
      ((Session.fresh device).run device keys events).1.expansion.capacity := by
  have hsized : ((Session.fresh device).run device keys events).1.Sized device :=
    Session.sized_run (Session.sized_fresh device) events
  have hlength := length_transaction_le hbounded haddress
  have hsmall : Device.small.expansionSize = 7168 := rfl
  rw [hsized.capacity_expansion]
  omega

namespace Transaction

theorem hash_readSource (device : Device) (source : Bytes) (tx : Transaction) :
    ((readSource device source).perform tx).2.hash = tx.hash := by
  rw [readSource, Attempt.perform_bind]
  cases Json.tokenize source with
  | error fault => rfl
  | ok tokens => rfl

theorem hash_readTransfer (device : Device) {request : Bytes}
    (htemplate : Template.ofBytes request = .ok t) (key : Octets 32) (tx : Transaction)
    (out : TieredBuffer) (hroom : (t.transaction key.toHex.bytes).length ≤ out.capacity) :
    let (after, written) := ((readTransfer device request key).perform (tx, out)).2
    written.contents = t.transaction key.toHex.bytes ∧
      after.hash = .ofMessage written.contents := by
  obtain ⟨written, hcontents, hread⟩ := exists_readTransfer device htemplate key tx out hroom
  rw [hread]
  exact ⟨hcontents, hash_readSource device written.contents _⟩

theorem readTransfer_of_full (device : Device) {request : Bytes}
    (htemplate : Template.ofBytes request = .ok t) (key : Octets 32) (tx : Transaction)
    (out : TieredBuffer) (hfull : out.capacity < (t.transaction key.toHex.bytes).length) :
    ((readTransfer device request key).perform (tx, out)).1 = .error .textTooLong := by
  have hiff := Expansion.write_isOk_iff t key.toHex.bytes { out, hash := .start }
  rw [perform_readTransfer, htemplate]
  dsimp only
  rcases hwrite : (Expansion.write t key.toHex.bytes).perform { out, hash := .start } with
    ⟨outcome, expansion⟩
  rw [hwrite] at hiff
  cases outcome with
  | ok => exact absurd (hiff.1 rfl) (Nat.not_le.2 hfull)
  | error fault => rw [(Expansion.write_eq_error hwrite).1]

theorem expansion_is_hashed_as_written (t : Template) (address : Bytes) :
    t.transaction address = (t.value address).text ∧
    (∀ before : Expansion,
      let (outcome, after) := (Expansion.write t address).perform before
      (outcome = .ok () ↔ (t.transaction address).length ≤ before.out.capacity) ∧
      (outcome = .ok () → after.out.contents = t.transaction address ∧
        after.hash = before.hash.update (t.transaction address)) ∧
      (outcome ≠ .ok () → outcome = .error .textTooLong ∧
        after.out.contents <+: t.transaction address ∧
        after.hash = before.hash.update after.out.contents)) ∧
    (∀ request device tx out, ∀ key : Octets 32, Template.ofBytes request = .ok t →
      hex key.bytes = address →
      let (outcome, after, written) := (readTransfer device request key).perform (tx, out)
      ((t.transaction address).length ≤ out.capacity →
        written.contents = t.transaction address ∧
          after.hash = .ofDigest (blake2b written.contents)) ∧
      (out.capacity < (t.transaction address).length → outcome = .error .textTooLong)) ∧
    ∀ request, Template.ofBytes request = .ok t → address.length = 64 →
      ∀ device ∈ [Device.standard, Device.small], ∀ keys events,
        (t.transaction address).length ≤
          ((Session.fresh device).run device keys events).1.expansion.capacity := by
  refine ⟨Template.transaction_eq_text t address, ?_, ?_, ?_⟩
  · intro before
    have hiff := Expansion.write_isOk_iff t address before
    rcases hwrite : (Expansion.write t address).perform before with ⟨outcome, after⟩
    rw [hwrite] at hiff
    refine ⟨hiff, ?_, ?_⟩
    · rintro rfl
      exact Expansion.write_eq_ok hwrite
    · intro hne
      cases outcome with
      | ok => exact absurd rfl hne
      | error fault =>
        obtain ⟨rfl, hprefix, hhash⟩ := Expansion.write_eq_error hwrite
        exact ⟨rfl, hprefix, hhash⟩
  · rintro request device tx out key htemplate rfl
    exact ⟨hash_readTransfer device htemplate key tx out,
      readTransfer_of_full device htemplate key tx out⟩
  · intro request htemplate haddress device hdevice keys events
    have hbounded := Template.bounded_of_ofBytes htemplate
    apply Template.length_transaction_le_capacity hbounded haddress
    revert device
    decide

theorem expansion_is_hashed_as_written_across :
    let t := Template.acrossChains
    let key : Octets 32 := .zero 32
    let text := t.transaction (hex key.bytes)
    let keys : Keystore := ⟨fun _ => some key, fun _ _ => none⟩
    let path : Bytes := [0x2C, 0, 0, 0x80, 0x72, 0x02, 0, 0x80] ++ List.replicate 12 0
    let send (phase : Phase) (payload : Bytes) : Event :=
      .command (payload.length + 5) ⟨Upload.packet 0x24 phase payload, 0, 0⟩
    let events : List Event := [send .init path, send .last t.encode]
    Template.ofBytes t.encode = .ok t ∧
      text.length ≤ ((Session.fresh .small).run .small keys events).1.expansion.capacity ∧
      (let (_, after, written) := (readTransfer .small t.encode key).perform ({}, .fresh 0 7168)
       written.contents = text ∧ after.hash = .ofDigest (blake2b text)) ∧
      ((readTransfer .small t.encode key).perform ({}, .fresh 0 100)).1 = .error .textTooLong := by
  intro t key text keys path send events
  have hlength : text.length = 878 := by decide +kernel
  have hread : Template.ofBytes t.encode = .ok t :=
    Template.ofBytes_encode Template.bounded_acrossChains
  obtain ⟨-, -, hhashed, hroom⟩ := expansion_is_hashed_as_written t (hex key.bytes)
  refine ⟨hread, ?_, ?_, ?_⟩
  · exact hroom t.encode hread (by decide +kernel) .small (by decide) keys events
  -- the memory is left open in both cases, so that no expansion is computed
  · have hlarge : text.length ≤ (TieredBuffer.fresh 0 7168).capacity := by
      rw [hlength, TieredBuffer.capacity_fresh]
      decide
    generalize TieredBuffer.fresh 0 7168 = out at hlarge ⊢
    have hperformed := hhashed t.encode .small {} out key hread rfl
    rcases hperform : (readTransfer .small t.encode key).perform ({}, out) with
      ⟨outcome, after, written⟩
    rw [hperform] at hperformed
    obtain ⟨hcontents, hhash⟩ := hperformed.1 hlarge
    rw [hcontents] at hhash
    exact ⟨hcontents, hhash⟩
  · have hlittle : (TieredBuffer.fresh 0 100).capacity < text.length := by
      rw [hlength, TieredBuffer.capacity_fresh]
      decide
    generalize TieredBuffer.fresh 0 100 = out at hlittle ⊢
    have hperformed := hhashed t.encode .small {} out key hread rfl
    rcases hperform : (readTransfer .small t.encode key).perform ({}, out) with
      ⟨outcome, after, written⟩
    rw [hperform] at hperformed
    exact hperformed.2 hlittle

end Transaction

end ClearSign
