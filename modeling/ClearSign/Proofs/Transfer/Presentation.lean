import ClearSign.Proofs.Session.Forgetting
import ClearSign.Proofs.Transfer.Shown

/-!
This module contains the proof that a compact transfer whose fields fit into JSON is read and shown,
whatever it says. The memory of a session is large enough for each of them on every device.
-/

namespace ClearSign

open Json (Document Value)

theorem Json.plain_hex (bytes : Bytes) : Json.Plain (hex bytes) :=
  forall_mem_hex (by decide +kernel) bytes

namespace Template

theorem exists_tokens {t : Template} (hfitting : t.Fitting) (hbounded : t.Bounded)
    (hplain : Json.Plain address) (haddress : address.length = 64) :
    ∃ tokens, Json.tokenize (t.transaction address) = .ok tokens ∧
      Document.Holds ⟨t.transaction address, tokens⟩ Document.root (t.value address) := by
  have hvalid := valid_value hfitting hplain
  have hlength := length_transaction_le hbounded haddress
  rw [transaction_eq_text] at hlength ⊢
  have hshort : (t.value address).text.length < Limit.jsonLength :=
    Nat.lt_of_le_of_lt hlength (by decide)
  exact ⟨_, Value.tokenize_text hvalid hshort (depth_value t address) (count_value t address),
    Document.holds_root hvalid hshort⟩

theorem length_grantText_lt {t : Template} {address : Bytes} (hbounded : t.Bounded)
    (haddress : address.length = 64) : (t.grantText address).length < Limit.value := by
  obtain ⟨hrecipient, hrecipientChain, -, hamount, hmoduleSpace, hmoduleName, -⟩ := hbounded
  have hlimit : Limit.value = 512 := rfl
  unfold grantText grantSuffix
  cases t.isCoin
  all_goals
    cases t.kind
    all_goals
      simp only [if_true, Bool.false_eq_true, if_false, List.length_append, ascii, List.length_map,
        String.reduceToList, List.length_cons, List.length_nil, Nat.reduceAdd]
      linarith

theorem length_review_le {t : Template} {address : Bytes} (device : Device) :
    (t.review device address).length ≤ Limit.items := by
  unfold review Limit.items
  split <;> simp

theorem length_of_mem_review {t : Template} {address : Bytes} (hbounded : t.Bounded)
    (haddress : address.length = 64) (device : Device) :
    ∀ shown ∈ t.review device address,
      shown.1.title.length < Limit.title ∧ shown.2.length < Limit.value := by
  have hgrantKind : t.grantKind.title.length < Limit.title := by
    unfold grantKind
    cases t.isCoin <;> cases t.kind <;> decide
  have hgas : (ascii "at most " ++ t.gasLimit ++ ascii " at price " ++ t.gasPrice).length <
      Limit.value := by
    have hgasLimit := hbounded.gasLimit
    have hgasPrice := hbounded.gasPrice
    have hlimit : Limit.value = 512 := rfl
    simp only [List.length_append, ascii, List.length_map, String.reduceToList, List.length_cons,
      List.length_nil, Nat.reduceAdd]
    linarith
  have hhash : (base64 (blake2b (t.transaction address)).bytes).length < Limit.value := by
    rw [length_base64, Octets.length_bytes]
    decide
  have hnetwork : t.network.length < Limit.value :=
    Nat.lt_of_le_of_lt hbounded.network (by decide)
  have hchain : t.chain.length < Limit.value := Nat.lt_of_le_of_lt hbounded.chain (by decide)
  have hsigner : address.length < Limit.value := by
    rw [haddress]
    decide
  unfold review
  simp only [List.forall_mem_append, List.forall_mem_cons]
  refine ⟨⟨by decide, ⟨by decide, hnetwork⟩, by decide, ⟨by decide, hsigner⟩, by decide,
    ⟨hgrantKind, length_grantText_lt hbounded haddress⟩, ⟨by decide, hchain⟩, ⟨by decide, hgas⟩,
    ⟨by decide, hhash⟩, by simp⟩, ?_⟩
  split
  · simp only [List.forall_mem_singleton]
    exact ⟨by decide, hsigner⟩
  · simp

end Template

namespace Transaction

def Presents (tx : Transaction) (source : Bytes) (review : List (Item.Kind × Bytes)) : Prop :=
  List.Forall₂ (fun item shown => item.kind = shown.1 ∧ tx.Shows source item shown.2)
    tx.items.items review

theorem presents_of_text {tx : Transaction} {review : List (Item.Kind × Bytes)}
    (h : List.Forall₂ (fun item shown =>
      item.kind = shown.1 ∧ (tx.renderer source).text item = .ok shown.2) tx.items.items review)
    (hlength : ∀ shown ∈ review, shown.2.length < Limit.value) : tx.Presents source review := by
  have hshown := ((List.forall₂_and_left _ _).2 ⟨hlength, h.flip⟩).flip
  apply hshown.imp
  rintro item shown ⟨hroom, hkind, htext⟩
  exact ⟨hkind, shows_iff.2 ⟨htext, hroom⟩⟩

theorem validate_of_presents {tx : Transaction} {review : List (Item.Kind × Bytes)}
    (h : tx.Presents source review)
    (htitle : ∀ shown ∈ review, shown.1.title.length < Limit.title) : tx.validate source = .ok () := by
  have hshown := ((List.forall₂_and_left _ _).2 ⟨htitle, h.flip⟩).flip
  have hitems : List.Forall₂ (fun item _ =>
      (item.kind.title.length < Limit.title ∧ ∃ text, tx.Shows source item text) ∧ True)
      tx.items.items review := by
    apply hshown.imp
    rintro item shown ⟨hroom, hkind, htext⟩
    rw [← hkind] at hroom
    exact ⟨⟨hroom, shown.2, htext⟩, trivial⟩
  rw [validate_eq_ok_iff]
  exact ((List.forall₂_and_left _ _).1 hitems).1

theorem transfer_is_shown {t : Template} (htemplate : Template.ofBytes request = .ok t)
    (hfitting : t.Fitting) (key : Octets 32) :
    (∀ (device : Device) (tx : Transaction) (out : TieredBuffer),
      (t.transaction (hex key.bytes)).length ≤ out.capacity →
      ∃ after written,
        (readTransfer device request key).perform (tx, out) = (.ok (), (after, written)) ∧
        after.validate written.contents = .ok () ∧
        after.Presents written.contents (t.review device (hex key.bytes))) ∧
    ∀ device : Device, Device.small.expansionSize ≤ device.expansionSize → ∀ keys events,
      (t.transaction (hex key.bytes)).length ≤
        ((Session.fresh device).run device keys events).1.expansion.capacity := by
  have hbounded := Template.bounded_of_ofBytes htemplate
  have haddress : (hex key.bytes).length = 64 := by
    rw [length_hex, key.length_bytes]
  constructor
  · intro device tx out hroom
    obtain ⟨written, hcontents, hread⟩ := exists_readTransfer device htemplate key tx out hroom
    obtain ⟨tokens, htokens, hholds⟩ :=
      Template.exists_tokens hfitting hbounded (Json.plain_hex key.bytes) haddress
    change written.contents = t.transaction (hex key.bytes) at hcontents
    rw [← hcontents] at htokens hholds
    let after : Transaction := {
      tokens
      items := ItemList.schedule device ⟨written.contents, tokens⟩
      hash := .ofMessage written.contents
      address := key.toHex
      kind := .transfer }
    have hhash : (after.renderer written.contents).hash.text.bytes =
        base64 (blake2b (t.transaction (hex key.bytes))).bytes := by
      rw [← hcontents]
      rfl
    have htext := ReviewData.text_schedule (r := after.renderer written.contents) hholds hfitting
      hbounded haddress hhash rfl device
    have hlengths := Template.length_of_mem_review hbounded haddress device
    have hpresents : after.Presents written.contents (t.review device (hex key.bytes)) :=
      presents_of_text htext fun shown hshown => (hlengths shown hshown).2
    have hfits : after.items.items.length ≤ Limit.items := by
      rw [hpresents.length_eq]
      exact Template.length_review_le device
    refine ⟨after, written, ?_, ?_, hpresents⟩
    · rw [hread, perform_readSource device htokens
        (ItemList.perform_build_of_fits device htokens hfits _)]
    · exact validate_of_presents hpresents fun shown hshown => (hlengths shown hshown).1
  · intro device hsize keys events
    have hsized : ((Session.fresh device).run device keys events).1.Sized device :=
      Session.sized_run (Session.sized_fresh device) events
    -- No expansion is longer than 1536 bytes.
    have hlength := Template.length_transaction_le hbounded haddress
    have hsmall : Device.small.expansionSize = 7168 := rfl
    rw [hsized.capacity_expansion]
    omega

def coinTransfer : Template where
  kind := .transfer
  recipient := List.replicate 64 0x61
  recipientChain := ascii "0"
  network := ascii "mainnet01"
  amount := ascii "1.5"
  moduleSpace := []
  moduleName := []
  gasPrice := ascii "1.0e-6"
  gasLimit := ascii "2300"
  creationTime := ascii "1665722463"
  chain := ascii "0"
  nonce := ascii "first"
  ttl := ascii "600"

theorem fitting_coinTransfer : coinTransfer.Fitting where
  recipient := by decide +kernel
  recipientChain := by decide +kernel
  network := by decide +kernel
  moduleSpace := by decide +kernel
  moduleName := by decide +kernel
  chain := by decide +kernel
  nonce := by decide +kernel
  amount := ⟨.mk _ _ (by decide +kernel) (by decide +kernel), by decide +kernel⟩
  gasPrice := .mk _ _ (by decide +kernel) (by decide +kernel)
  gasLimit := .mk _ _ (by decide +kernel) (by decide +kernel)
  creationTime := .mk _ _ (by decide +kernel) (by decide +kernel)
  ttl := .mk _ _ (by decide +kernel) (by decide +kernel)

theorem transfer_is_shown_coin :
    let request := coinTransfer.kind.toByte ::
      coinTransfer.fields.flatMap fun field => UInt8.ofNat field.length :: field
    ∃ after written,
      (readTransfer .standard request (.zero 32)).perform ({}, .fresh 0 15360) =
        (.ok (), (after, written)) ∧
      after.validate written.contents = .ok () ∧
      after.Presents written.contents
        (coinTransfer.review .standard (hex (Octets.zero 32).bytes)) := by
  intro request
  have htemplate : Template.ofBytes request = .ok coinTransfer := by decide +kernel
  obtain ⟨hshown, -⟩ := transfer_is_shown htemplate fitting_coinTransfer (.zero 32)
  apply hshown
  decide +kernel

end Transaction

end ClearSign
