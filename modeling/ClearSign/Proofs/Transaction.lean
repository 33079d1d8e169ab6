import ClearSign.Proofs.Transfer.Expansion
import ClearSign.Transaction

/-!
This module contains what a transaction holds when a request was read without a fault.
-/

namespace ClearSign.Transaction

theorem readSource_eq_ok {tx after : Transaction}
    (h : (readSource device source).perform tx = (.ok (), after)) :
    ∃ tokens items, Json.tokenize source = .ok tokens ∧
      (ItemList.build device ⟨source, tokens⟩).perform {} = (.ok (), items) ∧
      after = { tx with tokens, items } := by
  rw [readSource, Attempt.perform_bind_eq_ok] at h
  obtain ⟨tokens, read, htokens, h⟩ := h
  rw [Attempt.perform_bind_eq_ok] at h
  obtain ⟨⟨⟩, stored, hstored, h⟩ := h
  rw [Attempt.perform_modify] at hstored
  cases hstored
  obtain ⟨hscan, rfl⟩ := Attempt.perform_lift_eq_ok.1 htokens
  rw [Attempt.perform_within, Prod.mk.injEq] at h
  obtain ⟨hdone, rfl⟩ := h
  exact ⟨tokens, _, hscan, Prod.ext hdone rfl, rfl⟩

theorem perform_readSource (device : Device) {tokens : List Json.Token} {tx : Transaction}
    {items : ItemList}
    (htokens : Json.tokenize source = .ok tokens)
    (hitems : (ItemList.build device ⟨source, tokens⟩).perform tx.items = (.ok (), items)) :
    (readSource device source).perform tx = (.ok (), { tx with tokens, items }) := by
  rw [readSource, htokens, Attempt.perform_bind, Attempt.perform_lift_ok]
  dsimp only
  rw [Attempt.perform_bind, Attempt.perform_modify]
  dsimp only
  rw [Attempt.perform_within]
  dsimp only
  rw [hitems]

theorem readJson_eq_ok {tx after : Transaction}
    (h : (readJson device source key).perform tx = (.ok (), after)) :
    ∃ tokens items, Json.tokenize source = .ok tokens ∧
      (ItemList.build device ⟨source, tokens⟩).perform {} = (.ok (), items) ∧
      after = { tokens, items, hash := .ofMessage source, address := key.toHex, kind := .json } := by
  rw [readJson, Attempt.perform_bind_eq_ok] at h
  obtain ⟨⟨⟩, addressed, haddress, h⟩ := h
  rw [Attempt.perform_set] at haddress
  cases haddress
  rw [Attempt.perform_bind_eq_ok] at h
  obtain ⟨⟨⟩, read, hread, h⟩ := h
  obtain ⟨tokens, items, htokens, hitems, rfl⟩ := readSource_eq_ok hread
  rw [Attempt.perform_modify] at h
  cases h
  exact ⟨tokens, items, htokens, hitems, rfl⟩

theorem readDigest_eq_ok {tx after : Transaction}
    (h : (readDigest device source key expert).perform tx = (.ok (), after)) :
    expert = true ∧ ∃ digest items, Octets.ofBytes? 32 source = some digest ∧
      (ItemList.buildForDigest device).perform {} = (.ok (), items) ∧
      after = { tokens := [], items, hash := .ofDigest digest, address := key.toHex,
                kind := .digest } := by
  rw [readDigest, Attempt.perform_bind_eq_ok] at h
  obtain ⟨⟨⟩, cleared, hcleared, h⟩ := h
  cases expert with
  | false => cases h
  | true =>
    simp only [Bool.not_true, Bool.false_eq_true, if_false] at h
    split at h
    · cases h
    · next digest hdigest =>
      rw [Attempt.perform_bind_eq_ok] at h
      obtain ⟨⟨⟩, read, hread, h⟩ := h
      rw [Attempt.perform_set] at hread
      cases hread
      rw [Attempt.perform_within, Prod.mk.injEq] at h
      obtain ⟨hdone, rfl⟩ := h
      exact ⟨rfl, digest, _, hdigest, Prod.ext hdone rfl, rfl⟩

theorem perform_readTransfer (device : Device) (source : Bytes) (key : Octets 32)
    (tx : Transaction) (out : TieredBuffer) :
    (readTransfer device source key).perform (tx, out) =
      let addressed : Transaction := { address := key.toHex, kind := .transfer }
      match Template.ofBytes source with
      | .error fault => (.error fault, (addressed, out))
      | .ok t =>
        match (Expansion.write t key.toHex.bytes).perform { out, hash := .start } with
        | (.error fault, expansion) => (.error fault, (addressed, expansion.out))
        | (.ok (), expansion) =>
          let (outcome, after) := (readSource device expansion.out.contents).perform
            { addressed with hash := .ofDigest expansion.hash.digest }
          (outcome, (after, expansion.out)) := by
  rw [readTransfer, Attempt.perform_bind, Attempt.perform_modify]
  dsimp only
  rw [Attempt.perform_bind]
  cases Template.ofBytes source with
  | error fault => rfl
  | ok t =>
    simp only [Attempt.perform_lift_ok, Attempt.perform_bind, Attempt.perform_get,
      Attempt.perform_modify]
    rcases (Expansion.write t key.toHex.bytes).perform { out, hash := .start } with
      ⟨outcome, expansion⟩
    cases outcome with
    | error fault => rfl
    | ok => rfl

theorem exists_readTransfer (device : Device) {request : Bytes}
    (htemplate : Template.ofBytes request = .ok t) (key : Octets 32) (tx : Transaction)
    (out : TieredBuffer) (hroom : (t.transaction key.toHex.bytes).length ≤ out.capacity) :
    ∃ written : TieredBuffer, written.contents = t.transaction key.toHex.bytes ∧
      (readTransfer device request key).perform (tx, out) =
        let (outcome, after) := (readSource device written.contents).perform
          { hash := .ofMessage written.contents, address := key.toHex, kind := .transfer }
        (outcome, (after, written)) := by
  obtain ⟨expansion, hwrite⟩ :=
    Expansion.exists_write t key.toHex.bytes { out, hash := .start } hroom
  obtain ⟨hcontents, hhash⟩ := Expansion.write_eq_ok hwrite
  refine ⟨expansion.out, hcontents, ?_⟩
  have hdigest : blake2b expansion.out.contents = expansion.hash.digest := by
    rw [blake2b, hcontents, ← hhash]
  rw [perform_readTransfer, htemplate]
  dsimp only
  rw [hwrite]
  dsimp only
  rw [RequestHash.ofMessage, hdigest]

theorem readTransfer_eq_ok {tx after : Transaction} {out written : TieredBuffer}
    (h : (readTransfer device source key).perform (tx, out) = (.ok (), (after, written))) :
    ∃ t tokens items, Template.ofBytes source = .ok t ∧
      written.contents = t.transaction key.toHex.bytes ∧
      Json.tokenize written.contents = .ok tokens ∧
      (ItemList.build device ⟨written.contents, tokens⟩).perform {} = (.ok (), items) ∧
      after = { tokens, items, hash := .ofDigest (blake2b written.contents), address := key.toHex,
                kind := .transfer } := by
  rw [perform_readTransfer] at h
  dsimp only at h
  split at h
  · cases h
  · next t htemplate =>
    split at h
    · cases h
    · next expansion hwrite =>
      rw [Prod.mk.injEq, Prod.mk.injEq] at h
      obtain ⟨hdone, rfl, rfl⟩ := h
      obtain ⟨hcontents, hhash⟩ := Expansion.write_eq_ok hwrite
      obtain ⟨tokens, items, htokens, hitems, hafter⟩ := readSource_eq_ok (Prod.ext hdone rfl)
      refine ⟨t, tokens, items, htemplate, hcontents, htokens, hitems, hafter.trans ?_⟩
      rw [blake2b, hcontents, ← hhash]

theorem tiers_readTransfer (device : Device) (source : Bytes) (key : Octets 32)
    (tx : Transaction) (out : TieredBuffer) :
    ((readTransfer device source key).perform (tx, out)).2.2.tiers = out.tiers := by
  rw [perform_readTransfer]
  dsimp only
  split
  · rfl
  · next t _ =>
    have hwrite := Expansion.tiers_write t key.toHex.bytes { out, hash := .start }
    split
    · next stopped hstopped =>
      rw [hstopped] at hwrite
      exact hwrite
    · next written hwritten =>
      rw [hwritten] at hwrite
      exact hwrite

theorem respects_readTransfer (device : Device) (source : Bytes) (key : Octets 32) :
    (readTransfer device source key).Respects fun (tx, out) (tx', out') =>
      tx = tx' ∧ out.Alike out' := by
  rintro ⟨tx, out⟩ ⟨tx', out'⟩ ⟨-, halike⟩
  rw [perform_readTransfer, perform_readTransfer]
  dsimp only
  split
  · exact ⟨rfl, rfl, halike⟩
  · next t _ =>
    obtain ⟨houtcome, hafter⟩ := Expansion.respects_write t key.toHex.bytes
      { out, hash := .start } { out := out', hash := .start } ⟨halike, rfl⟩
    generalize (Expansion.write t key.toHex.bytes).perform { out, hash := .start } = written
      at houtcome hafter
    generalize (Expansion.write t key.toHex.bytes).perform { out := out', hash := .start } =
      written' at houtcome hafter
    obtain ⟨outcome, expansion⟩ := written
    obtain ⟨outcome', expansion'⟩ := written'
    cases houtcome
    cases outcome with
    | error fault => exact ⟨rfl, rfl, hafter.out⟩
    | ok =>
      dsimp only at hafter ⊢
      rw [hafter.out.contents_eq, hafter.hash]
      exact ⟨rfl, rfl, hafter.out⟩

end ClearSign.Transaction
