import ClearSign.Proofs.Review.Composition

/-!
This module contains the proof that a review warns of a signer that is not bound by its
capabilities, and only of such a signer.
-/

namespace ClearSign

open Json (Document)

namespace Json.Document

variable {doc : Document}

def IsFirstSigner (doc : Document) (signer : Nat) : Prop :=
  ∃ signers, doc.field? root (ascii "signers") = some signers ∧ doc.isArray signers ∧
    (doc.children signers).head? = some signer

def IsCapabilityList (doc : Document) (signer clist : Nat) : Prop :=
  doc.field? signer (ascii "clist") = some clist ∧ doc.isArray clist

/--
One of the arguments of a capability is a string that says `k:` and the key, or only the key if this
does not begin with `k:` itself.
-/
def NamesKey (doc : Document) (key : Bytes) (capability : Nat) : Prop :=
  ∃ args, doc.field? capability (ascii "args") = some args ∧ doc.isArray args ∧
    ∃ arg ∈ doc.children args, doc.isString arg ∧ ∃ account, doc.text arg = .ok account ∧
      (account = ascii "k:" ++ key ∨ account = key ∧ ¬ ascii "k:" <+: key)

/--
The capabilities of a signer do not bind its key: there is no list of them, or there are transfers in
it and none of these names the key.
-/
def IsUnscoped (doc : Document) (signer : Nat) (key : Bytes) : Prop :=
  (¬ ∃ clist, doc.IsCapabilityList signer clist) ∨
    ∃ clist, doc.IsCapabilityList signer clist ∧
      (∃ capability ∈ doc.children clist, doc.isTransfer capability) ∧
      ∀ capability ∈ doc.children clist, doc.isTransfer capability → ¬ doc.NamesKey key capability

theorem firstSigner?_eq_some_iff : doc.firstSigner? = some signer ↔ doc.IsFirstSigner signer := by
  unfold firstSigner? arrayElement? IsFirstSigner
  rw [Option.bind_eq_some_iff]
  apply exists_congr
  intro signers
  rw [present?_eq_some_iff, and_assoc]
  apply and_congr_right
  intro _
  split
  · next harray => simp [harray, isNull_eq_false_of_isArray harray, List.head?_eq_getElem?]
  · next harray => simp [harray]

theorem signerKey?_eq_some_iff :
    doc.signerKey? = some key ↔
      ∃ signer, doc.IsFirstSigner signer ∧ doc.field? signer (ascii "pubKey") = some key ∧
        ¬ doc.isNull key := by
  unfold signerKey?
  rw [Option.bind_eq_some_iff]
  simp only [firstSigner?_eq_some_iff, present?_eq_some_iff]

theorem capabilityList?_eq_some_iff (hsigner : doc.IsFirstSigner signer) :
    doc.capabilityList? = some clist ↔ doc.IsCapabilityList signer clist := by
  unfold capabilityList? IsCapabilityList
  rw [firstSigner?_eq_some_iff.2 hsigner, Option.bind_some, filter_isArray_eq_some_iff]

theorem accountKey_eq_iff {account key : Bytes} :
    accountKey account = key ↔
      account = ascii "k:" ++ key ∨ account = key ∧ ¬ ascii "k:" <+: key := by
  unfold accountKey
  split
  · next hprefix =>
    rw [List.isPrefixOf_iff_prefix] at hprefix
    obtain ⟨rest, rfl⟩ := hprefix
    have hdrop : (ascii "k:" ++ rest).drop 2 = rest := rfl
    rw [hdrop, List.append_cancel_left_eq]
    constructor
    · exact .inl
    · rintro (hrest | ⟨rfl, hnot⟩)
      · exact hrest
      · exact absurd (List.prefix_append _ _) hnot
  · next hprefix =>
    rw [List.isPrefixOf_iff_prefix] at hprefix
    constructor
    · rintro rfl
      exact .inr ⟨rfl, hprefix⟩
    · rintro (rfl | ⟨hkey, -⟩)
      · exact absurd (List.prefix_append _ _) hprefix
      · exact hkey

theorem isAccountOf_iff :
    doc.isAccountOf key arg ↔
      doc.isString arg ∧ ∃ account, doc.text arg = .ok account ∧
        (account = ascii "k:" ++ key ∨ account = key ∧ ¬ ascii "k:" <+: key) := by
  unfold isAccountOf
  rw [Bool.and_eq_true]
  apply and_congr_right
  intro _
  cases doc.text arg with
  | ok account => simp [accountKey_eq_iff]
  | error fault => simp

theorem namesAccount_iff : doc.namesAccount key capability ↔ doc.NamesKey key capability := by
  unfold namesAccount NamesKey
  simp only [← isAccountOf_iff]
  constructor
  · intro h
    cases hargs : doc.args? capability with
    | none => simp [hargs] at h
    | some args =>
      rw [hargs, Option.elim_some, List.any_eq_true] at h
      obtain ⟨hfield, harray⟩ := filter_isArray_eq_some_iff.1 hargs
      exact ⟨args, hfield, harray, h⟩
  · rintro ⟨args, hfield, harray, harg⟩
    have hargs : doc.args? capability = some args :=
      filter_isArray_eq_some_iff.2 ⟨hfield, harray⟩
    rw [hargs, Option.elim_some, List.any_eq_true]
    exact harg

theorem bindsKey_eq_false_iff {signer key : Nat} {content : Bytes}
    (hsigner : doc.IsFirstSigner signer) (hcontent : doc.text key = .ok content) :
    doc.bindsKey key = false ↔ doc.IsUnscoped signer content := by
  unfold bindsKey IsUnscoped
  simp only [← capabilityList?_eq_some_iff hsigner]
  cases doc.capabilityList? with
  | none => simp
  | some clist =>
    simp only [hcontent, Bool.or_eq_false_iff, Bool.not_eq_false', Option.some.injEq, exists_eq',
      not_true_eq_false, false_or, exists_eq_left', List.any_eq_true, List.any_eq_false,
      Bool.and_eq_true, not_and, ← namesAccount_iff]
    exact and_comm

end Json.Document

namespace ItemList

theorem signerItems_of_unscoped {doc : Document} (hkey : doc.signerKey? = some key)
    (hunbound : doc.bindsKey key = false) :
    doc.signerItems =
      [{ kind := .signerKey, token := key }, { kind := .unscopedSigner, token := key }] := by
  simp [Document.signerItems, hkey, hunbound]

theorem signerItems_of_scoped {doc : Document} (hkey : doc.signerKey? = some key)
    (hbound : doc.bindsKey key) : doc.signerItems = [{ kind := .signerKey, token := key }] := by
  simp [Document.signerItems, hkey, hbound]

theorem exists_items_around_signer (device : Device) (doc : Document) :
    ∃ before behind, (schedule device doc).items = before ++ doc.signerItems ++ behind ∧
      ∀ item ∈ before ++ behind, item.kind ≠ .unscopedSigner := by
  have hother (part : Item.Part) (hpart : part ≠ .opening) :
      ∀ item ∈ partItems device doc part, item.kind ≠ .unscopedSigner := by
    rintro item hitem hkind
    rw [← part_of_mem_partItems hitem, hkind] at hpart
    contradiction
  refine ⟨[{ kind := .signing }] ++ doc.networkItems ++ [{ kind := .requiring }],
    capabilityItems doc ++ doc.metaItems ++ tooLargeItems (contentItems doc) ++
      [{ kind := .hash }] ++ addressItems device, ?_, ?_⟩
  · simp only [items_schedule, contentItems, openingItems, List.append_assoc]
  · simp only [List.forall_mem_append, List.forall_mem_singleton]
    refine ⟨⟨⟨by simp, ?_⟩, by simp⟩, ⟨⟨⟨?_, ?_⟩, ?_⟩, by simp⟩, ?_⟩
    · intro item hitem
      simp [kind_of_mem_networkItems hitem]
    · exact hother .capabilities (by decide)
    · exact hother .terms (by decide)
    · exact hother .tooLarge (by decide)
    · exact hother .address (by decide)

theorem unscoped_signers_are_flagged {device : Device} {source : Bytes} {tokens : List Json.Token}
    {list after : ItemList} (htokens : Json.tokenize source = .ok tokens)
    (hbuild : (build device ⟨source, tokens⟩).perform list = (.ok (), after)) :
    let doc : Document := ⟨source, tokens⟩
    (∀ signer key, doc.IsFirstSigner signer → doc.field? signer (ascii "pubKey") = some key →
      ¬ doc.isNull key →
      ∃ content, doc.text key = .ok content ∧
        (doc.IsUnscoped signer content →
          ∃ before behind,
            after.items = before ++
                [{ kind := .signerKey, token := key }, { kind := .unscopedSigner, token := key }] ++
                behind ∧
              ∀ item ∈ before ++ behind, item.kind ≠ .unscopedSigner) ∧
        (¬ doc.IsUnscoped signer content → ∀ item ∈ after.items, item.kind ≠ .unscopedSigner)) ∧
    ((¬ ∃ signer key, doc.IsFirstSigner signer ∧
        doc.field? signer (ascii "pubKey") = some key ∧ ¬ doc.isNull key) →
      ∀ item ∈ after.items, item.kind ≠ .unscopedSigner) := by
  intro doc
  obtain ⟨before, behind, hitems, hother⟩ := exists_items_around_signer device doc
  rw [← build_eq_ok hbuild] at hitems
  have hnone (hsigner : ∀ item ∈ doc.signerItems, item.kind ≠ .unscopedSigner) :
      ∀ item ∈ after.items, item.kind ≠ .unscopedSigner := by
    rw [List.forall_mem_append] at hother
    rw [hitems, List.forall_mem_append, List.forall_mem_append]
    exact ⟨⟨hother.1, hsigner⟩, hother.2⟩
  constructor
  · intro signer key hsigner hfield hnull
    have hkey : doc.signerKey? = some key :=
      Document.signerKey?_eq_some_iff.2 ⟨signer, hsigner, hfield, hnull⟩
    obtain ⟨content, hcontent⟩ :=
      Json.readable_of_tokenize htokens key (Document.lt_of_field? hfield).2
    have hbinds := Document.bindsKey_eq_false_iff hsigner hcontent
    refine ⟨content, hcontent, ?_, ?_⟩
    · intro hunscoped
      refine ⟨before, behind, ?_, hother⟩
      rw [hitems, signerItems_of_unscoped hkey (hbinds.2 hunscoped)]
    · intro hscoped
      rw [← hbinds, Bool.not_eq_false] at hscoped
      apply hnone
      simp [signerItems_of_scoped hkey hscoped]
  · intro hkeyless
    have hkey : doc.signerKey? = none := by
      rw [Option.eq_none_iff_forall_ne_some]
      intro key hkey
      obtain ⟨signer, hsigner, hfield, hnull⟩ := Document.signerKey?_eq_some_iff.1 hkey
      exact hkeyless ⟨signer, key, hsigner, hfield, hnull⟩
    apply hnone
    simp [Document.signerItems, hkey]

theorem unscoped_signers_are_flagged_nested :
    let source :=
      ascii "\x7b\"signers\":[\x7b\"pubKey\":\"ab\",\"clist\":[\x7b\"name\":\"coin.TRANSFER\",\"args\":[[\"ab\"],\"k:abc\"]\x7d,\x7b\"name\":\"m.C\",\"args\":[\"ab\"]\x7d]\x7d]\x7d"
    ∃ tokens after, Json.tokenize source = .ok tokens ∧
      (build .standard ⟨source, tokens⟩).perform {} = (.ok (), after) ∧
      let doc : Document := ⟨source, tokens⟩
      doc.IsFirstSigner 3 ∧ doc.field? 3 (ascii "pubKey") = some 5 ∧ doc.isNull 5 = false ∧
        doc.IsUnscoped 3 (ascii "ab") ∧
        ∃ before behind,
          after.items = before ++
              [{ kind := .signerKey, token := 5 }, { kind := .unscopedSigner, token := 5 }] ++
              behind ∧
            ∀ item ∈ before ++ behind, item.kind ≠ .unscopedSigner := by
  intro source
  let tokens := (Json.tokenize source).toOption.getD []
  let doc : Document := ⟨source, tokens⟩
  let after := ((build .standard doc).perform {}).2
  have hbuilt : Json.tokenize source = .ok tokens ∧
      (build .standard ⟨source, tokens⟩).perform {} = (.ok (), after) := by
    decide +kernel
  have hfirst : doc.field? Document.root (ascii "signers") = some 2 ∧ doc.isArray 2 ∧
      (doc.children 2).head? = some 3 := by
    decide +kernel
  have hkey : doc.field? 3 (ascii "pubKey") = some 5 ∧ doc.isNull 5 = false ∧
      doc.text 5 = .ok (ascii "ab") ∧ doc.bindsKey 5 = false := by
    decide +kernel
  obtain ⟨htokens, hbuild⟩ := hbuilt
  obtain ⟨hfield, hnull, hcontent, hunbound⟩ := hkey
  have hsigner : doc.IsFirstSigner 3 := ⟨2, hfirst⟩
  have hunscoped := (Document.bindsKey_eq_false_iff hsigner hcontent).1 hunbound
  obtain ⟨hkeyed, -⟩ := unscoped_signers_are_flagged htokens hbuild
  obtain ⟨content, hfound, hwarned, -⟩ := hkeyed 3 5 hsigner hfield (Bool.eq_false_iff.1 hnull)
  obtain rfl : ascii "ab" = content := Except.ok.inj (hcontent.symm.trans hfound)
  exact ⟨tokens, after, htokens, hbuild, hsigner, hfield, hnull, hunscoped, hwarned hunscoped⟩

end ItemList

end ClearSign
