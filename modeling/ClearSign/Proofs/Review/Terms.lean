import ClearSign.Proofs.Json.Correspondence
import ClearSign.Proofs.Review.Composition
import ClearSign.Proofs.Review.Exactness

/-!
This module contains the proof that a review tells the chain and the gas of a transaction from its
`meta`, or warns that it cannot tell them. The values of `meta` may be anything, also containers
with the keys of `meta` in them.
-/

namespace ClearSign

open Json (Document Tree IsText)

namespace Json.Tree

def keyTexts (source : Bytes) (members : List (Tree × Tree)) : List Bytes :=
  members.map fun member => member.1.content source

/--
The first member of a transaction with the key `meta` is an object with these values, and with
exactly the keys that it should have.
-/
def HasMeta (source : Bytes) (tree info : Tree) (values : List Tree) : Prop :=
  ∃ fields members, tree.HasMembers fields ∧
    (fields.find? fun member => member.1.content source == ascii "meta").map Prod.snd = some info ∧
    info.HasMembers members ∧
    keyTexts source members =
      [ascii "creationTime", ascii "ttl", ascii "gasLimit", ascii "chainId", ascii "gasPrice",
       ascii "sender"] ∧
    members.map Prod.snd = values

def IsNull (source : Bytes) (node : Tree) : Prop :=
  node.token.kind = .primitive ∧ node.content source = ascii "null"

instance (source : Bytes) (node : Tree) : Decidable (node.IsNull source) :=
  inferInstanceAs (Decidable (_ ∧ _))

theorem at_root (tree : Tree) : tree.At Document.root tree := by
  rw [At, ← subtree?_eq_getElem?]
  exact tree.subtree?_zero

theorem HasMeta.length_eq {tree info : Tree} {values : List Tree}
    (h : tree.HasMeta source info values) : values.length = 6 := by
  obtain ⟨fields, members, -, -, -, hkeys, rfl⟩ := h
  have hlength := congrArg List.length hkeys
  rw [keyTexts, List.length_map] at hlength
  rw [List.length_map]
  exact hlength

end Json.Tree

theorem length_and_all_zip_iff {members : List α} {keys : List Bytes} {text : α → Bytes} :
    (members.length = keys.length ∧
        (members.zip keys).all fun pair => text pair.1 == pair.2) ↔
      members.map text = keys := by
  induction members generalizing keys with
  | nil => cases keys <;> simp
  | cons member members ih =>
    cases keys with
    | nil => simp
    | cons key keys =>
      rw [List.map_cons, List.cons.injEq, ← ih]
      simp only [List.length_cons, List.zip_cons_cons, List.all_cons, Bool.and_eq_true, beq_iff_eq,
        Nat.add_right_cancel_iff]
      exact and_left_comm

theorem find?_of_nodup {members : List α} {text : α → Bytes} (h : (members.map text).Nodup)
    (hmember : member ∈ members) :
    members.find? (fun other => text other == text member) = some member := by
  induction members with
  | nil => contradiction
  | cons first members ih =>
    rw [List.map_cons, List.nodup_cons] at h
    rw [List.find?_cons]
    rcases List.mem_cons.1 hmember with rfl | hlater
    · rw [beq_self_eq_true]
    · have hne : (text first == text member) = false := by
        rw [beq_eq_false_iff_ne]
        intro heq
        exact h.1 (heq ▸ List.mem_map_of_mem hlater)
      rw [hne]
      exact ih h.2 hlater

namespace Json.Document

theorem isNull_eq_false_of_isObject {doc : Document} (h : doc.isObject i) : doc.isNull i = false := by
  simp only [isObject, beq_iff_eq] at h
  simp [isNull, h]

theorem filter_hasKeys_eq_some_iff {doc : Document} {keys : List Bytes} :
    (doc.present? object key).filter (doc.hasKeys · keys) = some value ↔
      doc.field? object key = some value ∧ doc.hasKeys value keys := by
  -- An object is not `null`, so it is present wherever it is found.
  rw [Option.filter_eq_some_iff, present?_eq_some_iff, and_assoc]
  apply and_congr_right
  intro _
  rw [and_iff_right_iff_imp]
  intro hkeys
  simp only [hasKeys, Bool.and_eq_true] at hkeys
  simp [isNull_eq_false_of_isObject hkeys.1.1]

section Node

variable {doc : Document} {tree node : Tree} {i : Nat}

variable (htext : IsText doc.source tree) (htokens : doc.tokens = tree.tokens)
  (hlength : doc.source.length < Limit.jsonLength)

include htext htokens hlength

theorem isNull_iff_of_at (h : tree.At i node) : doc.isNull i ↔ node.IsNull doc.source := by
  have htoken := (children_of_at htext htokens hlength h).1
  have hcontent := text_of_at htext htokens hlength h
  simp [isNull, kind?, htoken, reads, hcontent, Tree.IsNull]

theorem exists_hasMembers_of_isObject (h : tree.At i node) (hobject : doc.isObject i) :
    ∃ members, node.HasMembers members := by
  have htoken := (children_of_at htext htokens hlength h).1
  obtain ⟨before, value, after, -, hvalue⟩ := htext.grammar_of_at h
  apply hvalue.exists_hasMembers
  simpa [isObject, kind?, htoken] using hobject

theorem hasKeys_iff_of_hasMembers {members : List (Tree × Tree)} {keys : List Bytes}
    (h : tree.At i node) (hmembers : node.HasMembers members) :
    doc.hasKeys i keys ↔ Tree.keyTexts doc.source members = keys := by
  obtain ⟨hobject, hkeyed⟩ := members_of_hasMembers htext htokens hlength h hmembers
  rw [Tree.keyTexts, ← length_and_all_zip_iff, hasKeys, hobject, hkeyed.length_eq,
    all_zip_eq_of_forall₂ hkeyed (q := fun pair => pair.1.1.content doc.source == pair.2)]
  · simp
  · intro member found key hmember
    exact isStringOf_of_at htext htokens hlength hmember.1.1 hmember.2 key

theorem exists_member_of_field? (h : tree.At i node) (hfield : doc.field? i key = some j) :
    ∃ members value, node.HasMembers members ∧
      (members.find? fun member => member.1.content doc.source == key).map Prod.snd = some value ∧
      tree.At j value := by
  have hobject : doc.isObject i := by
    unfold field? at hfield
    split at hfield
    · next hobject => exact hobject
    · contradiction
  obtain ⟨members, hmembers⟩ := exists_hasMembers_of_isObject htext htokens hlength h hobject
  have hfound := field?_of_hasMembers htext htokens hlength h hmembers key
  rw [hfield] at hfound
  generalize hvalue : (members.find? _).map Prod.snd = found at hfound
  cases hfound with
  | some hat => exact ⟨members, _, hmembers, hvalue, hat⟩

theorem exists_field?_of_member {members : List (Tree × Tree)} {value : Tree} (h : tree.At i node)
    (hmembers : node.HasMembers members)
    (hvalue : (members.find? fun member => member.1.content doc.source == key).map Prod.snd =
      some value) :
    ∃ j, doc.field? i key = some j ∧ tree.At j value := by
  have hfound := field?_of_hasMembers htext htokens hlength h hmembers key
  rw [hvalue] at hfound
  generalize hfield : doc.field? i key = field at hfound
  cases hfound with
  | some hat => exact ⟨_, rfl, hat⟩

theorem exists_field?_of_getElem? {members : List (Tree × Tree)} {keys : List Bytes}
    {values : List Tree} {value : Tree} (h : tree.At i node) (hmembers : node.HasMembers members)
    (hkeys : Tree.keyTexts doc.source members = keys) (hdistinct : keys.Nodup)
    (hvalues : members.map Prod.snd = values) {n : Nat} (hkey : keys[n]? = some key)
    (hvalue : values[n]? = some value) : ∃ j, doc.field? i key = some j ∧ tree.At j value := by
  rw [← hkeys] at hdistinct
  rw [← hkeys, Tree.keyTexts, List.getElem?_map, Option.map_eq_some_iff] at hkey
  obtain ⟨member, hmember, rfl⟩ := hkey
  rw [← hvalues, List.getElem?_map, hmember, Option.map_some, Option.some_inj] at hvalue
  apply exists_field?_of_member htext htokens hlength h hmembers
  rw [find?_of_nodup hdistinct (List.mem_of_getElem? hmember), Option.map_some, hvalue]

theorem exists_hasMeta_of_recognised
    (h : (doc.present? root (ascii "meta")).filter (doc.hasKeys · metaKeys) = some i) :
    ∃ info values, tree.HasMeta doc.source info values ∧ tree.At i info := by
  obtain ⟨hfield, hkeys⟩ := filter_hasKeys_eq_some_iff.1 h
  obtain ⟨fields, info, hfields, hinfo, hat⟩ :=
    exists_member_of_field? htext htokens hlength tree.at_root hfield
  have hobject : doc.isObject i := by
    simp only [hasKeys, Bool.and_eq_true] at hkeys
    exact hkeys.1.1
  obtain ⟨members, hmembers⟩ := exists_hasMembers_of_isObject htext htokens hlength hat hobject
  rw [hasKeys_iff_of_hasMembers htext htokens hlength hat hmembers] at hkeys
  exact ⟨info, _, ⟨fields, members, hfields, hinfo, hmembers, hkeys, rfl⟩, hat⟩

theorem exists_recognised_of_hasMeta {info : Tree} {values : List Tree}
    (h : tree.HasMeta doc.source info values) :
    ∃ i, (doc.present? root (ascii "meta")).filter (doc.hasKeys · metaKeys) = some i ∧
      tree.At i info := by
  obtain ⟨fields, members, hfields, hinfo, hmembers, hkeys, -⟩ := h
  obtain ⟨i, hfield, hat⟩ :=
    exists_field?_of_member htext htokens hlength tree.at_root hfields hinfo
  refine ⟨i, filter_hasKeys_eq_some_iff.2 ⟨hfield, ?_⟩, hat⟩
  exact (hasKeys_iff_of_hasMembers htext htokens hlength hat hmembers).2 hkeys

theorem exists_meta_field? {info creationTime ttl gasLimit chainId gasPrice sender : Tree}
    (hat : tree.At i info)
    (h : tree.HasMeta doc.source info [creationTime, ttl, gasLimit, chainId, gasPrice, sender]) :
    (∃ j, doc.field? i (ascii "gasLimit") = some j ∧ tree.At j gasLimit) ∧
    (∃ j, doc.field? i (ascii "chainId") = some j ∧ tree.At j chainId) ∧
      ∃ j, doc.field? i (ascii "gasPrice") = some j ∧ tree.At j gasPrice := by
  obtain ⟨fields, members, -, -, hmembers, hkeys, hvalues⟩ := h
  have hfield {n : Nat} {key : Bytes} {value : Tree} (hkey : metaKeys[n]? = some key)
      (hvalue : [creationTime, ttl, gasLimit, chainId, gasPrice, sender][n]? = some value) :
      ∃ j, doc.field? i key = some j ∧ tree.At j value :=
    exists_field?_of_getElem? htext htokens hlength hat hmembers hkeys (by decide) hvalues hkey
      hvalue
  exact ⟨hfield (n := 2) rfl rfl, hfield (n := 3) rfl rfl, hfield (n := 4) rfl rfl⟩

end Node

end Json.Document

theorem ReviewData.render_chain {r : ReviewData} {content : Bytes}
    (hhash : r.hash = .ofDigest r.hash.digest) (h : r.doc.text chain = .ok content) (out : Bytes) :
    r.render { kind := .chain, token := chain } out =
      if content = [] then .error .emptyText
      else if content.length < out.length then
        .ok (content.length, content ++ [0] ++ out.drop (content.length + 1))
      else .error .textTooLong := by
  split
  · next hempty => exact render_of_vacant ⟨by simp, hempty ▸ h⟩ out
  · next hne =>
    have hsays : r.Says { kind := .chain, token := chain } content := ⟨h, hne⟩
    exact render_of_full hhash hsays out

namespace ItemList

theorem filter_terms_schedule (device : Device) (doc : Document) :
    (schedule device doc).items.filter (fun item => item.kind ∈ [.chain, .gas, .caution]) =
      doc.metaItems := by
  have hterms : doc.metaItems = partItems device doc .terms := rfl
  rw [hterms, ← filter_part_schedule device doc .terms]
  apply List.filter_congr
  intro item _
  cases item.kind <;> rfl

theorem metaItems_of_recognised {doc : Document} {chain : Nat}
    (h : (doc.present? Document.root (ascii "meta")).filter (doc.hasKeys · metaKeys) = some info)
    (hchain : doc.field? info (ascii "chainId") = some chain) :
    doc.metaItems =
      (if doc.isNull chain then [] else [{ kind := .chain, token := chain }]) ++
        [{ kind := .gas, token := info }] := by
  rw [Document.metaItems, h]
  dsimp only
  rw [Document.chainItems, Document.present?, hchain, Option.filter_some]
  cases doc.isNull chain <;> rfl

theorem terms_are_shown_or_flagged {device : Device} {source : Bytes} {tokens : List Json.Token}
    {list after : ItemList} (htokens : Json.tokenize source = .ok tokens)
    (hbuild : (build device ⟨source, tokens⟩).perform list = (.ok (), after)) :
    let terms := after.items.filter fun item => item.kind ∈ [.chain, .gas, .caution]
    ∃ tree, IsText source tree ∧ (∀ other, IsText source other → other = tree) ∧
      tokens = tree.tokens ∧
      (∀ info creationTime ttl gasLimit chainId gasPrice sender,
        tree.HasMeta source info [creationTime, ttl, gasLimit, chainId, gasPrice, sender] →
        ∃ token chain, tree.At token info ∧ tree.At chain chainId ∧
          terms = (if chainId.IsNull source then [] else [{ kind := .chain, token := chain }]) ++
            [{ kind := .gas, token }] ∧
          ∀ (digest : Octets 32) (address out : Bytes),
            let r : ReviewData := { doc := ⟨source, tokens⟩, hash := .ofDigest digest, address }
            let gas := ascii "at most " ++ gasLimit.content source ++ ascii " at price " ++
              gasPrice.content source
            (r.render { kind := .gas, token } out =
              if gas.length < out.length then
                .ok (gas.length, gas ++ [0] ++ out.drop (gas.length + 1))
              else .error .textTooLong) ∧
            let shown := chainId.content source
            r.render { kind := .chain, token := chain } out =
              if shown = [] then .error .emptyText
              else if shown.length < out.length then
                .ok (shown.length, shown ++ [0] ++ out.drop (shown.length + 1))
              else .error .textTooLong) ∧
      ((¬ ∃ info values, tree.HasMeta source info values) → terms = [{ kind := .caution }]) := by
  intro terms
  obtain ⟨hlength, tree, htext, rfl⟩ := Json.isText_of_tokenize htokens
  let doc : Document := ⟨source, tree.tokens⟩
  have hterms : terms = doc.metaItems := by
    rw [← filter_terms_schedule device doc, ← build_eq_ok hbuild]
  refine ⟨tree, htext, fun other hother => hother.eq_of_tokenize htext htokens, rfl, ?_, ?_⟩
  · intro info creationTime ttl gasLimit chainId gasPrice sender hmeta
    obtain ⟨token, hrecognised, hat⟩ :=
      doc.exists_recognised_of_hasMeta htext rfl hlength hmeta
    -- the keys are recognised by their places, and the values are looked up by the keys again
    obtain ⟨⟨limit, hlimit, hlimitAt⟩, ⟨chain, hchain, hchainAt⟩, ⟨price, hprice, hpriceAt⟩⟩ :=
      doc.exists_meta_field? htext rfl hlength hat hmeta
    have hnull : doc.isNull chain ↔ chainId.IsNull source :=
      doc.isNull_iff_of_at htext rfl hlength hchainAt
    have hlimitText := doc.text_of_at htext rfl hlength hlimitAt
    have hpriceText := doc.text_of_at htext rfl hlength hpriceAt
    have hchainText := doc.text_of_at htext rfl hlength hchainAt
    refine ⟨token, chain, hat, hchainAt, ?_, ?_⟩
    · rw [hterms, metaItems_of_recognised hrecognised hchain]
      simp only [hnull]
    · intro digest address out r gas
      have hsays : r.Says { kind := .gas, token } gas :=
        ⟨limit, price, _, _, hlimit, hlimitText, hprice, hpriceText, rfl⟩
      exact ⟨ReviewData.render_of_full rfl hsays out, ReviewData.render_chain rfl hchainText out⟩
  · intro hnone
    rw [hterms, Document.metaItems]
    cases hfound : (doc.present? Document.root (ascii "meta")).filter
        (doc.hasKeys · metaKeys) with
    | none => rfl
    | some found =>
      obtain ⟨info, values, hmeta, -⟩ :=
        Document.exists_hasMeta_of_recognised htext rfl hlength hfound
      exact absurd ⟨info, values, hmeta⟩ hnone

theorem terms_are_shown_or_flagged_nested :
    let source :=
      ascii "\x7b\"meta\":\x7b\"creationTime\":1,\"ttl\":2,\"gasLimit\":\x7b\"gasPrice\":9\x7d,\"chainId\":\"0\",\"gasPrice\":3,\"sender\":[]\x7d\x7d"
    ∃ tokens after, Json.tokenize source = .ok tokens ∧
      (build .standard ⟨source, tokens⟩).perform {} = (.ok (), after) ∧
      (∃ tree info values, IsText source tree ∧ tree.HasMeta source info values) ∧
      after.items.filter (fun item => item.kind ∈ [.chain, .gas, .caution]) =
        [{ kind := .chain, token := 12 }, { kind := .gas, token := 2 }] ∧
      let r : ReviewData :=
        { doc := ⟨source, tokens⟩, hash := .ofDigest (.zero 32), address := [] }
      r.render { kind := .gas, token := 2 } (List.replicate 35 7) =
        .ok (33, ascii "at most \x7b\"gasPrice\":9\x7d at price 3" ++ [0, 7]) := by
  intro source
  let tokens := (Json.tokenize source).toOption.getD []
  let doc : Document := ⟨source, tokens⟩
  let after := ((build .standard doc).perform {}).2
  have hbuilt : Json.tokenize source = .ok tokens ∧
      (build .standard ⟨source, tokens⟩).perform {} = (.ok (), after) := by
    decide +kernel
  have hitems : after.items.filter (fun item => item.kind ∈ [.chain, .gas, .caution]) =
      [{ kind := .chain, token := 12 }, { kind := .gas, token := 2 }] := by
    decide +kernel
  have hfound : (doc.present? Document.root (ascii "meta")).filter (doc.hasKeys · metaKeys) =
      some 2 := by
    decide +kernel
  have htexts : (doc.field? 2 (ascii "gasLimit")).map doc.text =
        some (.ok (ascii "\x7b\"gasPrice\":9\x7d")) ∧
      (doc.field? 2 (ascii "gasPrice")).map doc.text = some (.ok (ascii "3")) := by
    decide +kernel
  obtain ⟨htokens, hbuild⟩ := hbuilt
  obtain ⟨tree, htext, -, hall, hshown, -⟩ := terms_are_shown_or_flagged htokens hbuild
  have hlength : source.length < Limit.jsonLength := (Json.tokenize_eq_ok_iff.1 htokens).1
  obtain ⟨info, values, hmeta, hat⟩ :=
    doc.exists_hasMeta_of_recognised htext hall hlength hfound
  refine ⟨tokens, after, htokens, hbuild, ⟨tree, info, values, htext, hmeta⟩, hitems, ?_⟩
  match values, hmeta, hmeta.length_eq with
  | [creationTime, ttl, gasLimit, chainId, gasPrice, sender], hmeta, _ =>
    obtain ⟨token, chain, -, -, hterms, hrendered⟩ :=
      hshown info creationTime ttl gasLimit chainId gasPrice sender hmeta
    obtain rfl : token = 2 := by
      have hlast := congrArg List.getLast? (hterms.symm.trans hitems)
      simpa using hlast
    obtain ⟨⟨limit, hlimit, hlimitAt⟩, -, price, hprice, hpriceAt⟩ :=
      doc.exists_meta_field? htext hall hlength hat hmeta
    rw [hlimit, hprice, Option.map_some, Option.map_some,
      doc.text_of_at htext hall hlength hlimitAt, doc.text_of_at htext hall hlength hpriceAt,
      Option.some.injEq, Option.some.injEq, Except.ok.injEq, Except.ok.injEq] at htexts
    have hgas := (hrendered (.zero 32) [] (List.replicate 35 7)).1
    rw [htexts.1, htexts.2] at hgas
    intro r
    rw [hgas]
    decide

end ItemList

end ClearSign
