import ClearSign.Proofs.Json.Correspondence
import ClearSign.Proofs.Json.Lexeme
import ClearSign.Proofs.Review.Composition
import ClearSign.Proofs.Review.Exactness

/-!
This module contains the proof that the arguments of an unknown capability are shown in full, or
that the review says that they are not, in their place and once more in a warning of its own.
-/

namespace ClearSign

open Json (Document quoted)

namespace Json.Document

variable {doc : Document}

/--
The first `args` of a capability is there and not `null`, but it is no array, or an array that has
more than five elements or takes more than 256 bytes with its brackets.
-/
def HasUnshownArgs (doc : Document) (capability : Nat) : Prop :=
  ∃ args content, doc.field? capability (ascii "args") = some args ∧ ¬ doc.isNull args ∧
    doc.text args = .ok content ∧
      (¬ doc.isArray args ∨ 5 < (doc.children args).length ∨ 256 < content.length)

def HasNoArgs (doc : Document) (capability : Nat) : Prop :=
  ∀ args, doc.field? capability (ascii "args") = some args →
    doc.isNull args ∨ doc.isArray args ∧ doc.children args = []

/--
What is said behind the name of an unknown capability: each argument with its number and as it is
written in the source, or that there are no arguments, or that they cannot be displayed.
-/
structure Discloses (doc : Document) (item : Item) (rest : Bytes) : Prop where
  shown : item.shown → ∀ args, doc.field? item.token (ascii "args") = some args →
    doc.isArray args → doc.children args ≠ [] →
      ∃ values, (doc.children args).map doc.written = values.map some ∧ rest = numbered values
  none : rest = ascii "no args" ↔ item.shown ∧ doc.HasNoArgs item.token
  unshown : rest = ascii Phrase.argsNotShown ↔ ¬ item.shown

theorem length_text {content : Bytes} (htoken : doc.token? i = some token)
    (h : doc.text i = .ok content) : content.length = token.length := by
  unfold text at h
  rw [htoken] at h
  dsimp only at h
  split at h
  · next hbounds =>
    cases h
    rw [List.extract_eq_take_drop, List.length_take, List.length_drop, Token.length]
    omega
  · contradiction

theorem showsArgs_eq_false_iff (hread : doc.Readable) :
    doc.showsArgs capability = false ↔ doc.HasUnshownArgs capability := by
  unfold showsArgs HasUnshownArgs
  cases hpresent : doc.present? capability (ascii "args") with
  | none =>
    simp only [Bool.true_eq_false, false_iff]
    rintro ⟨args, content, hfield, hnull, -⟩
    have hsome := present?_eq_some_iff.2 ⟨hfield, hnull⟩
    rw [hpresent] at hsome
    contradiction
  | some args =>
    obtain ⟨hfield, hnull⟩ := present?_eq_some_iff.1 hpresent
    obtain ⟨content, hcontent⟩ := hread args (lt_of_field? hfield).2
    obtain ⟨token, htoken, -⟩ := text_eq_ok hcontent
    have harray : doc.isArray args = (token.kind == .array) := by
      rw [isArray, kind?, htoken, Option.map_some]
      rfl
    have hspan := length_text htoken hcontent
    dsimp only
    rw [htoken]
    dsimp only
    rw [← harray, ← hspan, Bool.and_eq_false_iff, Bool.and_eq_false_iff, decide_eq_false_iff_not,
      decide_eq_false_iff_not, Nat.not_le, Nat.not_le, or_assoc,
      ← Bool.not_eq_true (doc.isArray args)]
    constructor
    · intro h
      exact ⟨args, content, hfield, hnull, hcontent, h⟩
    · rintro ⟨found, text, hfield', -, htext, h⟩
      obtain rfl : args = found := Option.some.inj (hfield.symm.trans hfield')
      obtain rfl : content = text := Except.ok.inj (hcontent.symm.trans htext)
      exact h

theorem written_of_isString {text : Bytes} (htokens : tokenize doc.source = .ok doc.tokens)
    (hstring : doc.isString i) (h : doc.text i = .ok text) : doc.written i = some (quoted text) := by
  obtain ⟨hshort, tree, htext, hall⟩ := isText_of_tokenize htokens
  obtain ⟨⟨token, inside⟩, hat⟩ := tree.exists_at_iff.2 (hall ▸ lt_of_isString hstring)
  obtain ⟨before, value, after, hsource, hvalue⟩ := htext.grammar_of_at hat
  have htoken := (children_of_at htext hall hshort hat).1
  have hkind : token.kind = .string := by simpa [isString, kind?, htoken] using hstring
  rw [written_of_grammar hshort hsource hvalue htoken]
  cases hvalue with
  | string _ content =>
    have hcontent : doc.text i = .ok content := by
      have hlength := congrArg List.length hsource
      simp only [List.length_append, quoted, List.length_singleton] at hlength
      apply Holds.text_of_token? hshort htoken _ (by omega)
      have hsplit : doc.source =
          (before ++ [Byte.quote]) ++ (content ++ ([Byte.quote] ++ after)) := by
        simp [hsource, quoted]
      rw [hsplit, List.drop_left' (by simp)]
      exact List.prefix_append _ _
    cases hcontent.symm.trans h
    rfl
  | primitive => simp [Token.closed] at hkind
  | empty container => cases container <;> simp [Token.closed, Container.kind] at hkind
  | filled container => cases container <;> simp [Token.closed, Container.kind] at hkind

theorem exists_written_eq_shownText (htokens : tokenize doc.source = .ok doc.tokens)
    (hi : i < doc.tokens.length) :
    ∃ value, doc.written i = some value ∧ doc.shownText i = .ok value := by
  obtain ⟨content, hcontent⟩ := readable_of_tokenize htokens i hi
  unfold shownText
  rw [hcontent, ok_bind]
  cases hstring : doc.isString i with
  | true => exact ⟨quoted content, written_of_isString htokens hstring hcontent, rfl⟩
  | false =>
    obtain ⟨token, htoken, hextract⟩ := text_eq_ok hcontent
    refine ⟨content, ?_, rfl⟩
    rw [written, htoken, Option.map_some, hextract]
    cases hkind : token.kind with
    | string => simp [isString, kind?, htoken, hkind] at hstring
    | object | array | primitive => rfl

theorem map_written_of_shownText {indices : List Nat} {values : List Bytes}
    (htokens : tokenize doc.source = .ok doc.tokens)
    (hindices : ∀ i ∈ indices, i < doc.tokens.length)
    (h : indices.map doc.shownText = values.map Except.ok) :
    indices.map doc.written = values.map some := by
  induction indices generalizing values with
  | nil =>
    obtain rfl : values = [] := by simpa [eq_comm] using h
    rfl
  | cons i indices ih =>
    cases values with
    | nil => simp at h
    | cons value values =>
      rw [List.forall_mem_cons] at hindices
      rw [List.map_cons, List.map_cons, List.cons.injEq] at h
      obtain ⟨found, hwritten, hshown⟩ := exists_written_eq_shownText htokens hindices.1
      obtain rfl : found = value := Except.ok.inj (hshown.symm.trans h.1)
      rw [List.map_cons, List.map_cons, hwritten, ih hindices.2 h.2]

theorem argList_of_field? (hfield : doc.field? capability (ascii "args") = some args)
    (harray : doc.isArray args) : doc.argList capability = doc.children args := by
  have hargs : doc.args? capability = some args :=
    filter_isArray_eq_some_iff.2 ⟨hfield, harray⟩
  rw [argList, hargs, Option.elim_some]

theorem argList_eq_nil_iff (hread : doc.Readable) (hshown : doc.showsArgs capability) :
    doc.argList capability = [] ↔ doc.HasNoArgs capability := by
  constructor
  · intro hnil args hfield
    by_cases hnull : doc.isNull args
    · exact .inl hnull
    · have harray : doc.isArray args := by
        obtain ⟨content, hcontent⟩ := hread args (lt_of_field? hfield).2
        rw [← Bool.not_eq_false, showsArgs_eq_false_iff hread] at hshown
        apply Classical.byContradiction
        intro hother
        exact hshown ⟨args, content, hfield, hnull, hcontent, .inl hother⟩
      rw [argList_of_field? hfield harray] at hnil
      exact .inr ⟨harray, hnil⟩
  · intro hnone
    cases hargs : doc.args? capability with
    | none => rw [argList, hargs, Option.elim_none]
    | some args =>
      obtain ⟨hfield, harray⟩ := filter_isArray_eq_some_iff.1 hargs
      rw [argList_of_field? hfield harray]
      rcases hnone args hfield with hnull | ⟨-, hnil⟩
      · rw [isNull_eq_false_of_isArray harray] at hnull
        contradiction
      · exact hnil

theorem prefix_numbered (value : Bytes) (values : List Bytes) :
    ascii "arg " <+: numbered (value :: values) := by
  rw [numbered, List.zipIdx_cons, List.map_cons, ReviewData.intercalate_cons]
  simp only [List.append_assoc]
  exact List.prefix_append _ _

theorem numbered_ne (value : Bytes) (values : List Bytes) {phrase : Bytes}
    (h : ¬ ascii "arg " <+: phrase) : numbered (value :: values) ≠ phrase := by
  rintro rfl
  exact h (prefix_numbered value values)

theorem discloses_of_shown {item : Item} {values : List Bytes}
    (htokens : tokenize doc.source = .ok doc.tokens) (hshown : item.shown)
    (hshows : doc.showsArgs item.token)
    (hvalues : (doc.argList item.token).map doc.shownText = values.map Except.ok) :
    doc.Discloses item (if values.isEmpty then ascii "no args" else numbered values) := by
  have hread := readable_of_tokenize htokens
  have hempty : doc.argList item.token = [] ↔ values = [] := by
    rw [← List.map_eq_nil_iff (f := doc.shownText), hvalues, List.map_eq_nil_iff]
  constructor
  · intro _ args hfield harray hne
    rw [argList_of_field? hfield harray] at hvalues hempty
    refine ⟨values, ?_, ?_⟩
    · apply map_written_of_shownText htokens _ hvalues
      intro i hi
      exact (lt_of_mem_children hi).2
    · rw [if_neg (by simpa [hempty] using hne)]
  -- neither phrase begins like a list of arguments
  · rw [← argList_eq_nil_iff hread hshows, hempty]
    cases values with
    | nil => simp [hshown]
    | cons value values =>
      have hne : numbered (value :: values) ≠ ascii "no args" :=
        numbered_ne value values (by decide)
      simp [hne]
  · cases values with
    | nil => simp [hshown]; decide
    | cons value values =>
      have hne : numbered (value :: values) ≠ ascii Phrase.argsNotShown :=
        numbered_ne value values (by decide)
      simp [hne, hshown]

theorem discloses_of_not_shown {item : Item} (hshown : ¬ item.shown) :
    doc.Discloses item (ascii Phrase.argsNotShown) where
  shown h := absurd h hshown
  none := ⟨fun h => absurd h (by decide), fun h => absurd h.1 hshown⟩
  unshown := ⟨fun _ => hshown, fun _ => rfl⟩

end Json.Document

namespace Item

variable {doc : Document} {item : Item}

def Withholds (doc : Document) (item : Item) : Prop :=
  (∃ n, item.kind = .unknownCapability n) ∧ doc.HasUnshownArgs item.token

def Judged (doc : Document) (item : Item) : Prop :=
  match item.kind with
  | .unknownCapability _ => item.shown = doc.showsArgs item.token
  | _ => item.shown = true

theorem Judged.shown_eq_false_iff (h : item.Judged doc) (hread : doc.Readable) :
    item.shown = false ↔ item.Withholds doc := by
  unfold Judged at h
  unfold Withholds
  split at h
  · next n hkind => simp [h, hkind, Document.showsArgs_eq_false_iff hread]
  · next hother =>
    rw [h, Bool.true_eq_false, false_iff]
    rintro ⟨⟨n, hkind⟩, -⟩
    exact hother n hkind

end Item

theorem ReviewData.exists_discloses (r : ReviewData) {item : Item}
    (htokens : Json.tokenize r.doc.source = .ok r.doc.tokens) (hjudged : item.Judged r.doc)
    (hkind : item.kind = .unknownCapability n)
    (hname : r.doc.field? item.token (ascii "name") = some name) :
    ∃ nameText rest, r.doc.text name = .ok nameText ∧ r.doc.Discloses item rest ∧
      r.Says item (ascii "name: " ++ nameText ++ ascii ", " ++ rest) := by
  have hread := Json.readable_of_tokenize htokens
  obtain ⟨nameText, hnameText⟩ := hread name (Document.lt_of_field? hname).2
  simp only [Item.Judged, hkind] at hjudged
  simp only [Says, hkind]
  by_cases hshown : item.shown
  · obtain ⟨values, hvalues⟩ := exists_shownTexts hread item.token
    have hdiscloses :=
      Document.discloses_of_shown htokens hshown (hjudged ▸ hshown) hvalues
    refine ⟨nameText, _, hnameText, hdiscloses, name, nameText, _, hname, hnameText, rfl, ?_⟩
    rw [if_pos hshown]
    exact ⟨values, hvalues, rfl⟩
  · refine ⟨nameText, _, hnameText, Document.discloses_of_not_shown hshown, name, nameText, _, hname,
      hnameText, rfl, ?_⟩
    rw [if_neg hshown]

namespace ItemList

section Judged

variable {doc : Document}

theorem judged_networkItems : ∀ item ∈ doc.networkItems, item.Judged doc := by
  unfold Document.networkItems
  cases doc.present? Document.root (ascii "networkId") with
  | none => simp
  | some network => simp [Item.Judged]

theorem judged_signerItems : ∀ item ∈ doc.signerItems, item.Judged doc := by
  unfold Document.signerItems
  split
  · simp
  · split <;> simp [Item.Judged]

theorem judged_enter {list : ItemList} (h : ∀ item ∈ list.items, item.Judged doc) (gas : Option Nat)
    (capability : Nat) : ∀ item ∈ (list.enter doc gas capability).items, item.Judged doc := by
  unfold enter
  split
  all_goals
    rw [List.forall_mem_append, List.forall_mem_singleton]
    exact ⟨h, rfl⟩

theorem judged_foldl_enter {list : ItemList} (h : ∀ item ∈ list.items, item.Judged doc)
    (gas : Option Nat) (capabilities : List Nat) :
    ∀ item ∈ (capabilities.foldl (enter doc gas) list).items, item.Judged doc := by
  induction capabilities generalizing list with
  | nil => exact h
  | cons capability capabilities ih => exact ih (judged_enter h gas capability)

theorem judged_capabilityItems : ∀ item ∈ capabilityItems doc, item.Judged doc := by
  unfold capabilityItems grantAll
  split
  · simp [Item.Judged]
  · exact judged_foldl_enter (by simp) _ _

theorem judged_metaItems : ∀ item ∈ doc.metaItems, item.Judged doc := by
  unfold Document.metaItems
  split
  · simp [Item.Judged]
  · next info _ =>
    unfold Document.chainItems
    cases doc.present? info (ascii "chainId") with
    | none => simp [Item.Judged]
    | some chain => simp [Item.Judged]

theorem judged_schedule (device : Device) :
    ∀ item ∈ (schedule device doc).items, item.Judged doc := by
  have htooLarge (items : List Item) : ∀ item ∈ tooLargeItems items, item.Judged doc := by
    intro item hitem
    rw [eq_of_mem_tooLargeItems hitem]
    rfl
  have haddress : ∀ item ∈ addressItems device, item.Judged doc := by
    intro item hitem
    rw [eq_of_mem_addressItems hitem]
    rfl
  rw [items_schedule, contentItems, openingItems]
  simp only [List.forall_mem_append, List.forall_mem_singleton]
  exact ⟨⟨⟨⟨⟨⟨⟨⟨rfl, judged_networkItems⟩, rfl⟩, judged_signerItems⟩, judged_capabilityItems⟩,
    judged_metaItems⟩, htooLarge _⟩, rfl⟩, haddress⟩

theorem tooLargeItems_schedule (device : Device) (doc : Document) :
    tooLargeItems (schedule device doc).items = tooLargeItems (contentItems doc) := by
  -- the warning and what stands behind it do not call for another one
  have hlarge (items : List Item) : (tooLargeItems items).all Item.shown := by
    rw [List.all_eq_true]
    intro item hitem
    rw [eq_of_mem_tooLargeItems hitem]
  have haddress : (addressItems device).all Item.shown := by
    rw [List.all_eq_true]
    intro item hitem
    rw [eq_of_mem_addressItems hitem]
  rw [items_schedule, tooLargeItems, List.all_append, List.all_append, List.all_append, hlarge,
    haddress, Bool.and_true, Bool.and_true]
  simp only [List.all_cons, List.all_nil, Bool.and_true]
  rfl

theorem filter_tooLarge_schedule (device : Device) (doc : Document) :
    (schedule device doc).items.filter (fun item => item.kind = .tooLarge) =
      tooLargeItems (schedule device doc).items := by
  rw [tooLargeItems_schedule, ← partItems, ← filter_part_schedule device doc .tooLarge]
  apply List.filter_congr
  intro item _
  cases item.kind <;> rfl

end Judged

theorem arguments_are_shown_or_withheld {device : Device} {source : Bytes}
    {tokens : List Json.Token} {list after : ItemList}
    (htokens : Json.tokenize source = .ok tokens)
    (hbuild : (build device ⟨source, tokens⟩).perform list = (.ok (), after)) :
    let doc : Document := ⟨source, tokens⟩
    (∀ item ∈ after.items, item.shown = false ↔ item.Withholds doc) ∧
    ((∃ item ∈ after.items, item.Withholds doc) →
      after.items.filter (fun item => item.kind = .tooLarge) = [{ kind := .tooLarge }]) ∧
    ((¬ ∃ item ∈ after.items, item.Withholds doc) →
      after.items.filter (fun item => item.kind = .tooLarge) = []) ∧
    ∀ item ∈ after.items, ∀ n, item.kind = .unknownCapability n →
      ∀ (digest : Octets 32) (address out : Bytes),
        let r : ReviewData := { doc, hash := .ofDigest digest, address }
        (doc.field? item.token (ascii "name") = none → r.render item out = .error .noData) ∧
        ∀ name, doc.field? item.token (ascii "name") = some name →
          ∃ nameText rest, doc.text name = .ok nameText ∧ doc.Discloses item rest ∧
            let full := ascii "name: " ++ nameText ++ ascii ", " ++ rest
            r.render item out =
              if full.length < out.length then
                .ok (full.length, full ++ [0] ++ out.drop (full.length + 1))
              else .error .textTooLong := by
  intro doc
  have hread : doc.Readable := Json.readable_of_tokenize htokens
  rw [build_eq_ok hbuild, filter_tooLarge_schedule]
  have hmarked : ∀ item ∈ (schedule device doc).items, item.shown = false ↔ item.Withholds doc :=
    fun item hitem => (judged_schedule device item hitem).shown_eq_false_iff hread
  refine ⟨hmarked, ?_, ?_, ?_⟩
  · rintro ⟨item, hitem, hwithholds⟩
    have hshown := (hmarked item hitem).2 hwithholds
    rw [tooLargeItems, if_neg]
    rw [List.all_eq_true]
    intro hall
    rw [hall item hitem] at hshown
    contradiction
  · intro hnone
    rw [tooLargeItems, if_pos]
    rw [List.all_eq_true]
    intro item hitem
    rw [← Bool.not_eq_false, hmarked item hitem]
    intro hwithholds
    exact hnone ⟨item, hitem, hwithholds⟩
  · intro item hitem n hkind digest address out r
    constructor
    · intro hnone
      exact ReviewData.render_of_nameless ⟨⟨n, hkind⟩, ReviewData.field?_eq_none_iff.1 hnone⟩ out
    · intro name hname
      obtain ⟨nameText, rest, hnameText, hdiscloses, hsays⟩ :=
        r.exists_discloses htokens (judged_schedule device item hitem) hkind hname
      exact ⟨nameText, rest, hnameText, hdiscloses, ReviewData.render_of_full rfl hsays out⟩

theorem arguments_are_shown_or_withheld_string :
    let source :=
      ascii "\x7b\"signers\":[\x7b\"clist\":[\x7b\"name\":\"m.C\",\"args\":[\"a\", 1]\x7d,\x7b\"name\":\"m.D\",\"args\":\"a\"\x7d]\x7d]\x7d"
    let shown : Item := { kind := .unknownCapability 1, token := 6 }
    let withheld : Item := { kind := .unknownCapability 2, token := 13, shown := false }
    ∃ tokens after, Json.tokenize source = .ok tokens ∧
      (build .standard ⟨source, tokens⟩).perform {} = (.ok (), after) ∧
      let doc : Document := ⟨source, tokens⟩
      let r : ReviewData := { doc, hash := .ofDigest (.zero 32), address := [] }
      shown ∈ after.items ∧ ¬ shown.Withholds doc ∧ withheld ∈ after.items ∧
        withheld.Withholds doc ∧
        after.items.filter (fun item => item.kind = .tooLarge) = [{ kind := .tooLarge }] ∧
        r.render withheld (List.replicate 46 7) =
          .ok (45, ascii "name: m.D, args cannot be displayed on Ledger" ++ [0]) := by
  intro source shown withheld
  let tokens := (Json.tokenize source).toOption.getD []
  let doc : Document := ⟨source, tokens⟩
  let after := ((build .standard doc).perform {}).2
  have hbuilt : Json.tokenize source = .ok tokens ∧
      (build .standard ⟨source, tokens⟩).perform {} = (.ok (), after) := by
    decide +kernel
  have hitems : shown ∈ after.items ∧ withheld ∈ after.items := by decide +kernel
  have hnamed : doc.field? 13 (ascii "name") = some 15 ∧ doc.text 15 = .ok (ascii "m.D") := by
    decide +kernel
  obtain ⟨htokens, hbuild⟩ := hbuilt
  obtain ⟨hmarked, hwarned, -, hrendered⟩ := arguments_are_shown_or_withheld htokens hbuild
  have hwithholds : withheld.Withholds doc := (hmarked withheld hitems.2).1 rfl
  have hshows : ¬ shown.Withholds doc := by
    rw [← hmarked shown hitems.1]
    decide
  obtain ⟨-, hfull⟩ := hrendered withheld hitems.2 2 rfl (.zero 32) [] (List.replicate 46 7)
  obtain ⟨nameText, rest, hnameText, hdiscloses, hrender⟩ := hfull 15 hnamed.1
  obtain rfl : ascii "m.D" = nameText := Except.ok.inj (hnamed.2.symm.trans hnameText)
  obtain rfl := hdiscloses.unshown.2 (by decide)
  refine ⟨tokens, after, htokens, hbuild, hitems.1, hshows, hitems.2, hwithholds,
    hwarned ⟨withheld, hitems.2, hwithholds⟩, ?_⟩
  rw [hrender]
  decide

end ItemList

end ClearSign
