import ClearSign.Proofs.Review.Capacity
import ClearSign.Proofs.Review.Text

/-!
This module contains the full text of every item of a review, said by what the item points to, and
the proof that an item is rendered as this text to the byte or refused.
-/

namespace ClearSign

open Json (Document quoted)

namespace Json.Document

def HasArgTexts (doc : Document) (capability : Nat) (texts : List Bytes) : Prop :=
  ∃ args, doc.args? capability = some args ∧
    (doc.children args).map doc.text = texts.map Except.ok

def shownText (doc : Document) (i : Nat) : Except Fault Bytes := do
  let text ← doc.text i
  return if doc.isString i then quoted text else text

def argList (doc : Document) (capability : Nat) : List Nat :=
  (doc.args? capability).elim [] doc.children

end Json.Document

def Item.Grounded (doc : Document) (item : Item) : Prop :=
  match item.kind with
  | .network | .signerKey | .unscopedSigner | .chain => item.token < doc.tokens.length
  | .transfer _ => doc.hasArgs item.token 3
  | .crossTransfer _ => doc.hasArgs item.token 4
  | .rotate => doc.hasArgs item.token 1
  | .gas => doc.hasKeys item.token metaKeys
  | .signing | .requiring | .payingGas | .unknownCapability _ | .unrestricted | .caution
  | .tooLarge | .hash | .signForAddress => True

namespace ItemList

section Grounded

variable {doc : Document}

theorem grounded_networkItems : ∀ item ∈ doc.networkItems, item.Grounded doc := by
  unfold Document.networkItems
  cases hnetwork : doc.present? Document.root (ascii "networkId") with
  | none => simp
  | some network =>
    simp only [Option.map_some, Option.toList_some, List.forall_mem_singleton]
    exact (Document.lt_of_present? hnetwork).2

theorem grounded_signerItems : ∀ item ∈ doc.signerItems, item.Grounded doc := by
  unfold Document.signerItems
  cases hkey : doc.signerKey? with
  | none => simp
  | some key =>
    have hrange := Document.lt_of_signerKey? hkey
    simp only [List.singleton_append, List.forall_mem_cons]
    refine ⟨hrange, ?_⟩
    split
    · simp
    · simpa [Item.Grounded] using hrange

theorem grounded_metaItems : ∀ item ∈ doc.metaItems, item.Grounded doc := by
  unfold Document.metaItems
  split
  · simp [Item.Grounded]
  · next info hinfo =>
    rw [List.forall_mem_append, List.forall_mem_singleton]
    refine ⟨?_, (Option.filter_eq_some_iff.1 hinfo).2⟩
    unfold Document.chainItems
    cases hchain : doc.present? info (ascii "chainId") with
    | none => simp
    | some chain =>
      simp only [Option.map_some, Option.toList_some, List.forall_mem_singleton]
      exact (Document.lt_of_present? hchain).2

theorem grounded_of_grant? {item : Item} {gas : Option Nat}
    (h : item.kind.grant? = some (doc.grant gas item.token)) : item.Grounded doc := by
  have hfits := Grant.fits_grant doc gas item.token
  revert h
  unfold Item.Grounded Item.Kind.grant?
  cases item.kind
  all_goals
    dsimp only
    intro h
    try contradiction
  case transfer =>
    rw [← Option.some.inj h] at hfits
    exact hfits.2
  case crossTransfer =>
    rw [← Option.some.inj h] at hfits
    exact hfits.2
  case rotate =>
    rw [← Option.some.inj h] at hfits
    exact hfits.2
  all_goals trivial

theorem grounded_capabilityItems : ∀ item ∈ capabilityItems doc, item.Grounded doc := by
  unfold capabilityItems grantAll
  split
  · simp [Item.Grounded]
  · next clist _ =>
    obtain ⟨new, hnew⟩ := exists_entered_foldl doc
      ((doc.children clist).find? (doc.isNamed · Capability.gas)) {}
      (shownOrder doc (doc.children clist))
    intro item hitem
    rw [hnew.items, List.nil_append] at hitem
    exact grounded_of_grant? (hnew.kinds item hitem)

theorem grounded_schedule (device : Device) :
    ∀ item ∈ (schedule device doc).items, item.Grounded doc := by
  have htooLarge (items : List Item) : ∀ item ∈ tooLargeItems items, item.Grounded doc := by
    unfold tooLargeItems
    split <;> simp [Item.Grounded]
  have haddress : ∀ item ∈ addressItems device, item.Grounded doc := by
    unfold addressItems
    split <;> simp [Item.Grounded]
  rw [schedule, extend, items_contentSchedule, openingItems]
  simp only [List.forall_mem_append, List.forall_mem_singleton]
  exact ⟨⟨⟨⟨⟨⟨trivial, grounded_networkItems⟩, trivial⟩, grounded_signerItems⟩,
    grounded_capabilityItems⟩, grounded_metaItems⟩, ⟨htooLarge _, trivial⟩, haddress⟩

end Grounded

end ItemList

def numbered (values : List Bytes) : Bytes :=
  (ascii ", ").intercalate ((values.zipIdx 1).map fun (value, n) =>
    ascii "arg " ++ decimal n ++ ascii ": " ++ value)

namespace ReviewData

def Says (r : ReviewData) (item : Item) (full : Bytes) : Prop :=
  match item.kind with
  | .signing => full = ascii "Transaction"
  | .requiring => full = ascii "Capabilities"
  | .payingGas => full = ascii " "
  | .unrestricted => full = ascii Phrase.unrestricted
  | .caution => full = ascii Phrase.caution
  | .tooLarge => full = ascii Phrase.tooLarge
  | .hash => full = base64 r.hash.digest.bytes
  | .signForAddress => full = r.address
  | .network | .signerKey | .unscopedSigner | .chain =>
    r.doc.text item.token = .ok full ∧ full ≠ []
  | .transfer _ => ∃ sender receiver amount,
    r.doc.HasArgTexts item.token [sender, receiver, amount] ∧
      full = amount ++ ascii " from " ++ quoted sender ++ ascii " to " ++ quoted receiver
  | .crossTransfer _ => ∃ sender receiver amount chain,
    r.doc.HasArgTexts item.token [sender, receiver, amount, chain] ∧
      full = ascii "Cross-chain " ++ amount ++ ascii " from " ++ quoted sender ++ ascii " to " ++
        quoted receiver ++ ascii " to chain " ++ quoted chain
  | .rotate => ∃ account, r.doc.HasArgTexts item.token [account] ∧ full = quoted account
  | .gas => ∃ limit price limitText priceText,
    r.doc.field? item.token (ascii "gasLimit") = some limit ∧ r.doc.text limit = .ok limitText ∧
      r.doc.field? item.token (ascii "gasPrice") = some price ∧ r.doc.text price = .ok priceText ∧
      full = ascii "at most " ++ limitText ++ ascii " at price " ++ priceText
  | .unknownCapability _ => ∃ name nameText rest,
    r.doc.field? item.token (ascii "name") = some name ∧ r.doc.text name = .ok nameText ∧
      full = ascii "name: " ++ nameText ++ ascii ", " ++ rest ∧
      if item.shown then ∃ values,
        (r.doc.argList item.token).map r.doc.shownText = values.map Except.ok ∧
          rest = if values.isEmpty then ascii "no args" else numbered values
      else rest = ascii Phrase.argsNotShown

theorem intercalate_cons (separator piece : Bytes) (pieces : List Bytes) :
    separator.intercalate (piece :: pieces) = piece ++ pieces.flatMap (separator ++ ·) := by
  induction pieces generalizing piece with
  | nil => simp
  | cons next pieces ih => simp [ih]

variable {r : ReviewData} {item : Item}

theorem arg_of_hasArgTexts {texts : List Bytes} {text : Bytes}
    (h : r.doc.HasArgTexts capability texts) (hn : texts[n]? = some text) :
    r.arg capability n = .ok text := by
  obtain ⟨args, hargs, htexts⟩ := h
  have harray : r.doc.isArray args := (Option.filter_eq_some_iff.1 hargs).2
  have hchild : ((r.doc.children args).map r.doc.text)[n]? = some (.ok text) := by
    rw [htexts, List.getElem?_map, hn, Option.map_some]
  rw [List.getElem?_map, Option.map_eq_some_iff] at hchild
  obtain ⟨child, hchild, htext⟩ := hchild
  simp [arg, hargs, Document.arrayElement?, harray, hchild, htext]

theorem numberedArgsText_of_shownText {args : List Nat} {values : List Bytes}
    (h : args.map r.doc.shownText = values.map Except.ok) (n : Nat) :
    r.numberedArgsText n args = .ok ((values.zipIdx n).flatMap fun (value, n) =>
      (if n > 1 then ascii ", " else []) ++ (ascii "arg " ++ decimal n ++ ascii ": " ++ value)) := by
  induction args generalizing n values with
  | nil =>
    obtain rfl : values = [] := by simpa [eq_comm] using h
    rfl
  | cons arg args ih =>
    cases values with
    | nil => simp at h
    | cons value values =>
      rw [List.map_cons, List.map_cons, List.cons.injEq, Document.shownText, bind_eq_ok] at h
      obtain ⟨⟨text, htext, hvalue⟩, hrest⟩ := h
      rw [numberedArgsText, htext, ok_bind, ih hrest, ok_bind, ← Except.ok.inj hvalue]
      simp [pure, Except.pure]

theorem argsText_of_shownText {values : List Bytes} (hshown : item.shown)
    (h : (r.doc.argList item.token).map r.doc.shownText = values.map Except.ok) :
    r.argsText item = .ok (if values.isEmpty then ascii "no args" else numbered values) := by
  unfold argsText
  rw [if_pos hshown, ← Document.argList]
  cases values with
  | nil =>
    rw [List.map_nil, List.map_eq_nil_iff] at h
    rw [h]
    rfl
  | cons value values =>
    have hargs := numberedArgsText_of_shownText h 1
    split
    · next hnil => simp [hnil] at h
    · next args _ =>
      rw [hargs, if_neg (by simp), numbered, List.zipIdx_cons, List.map_cons, intercalate_cons]
      have hlater : ∀ piece ∈ values.zipIdx 2, piece.2 > 1 := by
        intro piece hpiece
        exact (List.mem_zipIdx hpiece).1
      rw [List.flatMap_cons, List.flatMap_map]
      simp only [List.flatMap, Nat.lt_irrefl, gt_iff_lt, if_false, List.nil_append]
      congr 3
      apply List.map_congr_left
      intro piece hpiece
      rw [if_pos (hlater piece hpiece)]

theorem text_of_says {full : Bytes} (hhash : r.hash = .ofDigest r.hash.digest)
    (h : r.Says item full) : r.text item = .ok full := by
  have hbase64 : r.hash.text.bytes = base64 r.hash.digest.bytes := by
    rw [hhash]
    rfl
  revert h
  unfold Says text
  cases item.kind
  all_goals
    dsimp only
  case network | signerKey | unscopedSigner | chain =>
    rintro ⟨htext, hfull⟩
    simp [plainText, htext, hfull, pure, Except.pure]
  case transfer =>
    rintro ⟨sender, receiver, amount, htexts, rfl⟩
    rw [transferText, arg_of_hasArgTexts htexts rfl, arg_of_hasArgTexts htexts rfl,
      arg_of_hasArgTexts htexts rfl]
    rfl
  case crossTransfer =>
    rintro ⟨sender, receiver, amount, chain, htexts, rfl⟩
    rw [crossTransferText, transferText, arg_of_hasArgTexts htexts rfl,
      arg_of_hasArgTexts htexts rfl, arg_of_hasArgTexts htexts rfl, arg_of_hasArgTexts htexts rfl]
    simp [pure, Except.pure]
  case rotate =>
    rintro ⟨account, htexts, rfl⟩
    rw [rotateText, arg_of_hasArgTexts htexts rfl]
    rfl
  case gas =>
    rintro ⟨limit, price, limitText, priceText, hlimit, hlimitText, hprice, hpriceText, rfl⟩
    simp [gasText, field, hlimit, hprice, hlimitText, hpriceText, pure, Except.pure]
  case unknownCapability =>
    rintro ⟨name, nameText, rest, hname, hnameText, rfl, hrest⟩
    have hargs : r.argsText item = .ok rest := by
      split at hrest
      · next hshown =>
        obtain ⟨values, hvalues, rfl⟩ := hrest
        exact argsText_of_shownText hshown hvalues
      · next hshown =>
        rw [argsText, if_neg hshown, hrest]
        rfl
    simp [unknownCapabilityText, field, hname, hnameText, hargs, pure, Except.pure]
  case hash =>
    intro hfull
    rw [hbase64]
    exact congrArg Except.ok hfull.symm
  all_goals
    intro hfull
    exact congrArg Except.ok hfull.symm

end ReviewData

def Item.Nameless (doc : Document) (item : Item) : Prop :=
  (∃ n, item.kind = .unknownCapability n) ∧
    (¬ doc.isObject item.token ∨
      ∀ member ∈ doc.members item.token, ¬ doc.isStringOf member.1 (ascii "name"))

def Item.Vacant (doc : Document) (item : Item) : Prop :=
  item.kind ∈ [.network, .signerKey, .unscopedSigner, .chain] ∧ doc.text item.token = .ok []

namespace ReviewData

open Writer

variable {r : ReviewData} {item : Item}

theorem field?_eq_none_iff {doc : Document} :
    doc.field? object key = none ↔
      ¬ doc.isObject object ∨ ∀ member ∈ doc.members object, ¬ doc.isStringOf member.1 key := by
  unfold Document.field?
  split
  · next hobject => simp [hobject]
  · next hobject => simp [hobject]

theorem exists_field?_of_hasKeys {doc : Document} {keys : List Bytes}
    (h : doc.hasKeys object keys) (hkey : key ∈ keys) :
    ∃ value, doc.field? object key = some value := by
  simp only [Document.hasKeys, Bool.and_eq_true, beq_iff_eq, List.all_eq_true] at h
  obtain ⟨⟨hobject, hlength⟩, hkeys⟩ := h
  obtain ⟨n, hn, rfl⟩ := List.getElem_of_mem hkey
  have hzip : n < ((doc.members object).zip keys).length := by
    rw [List.length_zip]
    omega
  have hmember : ((doc.members object)[n], keys[n]) ∈ (doc.members object).zip keys := by
    rw [← List.getElem_zip (h := hzip)]
    exact List.getElem_mem hzip
  have hnamed := hkeys _ hmember
  rw [← Option.isSome_iff_exists, Document.field?, if_pos hobject, Option.isSome_map,
    List.find?_isSome]
  exact ⟨_, List.getElem_mem _, hnamed⟩

theorem exists_map_eq_ok (f : α → Except Fault β) (as : List α)
    (h : ∀ a ∈ as, ∃ b, f a = .ok b) : ∃ bs : List β, as.map f = bs.map Except.ok := by
  induction as with
  | nil => exact ⟨[], rfl⟩
  | cons a as ih =>
    rw [List.forall_mem_cons] at h
    obtain ⟨⟨b, hb⟩, has⟩ := h
    obtain ⟨bs, hbs⟩ := ih has
    exact ⟨b :: bs, by rw [List.map_cons, List.map_cons, hb, hbs]⟩

theorem exists_argTexts {doc : Document} (hread : doc.Readable) (h : doc.hasArgs capability n) :
    ∃ texts, texts.length = n ∧ doc.HasArgTexts capability texts := by
  rw [Document.hasArgs_eq_argCount?, beq_iff_eq, Document.argCount?, Option.bind_eq_some_iff] at h
  obtain ⟨args, hargs, hcount⟩ := h
  have harray : doc.isArray args := (Option.filter_eq_some_iff.1 hargs).2
  rw [Document.arrayCount?, if_pos harray, Option.some.injEq] at hcount
  obtain ⟨texts, htexts⟩ := exists_map_eq_ok doc.text (doc.children args)
    fun arg harg => hread arg (Document.lt_of_mem_children harg).2
  refine ⟨texts, ?_, args, hargs, htexts⟩
  have hlength := congrArg List.length htexts
  rwa [List.length_map, List.length_map, hcount, eq_comm] at hlength

theorem exists_shownTexts {doc : Document} (hread : doc.Readable) (capability : Nat) :
    ∃ values : List Bytes,
      (doc.argList capability).map doc.shownText = values.map Except.ok := by
  apply exists_map_eq_ok
  intro arg harg
  unfold Document.argList at harg
  cases hargs : doc.args? capability with
  | none => simp [hargs] at harg
  | some args =>
    rw [hargs] at harg
    obtain ⟨text, htext⟩ := hread arg (Document.lt_of_mem_children harg).2
    rw [Document.shownText, htext]
    exact ⟨_, rfl⟩

theorem exists_says {item : Item} (hread : r.doc.Readable) (hgrounded : item.Grounded r.doc)
    (hnamed : ¬ item.Nameless r.doc) (hpresent : ¬ item.Vacant r.doc) :
    ∃ full, r.Says item full := by
  unfold Item.Grounded at hgrounded
  unfold Item.Vacant at hpresent
  unfold Item.Nameless at hnamed
  unfold Says
  cases hkind : item.kind
  all_goals
    simp only [hkind] at hgrounded hnamed hpresent ⊢
  case network | signerKey | unscopedSigner | chain =>
    obtain ⟨text, htext⟩ := hread item.token hgrounded
    refine ⟨text, htext, ?_⟩
    rintro rfl
    exact hpresent ⟨by decide, htext⟩
  case transfer =>
    obtain ⟨texts, hlength, htexts⟩ := exists_argTexts hread hgrounded
    obtain ⟨sender, receiver, amount, rfl⟩ := List.length_eq_three.1 hlength
    exact ⟨_, sender, receiver, amount, htexts, rfl⟩
  case crossTransfer =>
    obtain ⟨texts, hlength, htexts⟩ := exists_argTexts hread hgrounded
    rcases texts with _ | ⟨sender, _ | ⟨receiver, _ | ⟨amount, _ | ⟨chain, _ | ⟨more, texts⟩⟩⟩⟩⟩
    all_goals
      simp at hlength
    exact ⟨_, sender, receiver, amount, chain, htexts, rfl⟩
  case rotate =>
    obtain ⟨texts, hlength, htexts⟩ := exists_argTexts hread hgrounded
    obtain ⟨account, rfl⟩ := List.length_eq_one_iff.1 hlength
    exact ⟨_, account, htexts, rfl⟩
  case gas =>
    have hlimitKey : ascii "gasLimit" ∈ metaKeys := by decide
    have hpriceKey : ascii "gasPrice" ∈ metaKeys := by decide
    obtain ⟨limit, hlimit⟩ := exists_field?_of_hasKeys hgrounded hlimitKey
    obtain ⟨price, hprice⟩ := exists_field?_of_hasKeys hgrounded hpriceKey
    obtain ⟨limitText, hlimitText⟩ := hread limit (Document.lt_of_field? hlimit).2
    obtain ⟨priceText, hpriceText⟩ := hread price (Document.lt_of_field? hprice).2
    exact ⟨_, limit, price, limitText, priceText, hlimit, hlimitText, hprice, hpriceText, rfl⟩
  case unknownCapability n =>
    obtain ⟨name, hname⟩ : ∃ name, r.doc.field? item.token (ascii "name") = some name := by
      rw [← Option.ne_none_iff_exists']
      intro hnone
      exact hnamed ⟨⟨n, rfl⟩, field?_eq_none_iff.1 hnone⟩
    obtain ⟨nameText, hnameText⟩ := hread name (Document.lt_of_field? hname).2
    obtain ⟨values, hvalues⟩ := exists_shownTexts hread item.token
    cases item.shown with
    | true => exact ⟨_, name, nameText, _, hname, hnameText, rfl, values, hvalues, rfl⟩
    | false => exact ⟨_, name, nameText, _, hname, hnameText, rfl, rfl⟩
  all_goals
    exact ⟨_, rfl⟩

theorem render_of_full {full : Bytes} (hhash : r.hash = .ofDigest r.hash.digest)
    (h : r.Says item full) (out : Bytes) :
    r.render item out =
      if full.length < out.length then
        .ok (full.length, full ++ [0] ++ out.drop (full.length + 1))
      else .error .textTooLong := by
  have htext := text_of_says hhash h
  rw [render_of_text htext out, overwrite, List.length_append, List.length_singleton]

theorem render_of_nameless (h : item.Nameless r.doc) (out : Bytes) :
    r.render item out = .error .noData := by
  obtain ⟨⟨n, hkind⟩, hnone⟩ := h
  rw [← field?_eq_none_iff] at hnone
  simp [render, writeInto, value, hkind, unknownCapability, field, hnone, Attempt.perform_bind]

theorem render_of_vacant (h : item.Vacant r.doc) (out : Bytes) :
    r.render item out = .error .emptyText := by
  obtain ⟨hkind, htext⟩ := h
  have hvalue : r.value item = r.plain item := by
    simp only [List.mem_cons, List.not_mem_nil, or_false] at hkind
    unfold value
    rcases hkind with hkind | hkind | hkind | hkind
    all_goals
      rw [hkind]
  simp [render, writeInto, hvalue, plain, htext, Attempt.perform_bind]

end ReviewData

namespace ItemList

theorem items_are_rendered_exactly {device : Device} {source : Bytes} {tokens : List Json.Token}
    {list after : ItemList} (htokens : Json.tokenize source = .ok tokens)
    (hbuild : (build device ⟨source, tokens⟩).perform list = (.ok (), after))
    (item : Item) (hitem : item ∈ after.items) (digest : Octets 32) (address out : Bytes) :
    let r : ReviewData := { doc := ⟨source, tokens⟩, hash := .ofDigest digest, address }
    (r.render item out = .error .noData ↔ item.Nameless r.doc) ∧
    (r.render item out = .error .emptyText ↔ item.Vacant r.doc) ∧
    (¬ item.Nameless r.doc → ¬ item.Vacant r.doc → ∃ full, r.Says item full) ∧
    (∀ full, r.Says item full →
      (full.length < out.length →
        r.render item out = .ok (full.length, full ++ [0] ++ out.drop (full.length + 1))) ∧
      (out.length ≤ full.length → r.render item out = .error .textTooLong)) := by
  intro r
  have hgrounded : item.Grounded r.doc := by
    rw [build_eq_ok hbuild] at hitem
    exact grounded_schedule device item hitem
  have hread : r.doc.Readable := Json.readable_of_tokenize htokens
  have hsays : ¬ item.Nameless r.doc → ¬ item.Vacant r.doc → ∃ full, r.Says item full :=
    ReviewData.exists_says hread hgrounded
  have hrendered (full : Bytes) (hfull : r.Says item full) :
      r.render item out =
        if full.length < out.length then
          .ok (full.length, full ++ [0] ++ out.drop (full.length + 1))
        else .error .textTooLong :=
    ReviewData.render_of_full rfl hfull out
  have hother (fault : Fault) (hlong : fault ≠ .textTooLong) (hnamed : ¬ item.Nameless r.doc)
      (hpresent : ¬ item.Vacant r.doc) : r.render item out ≠ .error fault := by
    obtain ⟨full, hfull⟩ := hsays hnamed hpresent
    rw [hrendered full hfull]
    split
    · simp
    · simp [hlong.symm]
  refine ⟨⟨?_, fun hnameless => ReviewData.render_of_nameless hnameless out⟩,
    ⟨?_, fun hvacant => ReviewData.render_of_vacant hvacant out⟩, hsays, ?_⟩
  · intro hnoData
    apply Classical.byContradiction
    intro hnamed
    apply hother .noData (by decide) hnamed
    · intro hvacant
      rw [ReviewData.render_of_vacant hvacant] at hnoData
      contradiction
    · exact hnoData
  · intro hempty
    apply Classical.byContradiction
    intro hpresent
    apply hother .emptyText (by decide) _ hpresent
    · exact hempty
    · intro hnameless
      rw [ReviewData.render_of_nameless hnameless] at hempty
      contradiction
  · intro full hfull
    rw [hrendered full hfull]
    constructor
    · intro hroom
      rw [if_pos hroom]
    · intro hfull
      rw [if_neg (Nat.not_lt.2 hfull)]

theorem items_are_rendered_exactly_transfer :
    let source :=
      ascii "\x7b\"signers\":[\x7b\"clist\":[\x7b\"name\":\"coin.TRANSFER\",\"args\":[\"a\",\"b\",1]\x7d,7]\x7d]\x7d"
    let full := ascii "1 from \"a\" to \"b\""
    let transfer : Item := { kind := .transfer 1, token := 6 }
    let unknown : Item := { kind := .unknownCapability 1, token := 14 }
    ∃ tokens after, Json.tokenize source = .ok tokens ∧
      (build .standard ⟨source, tokens⟩).perform {} = (.ok (), after) ∧
      transfer ∈ after.items ∧ unknown ∈ after.items ∧
      let r : ReviewData :=
        { doc := ⟨source, tokens⟩, hash := .ofDigest (.zero 32), address := [] }
      r.Says transfer full ∧
        r.render transfer (List.replicate 19 7) = .ok (17, full ++ [0, 7]) ∧
        r.render transfer (List.replicate 17 7) = .error .textTooLong ∧
        r.render unknown [] = .error .noData := by
  intro source full transfer unknown
  let doc : Document := ⟨source, (Json.tokenize source).toOption.getD []⟩
  let after := ((build .standard doc).perform {}).2
  have htokens : Json.tokenize source = .ok doc.tokens := by decide +kernel
  have hbuild : (build .standard doc).perform {} = (.ok (), after) := by decide +kernel
  have htransfer : transfer ∈ after.items := by decide +kernel
  have hunknown : unknown ∈ after.items := by decide +kernel
  have hexact := items_are_rendered_exactly htokens hbuild transfer htransfer (.zero 32) []
  have hnameless := items_are_rendered_exactly htokens hbuild unknown hunknown (.zero 32) []
  have hargs : doc.HasArgTexts 6 [ascii "a", ascii "b", ascii "1"] :=
    ⟨10, by decide +kernel, by decide +kernel⟩
  have hsays : ReviewData.Says { doc, hash := .ofDigest (.zero 32), address := [] } transfer full :=
    ⟨_, _, _, hargs, by decide⟩
  refine ⟨doc.tokens, after, htokens, hbuild, htransfer, hunknown, hsays, ?_, ?_, ?_⟩
  · exact ((hexact (List.replicate 19 7)).2.2.2 full hsays).1 (by decide)
  · exact ((hexact (List.replicate 17 7)).2.2.2 full hsays).2 (by decide)
  · exact (hnameless []).1.2 ⟨⟨1, rfl⟩, .inl (by decide +kernel)⟩

end ItemList

end ClearSign
