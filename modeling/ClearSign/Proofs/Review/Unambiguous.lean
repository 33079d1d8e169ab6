import ClearSign.Proofs.Review.Listing
import ClearSign.Proofs.Review.Quotation

/-!
This module contains the proof that the text of a capability is unambiguous: two capabilities of one
kind that are rendered to the same bytes have the same arguments. Unknown capabilities also have the
same name then, and the same arguments are strings.
-/

namespace ClearSign

open Json

def unquoted (value : Bytes) : Bytes × Bool :=
  if value.head? = some Byte.quote then (value.tail.dropLast, true) else (value, false)

theorem unquoted_quoted (text : Bytes) : unquoted (quoted text) = (text, true) := by
  simp [unquoted, quoted]

theorem unquoted_of_ne (h : value.head? ≠ some Byte.quote) : unquoted value = (value, false) :=
  if_neg h

namespace Json.Document

structure Tells (doc : Document) (capability : Nat) (name : Bytes) (args : List (Bytes × Bool)) :
    Prop where
  name : ∃ i, doc.field? capability (ascii "name") = some i ∧ doc.text i = .ok name
  args : (doc.argList capability).map (fun i => (doc.text i, doc.isString i)) =
    args.map fun arg => (.ok arg.1, arg.2)

def SameArgTexts (doc : Document) (capability : Nat) (doc' : Document) (capability' count : Nat) :
    Prop :=
  ∃ texts, texts.length = count ∧ doc.HasArgTexts capability texts ∧
    doc'.HasArgTexts capability' texts

variable {doc : Document}

theorem lexeme_of_hasArgTexts {texts : List Bytes} (htokens : tokenize doc.source = .ok doc.tokens)
    (h : doc.HasArgTexts capability texts) : ∀ text ∈ texts, Lexeme text := by
  obtain ⟨args, -, htexts⟩ := h
  intro text htext
  have hmem : Except.ok text ∈ (doc.children args).map doc.text := by
    rw [htexts]
    exact List.mem_map_of_mem htext
  obtain ⟨child, -, hchild⟩ := List.mem_map.1 hmem
  exact lexeme_of_text htokens hchild

theorem unquoted_of_shownText {value : Bytes} (htokens : tokenize doc.source = .ok doc.tokens)
    (h : doc.shownText i = .ok value) :
    IsShown value ∧ doc.text i = .ok (unquoted value).1 ∧ doc.isString i = (unquoted value).2 := by
  obtain ⟨text, htext, hvalue⟩ := bind_eq_ok.1 h
  rw [← Except.ok.inj hvalue]
  rcases contents_or_of_text htokens htext with ⟨hstring, hcontents⟩ | ⟨hstring, hplain⟩
  · rw [if_pos hstring, unquoted_quoted]
    exact ⟨.string text hcontents rfl, htext, hstring⟩
  · have hshown : IsShown text := hplain.elim .primitive .container
    rw [if_neg (by simp [hstring]), unquoted_of_ne (head?_ne_quote hplain)]
    exact ⟨hshown, htext, hstring⟩

theorem unquoted_of_shownTexts {indices : List Nat} {values : List Bytes}
    (htokens : tokenize doc.source = .ok doc.tokens)
    (h : indices.map doc.shownText = values.map Except.ok) :
    (∀ value ∈ values, IsShown value) ∧
      indices.map (fun i => (doc.text i, doc.isString i)) =
        (values.map unquoted).map fun arg => (.ok arg.1, arg.2) := by
  induction indices generalizing values with
  | nil =>
    obtain rfl : values = [] := by simpa [eq_comm] using h
    exact ⟨by simp, rfl⟩
  | cons i indices ih =>
    cases values with
    | nil => simp at h
    | cons value values =>
      rw [List.map_cons, List.map_cons, List.cons.injEq] at h
      obtain ⟨hshown, htext, hstring⟩ := unquoted_of_shownText htokens h.1
      obtain ⟨hvalues, hindices⟩ := ih h.2
      rw [List.forall_mem_cons, List.map_cons, List.map_cons, List.map_cons, htext, hstring,
        hindices]
      exact ⟨⟨hshown, hvalues⟩, rfl⟩

end Json.Document

namespace ReviewData

variable {r r' : ReviewData} {item item' : Item} {full : Bytes}

theorem isPhrase_to : IsPhrase (ascii " to ") :=
  ⟨rfl, by decide, by decide⟩

theorem isPhrase_toChain : IsPhrase (ascii " to chain ") :=
  ⟨rfl, by decide, by decide⟩

theorem transfer_texts_eq (htokens : tokenize r.doc.source = .ok r.doc.tokens)
    (htokens' : tokenize r'.doc.source = .ok r'.doc.tokens) (hkind : item.kind = .transfer i)
    (hkind' : item'.kind = .transfer j) (h : r.Says item full) (h' : r'.Says item' full) :
    Document.SameArgTexts r.doc item.token r'.doc item'.token 3 := by
  simp only [Says, hkind] at h
  simp only [Says, hkind'] at h'
  obtain ⟨sender, receiver, amount, htexts, hfull⟩ := h
  obtain ⟨sender', receiver', amount', htexts', hfull'⟩ := h'
  have hlexemes := Document.lexeme_of_hasArgTexts htokens htexts
  have hlexemes' := Document.lexeme_of_hasArgTexts htokens' htexts'
  have heq : amount ++ quotations [(ascii " from ", sender), (ascii " to ", receiver)] =
      amount' ++ quotations [(ascii " from ", sender'), (ascii " to ", receiver')] := by
    rw [hfull] at hfull'
    simpa [quotations] using hfull'
  simp only [List.forall_mem_cons] at hlexemes hlexemes'
  have hfields : Quotable [(ascii " from ", sender), (ascii " to ", receiver)] := by
    simp [Quotable, isWorded_from.toIsPhrase, isPhrase_to, hlexemes]
  have hfields' : Quotable [(ascii " from ", sender'), (ascii " to ", receiver')] := by
    simp [Quotable, isWorded_from.toIsPhrase, isPhrase_to, hlexemes']
  have hdistinct : [ascii " from ", ascii " to "].Nodup := by decide
  obtain ⟨rfl, rfl, hreceiver⟩ := value_and_quotations_injective isWorded_from hlexemes.2.2.1
    hlexemes'.2.2.1 hfields hfields' rfl hdistinct heq
  cases hreceiver
  exact ⟨[sender, receiver, amount], rfl, htexts, htexts'⟩

theorem crossTransfer_texts_eq (htokens : tokenize r.doc.source = .ok r.doc.tokens)
    (htokens' : tokenize r'.doc.source = .ok r'.doc.tokens) (hkind : item.kind = .crossTransfer i)
    (hkind' : item'.kind = .crossTransfer j) (h : r.Says item full) (h' : r'.Says item' full) :
    Document.SameArgTexts r.doc item.token r'.doc item'.token 4 := by
  simp only [Says, hkind] at h
  simp only [Says, hkind'] at h'
  obtain ⟨sender, receiver, amount, chain, htexts, hfull⟩ := h
  obtain ⟨sender', receiver', amount', chain', htexts', hfull'⟩ := h'
  have hlexemes := Document.lexeme_of_hasArgTexts htokens htexts
  have hlexemes' := Document.lexeme_of_hasArgTexts htokens' htexts'
  have heq : amount ++ quotations
        [(ascii " from ", sender), (ascii " to ", receiver), (ascii " to chain ", chain)] =
      amount' ++ quotations
        [(ascii " from ", sender'), (ascii " to ", receiver'), (ascii " to chain ", chain')] := by
    rw [hfull] at hfull'
    simpa [quotations] using hfull'
  simp only [List.forall_mem_cons] at hlexemes hlexemes'
  have hfields : Quotable
      [(ascii " from ", sender), (ascii " to ", receiver), (ascii " to chain ", chain)] := by
    simp [Quotable, isWorded_from.toIsPhrase, isPhrase_to, isPhrase_toChain, hlexemes]
  have hfields' : Quotable
      [(ascii " from ", sender'), (ascii " to ", receiver'), (ascii " to chain ", chain')] := by
    simp [Quotable, isWorded_from.toIsPhrase, isPhrase_to, isPhrase_toChain, hlexemes']
  have hdistinct : [ascii " from ", ascii " to ", ascii " to chain "].Nodup := by decide
  obtain ⟨rfl, rfl, hrest⟩ := value_and_quotations_injective isWorded_from hlexemes.2.2.1
    hlexemes'.2.2.1 hfields hfields' rfl hdistinct heq
  cases hrest
  exact ⟨[sender, receiver, amount, chain], rfl, htexts, htexts'⟩

theorem rotate_texts_eq (hkind : item.kind = .rotate) (hkind' : item'.kind = .rotate)
    (h : r.Says item full) (h' : r'.Says item' full) :
    Document.SameArgTexts r.doc item.token r'.doc item'.token 1 := by
  simp only [Says, hkind] at h
  simp only [Says, hkind'] at h'
  obtain ⟨account, htexts, hfull⟩ := h
  obtain ⟨account', htexts', hfull'⟩ := h'
  have heq : account = account' := by
    rw [hfull] at hfull'
    simpa [quoted] using hfull'
  subst heq
  exact ⟨[account], rfl, htexts, htexts'⟩

theorem exists_tells (htokens : tokenize r.doc.source = .ok r.doc.tokens)
    (hkind : item.kind = .unknownCapability i) (hshown : item.shown) (h : r.Says item full) :
    ∃ name values, Lexeme name ∧ (∀ value ∈ values, IsShown value) ∧
      full = ascii "name: " ++ name ++ argsListed values ∧
      r.doc.Tells item.token name (values.map unquoted) := by
  simp only [Says, hkind] at h
  obtain ⟨field, name, rest, hfield, hname, hfull, hrest⟩ := h
  rw [if_pos hshown] at hrest
  obtain ⟨values, hvalues, rfl⟩ := hrest
  obtain ⟨hall, hargs⟩ := Document.unquoted_of_shownTexts htokens hvalues
  refine ⟨name, values, Document.lexeme_of_text htokens hname, hall, ?_, ⟨field, hfield, hname⟩,
    hargs⟩
  rw [hfull, ← argsListed_eq, List.append_assoc (ascii "name: " ++ name)]

theorem unknown_tells_eq (htokens : tokenize r.doc.source = .ok r.doc.tokens)
    (htokens' : tokenize r'.doc.source = .ok r'.doc.tokens)
    (hkind : item.kind = .unknownCapability i) (hkind' : item'.kind = .unknownCapability j)
    (hshown : item.shown) (hshown' : item'.shown) (h : r.Says item full)
    (h' : r'.Says item' full) :
    ∃ name args, r.doc.Tells item.token name args ∧ r'.doc.Tells item'.token name args := by
  obtain ⟨name, values, hname, hvalues, hfull, htells⟩ := exists_tells htokens hkind hshown h
  obtain ⟨name', values', hname', hvalues', hfull', htells'⟩ :=
    exists_tells htokens' hkind' hshown' h'
  rw [hfull, List.append_assoc, List.append_assoc, List.append_cancel_left_eq] at hfull'
  obtain ⟨rfl, rfl⟩ := name_and_argsListed_injective hname hname' hvalues hvalues' hfull'
  exact ⟨name, _, htells, htells'⟩

theorem says_of_render (hhash : r.hash = .ofDigest r.hash.digest) (hread : r.doc.Readable)
    (hgrounded : item.Grounded r.doc) (h : r.render item out = .ok (n, found)) :
    r.Says item (found.take n) := by
  have hnamed : ¬ item.Nameless r.doc := by
    intro hnameless
    rw [render_of_nameless hnameless] at h
    contradiction
  have hpresent : ¬ item.Vacant r.doc := by
    intro hvacant
    rw [render_of_vacant hvacant] at h
    contradiction
  obtain ⟨full, hfull⟩ := exists_says hread hgrounded hnamed hpresent
  rw [render_of_full hhash hfull out] at h
  split at h
  · cases h
    rwa [List.append_assoc, List.take_left]
  · contradiction

end ReviewData

namespace ItemList

theorem capability_texts_are_unambiguous {device device' : Device} {source source' : Bytes}
    {tokens tokens' : List Token} {list list' after after' : ItemList}
    (htokens : tokenize source = .ok tokens) (htokens' : tokenize source' = .ok tokens')
    (hbuild : (build device ⟨source, tokens⟩).perform list = (.ok (), after))
    (hbuild' : (build device' ⟨source', tokens'⟩).perform list' = (.ok (), after'))
    {item item' : Item} (hitem : item ∈ after.items) (hitem' : item' ∈ after'.items)
    {digest digest' : Octets 32} {address address' out out' found found' : Bytes} {n n' : Nat} :
    let r : ReviewData := { doc := ⟨source, tokens⟩, hash := .ofDigest digest, address }
    let r' : ReviewData :=
      { doc := ⟨source', tokens'⟩, hash := .ofDigest digest', address := address' }
    r.render item out = .ok (n, found) → r'.render item' out' = .ok (n', found') →
    found.take n = found'.take n' →
    (∀ i j, item.kind = .transfer i → item'.kind = .transfer j →
      Document.SameArgTexts r.doc item.token r'.doc item'.token 3) ∧
    (∀ i j, item.kind = .crossTransfer i → item'.kind = .crossTransfer j →
      Document.SameArgTexts r.doc item.token r'.doc item'.token 4) ∧
    (item.kind = .rotate → item'.kind = .rotate →
      Document.SameArgTexts r.doc item.token r'.doc item'.token 1) ∧
    (∀ i j, item.kind = .unknownCapability i → item'.kind = .unknownCapability j →
      item.shown → item'.shown →
      ∃ name args, r.doc.Tells item.token name args ∧ r'.doc.Tells item'.token name args) := by
  intro r r' hrender hrender' hsame
  rw [build_eq_ok hbuild] at hitem
  rw [build_eq_ok hbuild'] at hitem'
  have hsays : r.Says item (found.take n) :=
    ReviewData.says_of_render rfl (readable_of_tokenize htokens)
      (grounded_schedule device item hitem) hrender
  have hsays' : r'.Says item' (found.take n) := by
    rw [hsame]
    exact ReviewData.says_of_render rfl (readable_of_tokenize htokens')
      (grounded_schedule device' item' hitem') hrender'
  refine ⟨?_, ?_, ?_, ?_⟩
  · intro i j hkind hkind'
    exact ReviewData.transfer_texts_eq htokens htokens' hkind hkind' hsays hsays'
  · intro i j hkind hkind'
    exact ReviewData.crossTransfer_texts_eq htokens htokens' hkind hkind' hsays hsays'
  · intro hkind hkind'
    exact ReviewData.rotate_texts_eq hkind hkind' hsays hsays'
  · intro i j hkind hkind' hshown hshown'
    exact ReviewData.unknown_tells_eq htokens htokens' hkind hkind' hshown hshown' hsays hsays'

theorem capability_texts_are_unambiguous_reordered :
    let source :=
      ascii "\x7b\"signers\":[\x7b\"clist\":[\x7b\"name\":\"coin.TRANSFER\",\"args\":[\"a\",\"b\",1]\x7d,\x7b\"name\":\"m.C\",\"args\":[]\x7d]\x7d]\x7d"
    let source' :=
      ascii "\x7b\"signers\":[\x7b\"clist\":[\x7b\"name\":\"m.C\",\"args\":null\x7d,\x7b\"args\":[ \"a\",\"b\",1],\"name\":\"coin.TRANSFER\"\x7d]\x7d]\x7d"
    let transfer (token : Nat) : Item := { kind := .transfer 1, token }
    let unknown (token : Nat) : Item := { kind := .unknownCapability 1, token }
    ∃ tokens tokens' after after', tokenize source = .ok tokens ∧ tokenize source' = .ok tokens' ∧
      (build .standard ⟨source, tokens⟩).perform {} = (.ok (), after) ∧
      (build .standard ⟨source', tokens'⟩).perform {} = (.ok (), after') ∧
      transfer 6 ∈ after.items ∧ transfer 11 ∈ after'.items ∧
      Document.SameArgTexts ⟨source, tokens⟩ 6 ⟨source', tokens'⟩ 11 3 ∧
      unknown 14 ∈ after.items ∧ unknown 6 ∈ after'.items ∧
      ∃ name args, Document.Tells ⟨source, tokens⟩ 14 name args ∧
        Document.Tells ⟨source', tokens'⟩ 6 name args := by
  intro source source' transfer unknown
  let doc : Document := ⟨source, (tokenize source).toOption.getD []⟩
  let doc' : Document := ⟨source', (tokenize source').toOption.getD []⟩
  let after := ((build .standard doc).perform {}).2
  let after' := ((build .standard doc').perform {}).2
  have htokens : tokenize source = .ok doc.tokens := by decide +kernel
  have htokens' : tokenize source' = .ok doc'.tokens := by decide +kernel
  have hbuild : (build .standard doc).perform {} = (.ok (), after) := by decide +kernel
  have hbuild' : (build .standard doc').perform {} = (.ok (), after') := by decide +kernel
  have htransfer : transfer 6 ∈ after.items := by decide +kernel
  have htransfer' : transfer 11 ∈ after'.items := by decide +kernel
  have hunknown : unknown 14 ∈ after.items := by decide +kernel
  have hunknown' : unknown 6 ∈ after'.items := by decide +kernel
  let r : ReviewData := { doc, hash := .ofDigest (.zero 32), address := [] }
  let r' : ReviewData := { doc := doc', hash := .ofDigest (.zero 32), address := [] }
  let out : Bytes := List.replicate 32 0
  let moved := overwrite out (ascii "1 from \"a\" to \"b\"")
  let called := overwrite out (ascii "name: m.C, no args")
  have hmoved : r.render (transfer 6) out = .ok (17, moved) := by decide +kernel
  have hmoved' : r'.render (transfer 11) out = .ok (17, moved) := by decide +kernel
  have hcalled : r.render (unknown 14) out = .ok (18, called) := by decide +kernel
  have hcalled' : r'.render (unknown 6) out = .ok (18, called) := by decide +kernel
  have hargs := capability_texts_are_unambiguous htokens htokens' hbuild hbuild' htransfer
    htransfer' hmoved hmoved' rfl
  have htells := capability_texts_are_unambiguous htokens htokens' hbuild hbuild' hunknown
    hunknown' hcalled hcalled' rfl
  exact ⟨doc.tokens, doc'.tokens, after, after', htokens, htokens', hbuild, hbuild', htransfer,
    htransfer', hargs.1 1 1 rfl rfl, hunknown, hunknown', htells.2.2.2 1 1 rfl rfl rfl rfl⟩

end ItemList

end ClearSign
