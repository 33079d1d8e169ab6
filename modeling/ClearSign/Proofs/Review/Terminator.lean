import ClearSign.Proofs.Review.Pages

/-!
This module contains the proof that a value is read in full exactly if there is no NUL byte in it,
and that such a byte can only come from a string of the request.
-/

namespace ClearSign

open Json (quoted)

namespace Json

def NulString (pos : Nat) (text : Bytes) (tokens : List Token) : Prop :=
  ∃ before inside after, text = before ++ quoted inside ++ after ∧ Contents inside ∧ 0 ∈ inside ∧
    Token.closed .string (pos + before.length + 1) (pos + before.length + 1 + inside.length) ∈
      tokens

namespace NulString

theorem mono (h : NulString pos text tokens) (hsub : tokens ⊆ more) : NulString pos text more := by
  obtain ⟨before, inside, after, heq, hinside, hnul, htoken⟩ := h
  exact ⟨before, inside, after, heq, hinside, hnul, hsub htoken⟩

theorem append (h : NulString pos text tokens) (next : Bytes) :
    NulString pos (text ++ next) tokens := by
  obtain ⟨before, inside, after, rfl, hinside, hnul, htoken⟩ := h
  exact ⟨before, inside, after ++ next, by simp, hinside, hnul, htoken⟩

theorem prepend {front : Bytes} (h : NulString start text tokens)
    (hstart : start = pos + front.length) : NulString pos (front ++ text) tokens := by
  obtain ⟨before, inside, after, rfl, hinside, hnul, htoken⟩ := h
  refine ⟨front ++ before, inside, after, by simp, hinside, hnul, ?_⟩
  rw [List.length_append, ← Nat.add_assoc, ← hstart]
  exact htoken

end NulString

theorem Blanks.nul_not_mem (h : Blanks text) : 0 ∉ text := by
  intro hmem
  exact absurd (h 0 hmem) (by decide)

theorem Primitive.nul_not_mem (h : Primitive text) : 0 ∉ text := by
  cases h with
  | mk c text hc htext =>
    rw [List.mem_cons, not_or]
    constructor
    · rintro rfl
      exact absurd hc (by decide)
    · intro hmem
      exact absurd (htext 0 hmem).1 (by decide)

theorem Container.nul_ne (container : Container) :
    0 ≠ container.opening ∧ 0 ≠ container.closing := by
  cases container <;> decide

theorem Grammar.nulString_of_mem {part : Part} (h : Grammar part pos text trees) (hmem : 0 ∈ text) :
    NulString pos text trees.tokens := by
  induction h with
  | string pos text hcontents =>
    have hinside : 0 ∈ text := by simpa [quoted, Byte.quote] using hmem
    exact ⟨[], text, [], by simp, hcontents, hinside, by simp [Tree.leaf]⟩
  | primitive pos text hprimitive => exact absurd hmem hprimitive.nul_not_mem
  | empty container pos blank hblank =>
    have hnone := hblank.nul_not_mem
    simp [container.nul_ne, hnone] at hmem
  | filled container pos text trees htrees ih =>
    have hinside : 0 ∈ text := by simpa [container.nul_ne] using hmem
    exact (((ih hinside).prepend rfl).append _).mono (by simp)
  | element pos before text after trees hbefore hvalue hafter ih =>
    have hinside : 0 ∈ text := by
      simpa [hbefore.nul_not_mem, hafter.nul_not_mem] using hmem
    exact ((ih hinside).prepend rfl).append after
  | member pos before key gap text trees hbefore hkey hgap hvalue ih =>
    have hinside : 0 ∈ key ∨ 0 ∈ text := by
      simpa [quoted, Byte.quote, Byte.colon, hbefore.nul_not_mem, hgap.nul_not_mem] using hmem
    rcases hinside with hinside | hinside
    · refine ⟨before, key, gap ++ [Byte.colon] ++ text, by simp, hkey, hinside, ?_⟩
      simp [Tree.leaf]
    · refine ((ih hinside).prepend ?_).mono (by simp [Tree.leaf])
      simp only [quoted, List.length_append, List.length_singleton]
      omega
  | one container pos text trees hentry ih => exact ih hmem
  | more container pos text next trees nextTrees hentries hentry ih ihNext =>
    have hinside : 0 ∈ text ∨ 0 ∈ next := by simpa [Byte.comma] using hmem
    rcases hinside with hinside | hinside
    · rw [List.append_assoc]
      exact ((ih hinside).append _).mono (by simp)
    · refine ((ihNext hinside).prepend ?_).mono (by simp)
      rw [List.length_append, List.length_singleton, Nat.add_assoc]

end Json

theorem decimal_nul_not_mem (n : Nat) : 0 ∉ decimal n := by
  intro hmem
  exact absurd (toNat_of_mem_decimal hmem).1 (by decide)

theorem Json.quoted_nul_mem_iff (text : Bytes) : 0 ∈ Json.quoted text ↔ 0 ∈ text := by
  simp [Json.quoted, Json.Byte.quote]

theorem Json.Document.nul_not_mem_of_text {doc : Json.Document} {content : Bytes}
    (hsource : 0 ∉ doc.source) (h : doc.text i = .ok content) : 0 ∉ content := by
  intro hmem
  unfold Json.Document.text at h
  split at h
  · contradiction
  · split at h
    · cases h
      exact hsource (List.mem_of_mem_drop (List.mem_of_mem_take hmem))
    · contradiction

namespace ReviewData

section

variable {r : ReviewData} {item : Item} {content : Bytes}

theorem arg_nul_not_mem (hsource : 0 ∉ r.doc.source) (h : r.arg capability n = .ok content) :
    0 ∉ content := by
  unfold arg at h
  split at h
  · exact Json.Document.nul_not_mem_of_text hsource h
  · contradiction

theorem transferText_nul_not_mem (hsource : 0 ∉ r.doc.source)
    (h : r.transferText item = .ok content) : 0 ∉ content := by
  simp only [transferText, bind_eq_ok] at h
  obtain ⟨sender, hsender, receiver, hreceiver, amount, hamount, h⟩ := h
  cases h
  have hfrom : 0 ∉ ascii " from " := by decide
  have hto : 0 ∉ ascii " to " := by decide
  simp [Json.quoted_nul_mem_iff, hfrom, hto, arg_nul_not_mem hsource hsender,
    arg_nul_not_mem hsource hreceiver, arg_nul_not_mem hsource hamount]

theorem crossTransferText_nul_not_mem (hsource : 0 ∉ r.doc.source)
    (h : r.crossTransferText item = .ok content) : 0 ∉ content := by
  simp only [crossTransferText, bind_eq_ok] at h
  obtain ⟨transfer, htransfer, chain, hchain, h⟩ := h
  cases h
  have hstarts : 0 ∉ ascii "Cross-chain " := by decide
  have hto : 0 ∉ ascii " to chain " := by decide
  simp [Json.quoted_nul_mem_iff, hstarts, hto, transferText_nul_not_mem hsource htransfer,
    arg_nul_not_mem hsource hchain]

theorem gasText_nul_not_mem (hsource : 0 ∉ r.doc.source) (h : r.gasText item = .ok content) :
    0 ∉ content := by
  simp only [gasText, bind_eq_ok] at h
  obtain ⟨limit, -, price, -, limitText, hlimit, priceText, hprice, h⟩ := h
  cases h
  have hmost : 0 ∉ ascii "at most " := by decide
  have hat : 0 ∉ ascii " at price " := by decide
  simp [hmost, hat, Json.Document.nul_not_mem_of_text hsource hlimit,
    Json.Document.nul_not_mem_of_text hsource hprice]

theorem numberedArgsText_nul_not_mem (hsource : 0 ∉ r.doc.source) {args : List Nat}
    (h : r.numberedArgsText n args = .ok content) : 0 ∉ content := by
  induction args generalizing n content with
  | nil =>
    cases h
    exact List.not_mem_nil
  | cons arg args ih =>
    simp only [numberedArgsText, bind_eq_ok] at h
    obtain ⟨value, hvalue, rest, hrest, h⟩ := h
    cases h
    have hseparator : 0 ∉ if n > 1 then ascii ", " else [] := by split <;> decide
    have harg : 0 ∉ ascii "arg " := by decide
    have hcolon : 0 ∉ ascii ": " := by decide
    have hvalue := Json.Document.nul_not_mem_of_text hsource hvalue
    have hshown : 0 ∉ if r.doc.isString arg then quoted value else value := by
      split
      · rwa [Json.quoted_nul_mem_iff]
      · exact hvalue
    simp only [List.mem_append, hseparator, harg, decimal_nul_not_mem, hcolon, hshown, ih hrest,
      or_self, not_false_eq_true]

theorem unknownCapabilityText_nul_not_mem (hsource : 0 ∉ r.doc.source)
    (h : r.unknownCapabilityText item = .ok content) : 0 ∉ content := by
  simp only [unknownCapabilityText, bind_eq_ok] at h
  obtain ⟨name, -, nameText, hname, args, hargs, h⟩ := h
  cases h
  have hlabel : 0 ∉ ascii "name: " := by decide
  have hcomma : 0 ∉ ascii ", " := by decide
  have hshown : 0 ∉ args := by
    unfold argsText at hargs
    split at hargs
    · split at hargs
      · cases hargs
        decide
      · exact numberedArgsText_nul_not_mem hsource hargs
    · cases hargs
      decide
  simp only [List.mem_append, hlabel, hcomma, hshown, or_self, not_false_eq_true,
    Json.Document.nul_not_mem_of_text hsource hname]

theorem text_nul_not_mem (hsource : 0 ∉ r.doc.source) (hhash : 0 ∉ r.hash.text.bytes)
    (haddress : 0 ∉ r.address) (h : r.text item = .ok content) : 0 ∉ content := by
  unfold text at h
  cases hkind : item.kind with
  | network | signerKey | unscopedSigner | chain =>
    simp only [hkind, plainText, bind_eq_ok] at h
    obtain ⟨value, hvalue, h⟩ := h
    split at h
    · cases h
    · cases h
      exact Json.Document.nul_not_mem_of_text hsource hvalue
  | transfer =>
    rw [hkind] at h
    exact transferText_nul_not_mem hsource h
  | crossTransfer =>
    rw [hkind] at h
    exact crossTransferText_nul_not_mem hsource h
  | rotate =>
    simp only [hkind, rotateText, bind_eq_ok] at h
    obtain ⟨account, haccount, h⟩ := h
    cases h
    rw [Json.quoted_nul_mem_iff]
    exact arg_nul_not_mem hsource haccount
  | gas =>
    rw [hkind] at h
    exact gasText_nul_not_mem hsource h
  | unknownCapability =>
    rw [hkind] at h
    exact unknownCapabilityText_nul_not_mem hsource h
  | hash =>
    rw [hkind] at h
    cases h
    exact hhash
  | signForAddress =>
    rw [hkind] at h
    cases h
    exact haddress
  | _ =>
    rw [hkind] at h
    rw [← Except.ok.inj h]
    decide +kernel

end

end ReviewData

theorem hex_nul_not_mem (bytes : Bytes) : 0 ∉ hex bytes := by
  intro hnul
  exact forall_mem_hex (p := (· ≠ 0)) (by decide +kernel) bytes 0 hnul rfl

theorem base64_nul_not_mem (bytes : Bytes) : 0 ∉ base64 bytes := by
  have hdigit : ∀ value, 0 ≠ Base64.digit value := by
    decide +kernel
  have hpadding : 0 ≠ Base64.padding := by decide
  fun_induction base64 bytes with
  | case1 => exact List.not_mem_nil
  | case2 a => simp [hdigit, hpadding]
  | case3 a b => simp [hdigit, hpadding]
  | case4 a b c rest ih => simp [hdigit, ih]

namespace Session

theorem read_in_full_iff {session after : Session}
    (hreview : (prepareReview device .json key).perform session = (.ok (), after))
    (hread : ({ after with prompt := .sign } : Session).readItem index title message = .ok shown) :
    ∃ item value,
      after.transaction.items.items[index]? = some item ∧
      after.transaction.Shows session.buffer.contents item value ∧
      (shown.value = value ↔ 0 ∉ value) ∧
      (0 ∈ value →
        Json.NulString 0 session.buffer.contents after.transaction.tokens) := by
  obtain ⟨hread', -⟩ := prepareReview_eq_ok hreview
  rcases hperform : (Transaction.readJson device session.buffer.contents key).perform
    session.transaction with ⟨outcome, transaction⟩
  rw [perform_readRequest_json, hperform] at hread'
  cases hread'
  obtain ⟨tokens, items, htokens, hitems, rfl⟩ := Transaction.readJson_eq_ok hperform
  obtain ⟨item, value, hitem, hshows, hfull⟩ := readItem_eq_ok rfl hread
  refine ⟨item, value, hitem, hshows, hfull, ?_⟩
  intro hnul
  obtain ⟨-, tree, htext, rfl⟩ := Json.isText_of_tokenize htokens
  have hsource : 0 ∈ session.buffer.contents := by
    by_contra hsource
    have hvalue := (Transaction.shows_iff.1 hshows).1
    exact ReviewData.text_nul_not_mem hsource (base64_nul_not_mem _) (hex_nul_not_mem _) hvalue hnul
  have hstring := Json.Grammar.nulString_of_mem htext hsource
  simpa using hstring

def cutNetwork : Session :=
  { fresh .standard with
    buffer := { (fresh .standard).buffer with
      ram := (fresh .standard).buffer.ram.write (ascii "\x7b\"networkId\":\"a\x00b\"\x7d") } }

def cutNetworkReview : Session :=
  ((prepareReview .standard .json (.zero 32)).perform cutNetwork).2

theorem prepareReview_cutNetwork :
    (prepareReview .standard .json (.zero 32)).perform cutNetwork = (.ok (), cutNetworkReview) :=
  Prod.ext (by decide +kernel) rfl

theorem readItem_cutNetwork :
    ({ cutNetworkReview with prompt := .sign } : Session).readItem 1 (List.replicate 24 0)
      (List.replicate 41 0) = .ok ⟨ascii "On Network", ascii "a", 1⟩ := by
  decide +kernel

theorem shows_cutNetwork :
    cutNetworkReview.transaction.items.items[1]? = some { kind := .network, token := 2 } ∧
      cutNetworkReview.transaction.Shows cutNetwork.buffer.contents
        { kind := .network, token := 2 } (ascii "a\x00b") := by
  rw [Transaction.shows_iff]
  decide +kernel

theorem read_in_full_iff_network :
    ∃ value, 0 ∈ value ∧ cutNetworkReview.transaction.Shows cutNetwork.buffer.contents
        { kind := .network, token := 2 } value ∧
      Json.NulString 0 cutNetwork.buffer.contents cutNetworkReview.transaction.tokens := by
  obtain ⟨item, value, hitem, hshows, -, hstring⟩ :=
    read_in_full_iff prepareReview_cutNetwork readItem_cutNetwork
  cases hitem.symm.trans shows_cutNetwork.1
  cases Transaction.shows_unique hshows shows_cutNetwork.2
  exact ⟨_, by decide, hshows, hstring (by decide)⟩

theorem readItem_cuts_value :
    ∃ session after : Session, ∃ item value shown,
      (prepareReview .standard .json (.zero 32)).perform session = (.ok (), after) ∧
      after.transaction.items.items[1]? = some item ∧
      after.transaction.Shows session.buffer.contents item value ∧
      ({ after with prompt := .sign } : Session).readItem 1 (List.replicate 24 0)
        (List.replicate 41 0) = .ok shown ∧
      shown.value ≠ value :=
  ⟨cutNetwork, cutNetworkReview, _, _, _, prepareReview_cutNetwork, shows_cutNetwork.1,
    shows_cutNetwork.2, readItem_cutNetwork, by decide⟩

end Session

end ClearSign
