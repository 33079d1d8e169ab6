import ClearSign.Proofs.Review.Text
import ClearSign.Proofs.Transfer.Review

/-!
This module contains the review of a compact transfer, and the proof that the items found in its
expansion are those of the review and have the texts of the review.
-/

namespace ClearSign

open Json (Document Value quoted)

namespace Template

def grantText (t : Template) (address : Bytes) : Bytes :=
  if t.isCoin then
    match t.kind with
    | .transfer | .transferCreate =>
      t.amount ++ ascii " from \"k:" ++ address ++ ascii "\" to \"k:" ++ t.recipient ++ ascii "\""
    | .crossChain =>
      ascii "Cross-chain " ++ t.amount ++ ascii " from \"k:" ++ address ++ ascii "\" to \"k:" ++
        t.recipient ++ ascii "\" to chain \"" ++ t.recipientChain ++ ascii "\""
  else
    ascii "name: " ++ t.moduleSpace ++ ascii "." ++ t.moduleName ++ t.grantSuffix ++
      ascii ", arg 1: \"k:" ++ address ++ ascii "\", arg 2: \"k:" ++ t.recipient ++
      ascii "\", arg 3: " ++ t.amount ++
      match t.kind with
      | .transfer | .transferCreate => []
      | .crossChain => ascii ", arg 4: \"" ++ t.recipientChain ++ ascii "\""

def review (t : Template) (device : Device) (address : Bytes) : List (Item.Kind × Bytes) :=
  [(.signing, ascii "Transaction"), (.network, t.network), (.requiring, ascii "Capabilities"),
   (.signerKey, address), (.payingGas, ascii " "), (t.grantKind, t.grantText address),
   (.chain, t.chain),
   (.gas, ascii "at most " ++ t.gasLimit ++ ascii " at price " ++ t.gasPrice),
   (.hash, base64 (blake2b (t.transaction address)).bytes)] ++
  if device.showsSigner then [(.signForAddress, address)] else []

end Template

namespace ReviewData

open Template (account)

def numbered : (n : Nat) → List Value → Bytes
  | _, [] => []
  | n, value :: values =>
    (if n > 1 then ascii ", " else []) ++ ascii "arg " ++ decimal n ++ ascii ": " ++ value.text ++
      numbered (n + 1) values

def IsLeaf : Value → Prop
  | .string _ => True
  | .primitive text => text ≠ []
  | .array _ | .object _ => False

theorem exists_text_of_isLeaf {doc : Document} {value : Value} (h : doc.Holds i value)
    (hleaf : IsLeaf value) :
    ∃ content, doc.text i = .ok content ∧
      (if doc.isString i then quoted content else content) = value.text := by
  cases value with
  | string text =>
    refine ⟨text, h.text_string, ?_⟩
    rw [h.isString, if_pos rfl, Value.text]
  | primitive text =>
    refine ⟨text, h.text_primitive hleaf, ?_⟩
    have hstring : doc.isString i = false := by
      rw [Document.isString, h.kind?]
      rfl
    rw [hstring, if_neg Bool.false_ne_true, Value.text]
  | array values => exact hleaf.elim
  | object members => exact hleaf.elim

theorem numberedArgsText_eq_ok {r : ReviewData} {args : List Nat} {values : List Value}
    (h : List.Forall₂ r.doc.Holds args values) (hleaf : ∀ value ∈ values, IsLeaf value) (n : Nat) :
    r.numberedArgsText n args = .ok (numbered n values) := by
  induction h generalizing n with
  | nil => rfl
  | @cons arg value args values hvalue _ ih =>
    obtain ⟨content, hcontent, htext⟩ :=
      exists_text_of_isLeaf hvalue (hleaf value List.mem_cons_self)
    have hrest := ih (fun other hother => hleaf other (List.mem_cons_of_mem value hother)) (n + 1)
    rw [numberedArgsText, hcontent, ok_bind, hrest, ok_bind, htext, numbered]
    rfl

section Transfer

variable {r : ReviewData} {t : Template} {address : Bytes} {item : Item}
  (h : r.doc.Holds item.token (t.grantValue address))

include h

theorem arg_eq_ok (n : Nat) {value : Value} {content : Bytes}
    (hvalue : (t.grantArgValues address)[n]? = some value)
    (htext : ∀ j, r.doc.Holds j value → r.doc.text j = .ok content) :
    r.arg item.token n = .ok content := by
  obtain ⟨args, hpresent, hargs⟩ := h.args?
  obtain ⟨j, helement, hholds⟩ := hargs.arrayElement? n hvalue
  rw [arg, hpresent, Option.bind_some, helement]
  exact htext j hholds

theorem transferText_eq_ok (hamount : t.amount ≠ []) :
    r.transferText item = .ok (t.amount ++ ascii " from " ++ quoted (account address) ++
      ascii " to " ++ quoted (account t.recipient)) := by
  have hsender := arg_eq_ok h 0 rfl fun j hj => hj.text_string
  have hreceiver := arg_eq_ok h 1 rfl fun j hj => hj.text_string
  have hamount := arg_eq_ok h 2 rfl fun j hj => hj.text_primitive hamount
  rw [transferText, hsender, ok_bind, hreceiver, ok_bind, hamount]
  rfl

theorem crossTransferText_eq_ok (hamount : t.amount ≠ []) (hkind : t.kind = .crossChain) :
    r.crossTransferText item = .ok (ascii "Cross-chain " ++ (t.amount ++ ascii " from " ++
      quoted (account address) ++ ascii " to " ++ quoted (account t.recipient)) ++
      ascii " to chain " ++ quoted t.recipientChain) := by
  have hvalue : (t.grantArgValues address)[3]? = some (.string t.recipientChain) := by
    rw [Template.grantArgValues, hkind]
    rfl
  have hchain := arg_eq_ok h 3 hvalue fun j hj => hj.text_string
  rw [crossTransferText, transferText_eq_ok h hamount, ok_bind, hchain]
  rfl

theorem unknownCapabilityText_eq_ok (hamount : t.amount ≠ []) (hshown : item.shown) :
    r.unknownCapabilityText item = .ok (ascii "name: " ++ t.grantName.flatten ++ ascii ", " ++
      numbered 1 (t.grantArgValues address)) := by
  obtain ⟨name, hfield, hname⟩ := h.exists_field? (ascii "name") rfl
  obtain ⟨args, hpresent, hargs⟩ := h.args?
  have hleaf : ∀ value ∈ t.grantArgValues address, IsLeaf value := by
    unfold Template.grantArgValues
    cases t.kind <;> simp [IsLeaf, hamount]
  have hargsText : r.argsText item = .ok (numbered 1 (t.grantArgValues address)) := by
    rw [argsText, if_pos hshown, hpresent, Option.elim_some,
      ← numberedArgsText_eq_ok hargs.elements hleaf]
    have hlength := hargs.elements.length_eq
    split
    · next hnone =>
      rw [hnone, Template.length_grantArgValues] at hlength
      split at hlength <;> contradiction
    · rfl
  rw [unknownCapabilityText, field, hfield]
  dsimp only
  rw [ok_bind, hname.text_string, ok_bind, hargsText]
  rfl

theorem text_grant (hamount : t.amount ≠ []) (hkind : item.kind = t.grantKind)
    (hshown : item.shown) : r.text item = .ok (t.grantText address) := by
  rw [text, hkind, Template.grantKind, Template.grantText]
  cases hcoin : t.isCoin with
  | true =>
    rw [if_pos rfl, if_pos rfl]
    cases htransfer : t.kind with
    | transfer | transferCreate =>
      rw [transferText_eq_ok h hamount]
      simp only [quoted, account, List.append_assoc]
      rfl
    | crossChain =>
      rw [crossTransferText_eq_ok h hamount htransfer]
      simp only [quoted, account, List.append_assoc]
      rfl
  | false =>
    have hcontract : t.contract = [t.moduleSpace, ascii ".", t.moduleName] := by
      unfold Template.isCoin at hcoin
      rw [Template.contract, if_neg (by simpa using hcoin)]
    have hdigits : decimal 1 = ascii "1" ∧ decimal 2 = ascii "2" ∧ decimal 3 = ascii "3" ∧
        decimal 4 = ascii "4" := by decide
    rw [if_neg Bool.false_ne_true, if_neg Bool.false_ne_true]
    dsimp only
    rw [unknownCapabilityText_eq_ok h hamount hshown, Template.flatten_grantName, hcontract,
      Template.grantArgValues]
    cases t.kind
    all_goals
      simp only [numbered, Value.text, quoted, account, hdigits, List.flatten_cons,
        List.flatten_nil, List.append_assoc, List.cons_append, List.nil_append, List.append_nil]
      rfl

end Transfer

section Schedule

variable {r : ReviewData} {t : Template} {address : Bytes} {item : Item}

theorem plainText_eq_ok {text : Bytes} (h : r.doc.Holds item.token (.string text))
    (hne : text ≠ []) : r.plainText item = .ok text := by
  rw [plainText, h.text_string, ok_bind, List.isEmpty_eq_false_iff.2 hne]
  rfl

theorem gasText_eq_ok (h : r.doc.Holds item.token (.object (t.metaMembers address)))
    (hfitting : t.Fitting) :
    r.gasText item = .ok (ascii "at most " ++ t.gasLimit ++ ascii " at price " ++ t.gasPrice) := by
  obtain ⟨limit, hlimitField, hlimit⟩ := h.exists_field? (ascii "gasLimit") rfl
  obtain ⟨price, hpriceField, hprice⟩ := h.exists_field? (ascii "gasPrice") rfl
  rw [gasText, field, hlimitField]
  dsimp only
  rw [ok_bind, field, hpriceField]
  dsimp only
  rw [ok_bind, hlimit.text_primitive hfitting.gasLimit.ne_nil, ok_bind,
    hprice.text_primitive hfitting.gasPrice.ne_nil]
  rfl

theorem text_schedule (h : r.doc.Holds Document.root (t.value address)) (hfitting : t.Fitting)
    (hbounded : t.Bounded) (haddress : address.length = 64)
    (hhash : r.hash.text.bytes = base64 (blake2b (t.transaction address)).bytes)
    (hsigner : r.address = address) (device : Device) :
    List.Forall₂ (fun item shown => item.kind = shown.1 ∧ r.text item = .ok shown.2)
      (ItemList.schedule device r.doc).items (t.review device address) := by
  obtain ⟨network, key, gas, transfer, chain, info, hitems, hnetwork, hkey, hgrant, hchain,
    hinfo⟩ := Template.exists_items_schedule h hbounded haddress device
  have hne : address ≠ [] := by
    rintro rfl
    contradiction
  rw [hitems, Template.review]
  apply List.rel_append
  · refine .cons ⟨rfl, rfl⟩ (.cons ⟨rfl, ?_⟩ (.cons ⟨rfl, rfl⟩ (.cons ⟨rfl, ?_⟩
      (.cons ⟨rfl, rfl⟩ (.cons ⟨rfl, ?_⟩ (.cons ⟨rfl, ?_⟩ (.cons ⟨rfl, ?_⟩
        (.cons ⟨rfl, ?_⟩ .nil))))))))
    · exact plainText_eq_ok hnetwork hfitting.network.2
    · exact plainText_eq_ok hkey hne
    · exact text_grant hgrant hfitting.amount.1.ne_nil rfl rfl
    · exact plainText_eq_ok hchain hfitting.chain.2
    · exact gasText_eq_ok hinfo hfitting
    · exact congrArg Except.ok hhash
  · unfold ItemList.addressItems
    split
    · exact .cons ⟨rfl, congrArg Except.ok hsigner⟩ .nil
    · exact .nil

end Schedule

end ReviewData

end ClearSign
