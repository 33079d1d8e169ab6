import ClearSign.Proofs.Json.Value
import ClearSign.Proofs.Transfer.Template
import ClearSign.Transfer.Expansion
import Mathlib.Tactic.Linarith

/-!
This module contains the JSON value that a compact transfer stands for, and the proof that the
transaction of a transfer is this value.
-/

namespace ClearSign.Template

open Json

def codeText (t : Template) (address : Bytes) : Bytes :=
  ascii "(" ++ (t.callCode address).flatten ++ ascii ")"

def dataValue (t : Template) : Value :=
  match t.kind with
  | .transfer => .object []
  | .transferCreate | .crossChain =>
    .object [(ascii "ks",
      .object [(ascii "pred", .string (ascii "keys-all")),
        (ascii "keys", .array [.string t.recipient])])]

def account (key : Bytes) : Bytes :=
  ascii "k:" ++ key

def grantArgValues (t : Template) (address : Bytes) : List Value :=
  [.string (account address), .string (account t.recipient), .primitive t.amount] ++
  match t.kind with
  | .transfer | .transferCreate => []
  | .crossChain => [.string t.recipientChain]

def grantValue (t : Template) (address : Bytes) : Value :=
  .object [(ascii "args", .array (t.grantArgValues address)),
    (ascii "name", .string t.grantName.flatten)]

def gasValue : Value :=
  .object [(ascii "args", .array []), (ascii "name", .string (ascii "coin.GAS"))]

def signerValue (t : Template) (address : Bytes) : Value :=
  .object [(ascii "pubKey", .string address),
    (ascii "clist", .array [t.grantValue address, gasValue])]

def metaMembers (t : Template) (address : Bytes) : List (Bytes × Value) :=
  [(ascii "creationTime", .primitive t.creationTime), (ascii "ttl", .primitive t.ttl),
    (ascii "gasLimit", .primitive t.gasLimit), (ascii "chainId", .string t.chain),
    (ascii "gasPrice", .primitive t.gasPrice), (ascii "sender", .string (account address))]

def value (t : Template) (address : Bytes) : Value :=
  .object [(ascii "networkId", .string t.network),
    (ascii "payload", .object [(ascii "exec",
      .object [(ascii "data", t.dataValue), (ascii "code", .string (t.codeText address))])]),
    (ascii "signers", .array [t.signerValue address]),
    (ascii "meta", .object (t.metaMembers address)),
    (ascii "nonce", .string t.nonce)]

theorem text_dataValue (t : Template) : t.dataValue.text = t.callData.flatten := by
  unfold dataValue callData
  cases t.kind
  all_goals
    simp only [Value.text, Json.elementsText, Json.membersText, Json.quoted, List.flatten_cons,
      List.flatten_nil, List.append_assoc, List.cons_append, List.nil_append, List.tail_cons,
      List.append_nil]
    rfl

theorem text_grantValue (t : Template) (address : Bytes) :
    (t.grantValue address).text =
      ascii "\x7b\"args\":[\"k:" ++ (t.grantArgs address).flatten ++ ascii "],\"name\":\"" ++
        t.grantName.flatten ++ ascii "\"\x7d" := by
  unfold grantValue grantArgValues grantArgs account
  cases t.kind
  all_goals
    simp only [Value.text, Json.elementsText, Json.membersText, Json.quoted, List.flatten_cons,
      List.flatten_nil, List.append_assoc, List.cons_append, List.nil_append, List.tail_cons,
      List.append_nil]
    rfl

theorem text_metaMembers (t : Template) (address : Bytes) :
    (Value.object (t.metaMembers address)).text =
      ascii "\x7b\"creationTime\":" ++ t.creationTime ++ ascii ",\"ttl\":" ++ t.ttl ++
        ascii ",\"gasLimit\":" ++ t.gasLimit ++ ascii ",\"chainId\":\"" ++ t.chain ++
        ascii "\",\"gasPrice\":" ++ t.gasPrice ++ ascii ",\"sender\":\"k:" ++ address ++
        ascii "\"\x7d" := by
  unfold metaMembers account
  simp only [Value.text, Json.membersText, Json.quoted, List.append_assoc, List.cons_append,
    List.nil_append, List.tail_cons, List.append_nil]
  rfl

theorem text_signerValue (t : Template) (address : Bytes) :
    (t.signerValue address).text =
      ascii "\x7b\"pubKey\":\"" ++ address ++ ascii "\",\"clist\":[" ++
        (t.grantValue address).text ++ ascii ",\x7b\"args\":[],\"name\":\"coin.GAS\"\x7d]\x7d" := by
  unfold signerValue gasValue
  rw [Value.text]
  simp only [Value.text, Json.elementsText, Json.membersText, Json.quoted, List.append_assoc,
    List.cons_append, List.nil_append, List.tail_cons, List.append_nil]
  rfl

set_option maxRecDepth 2000 in
theorem transaction_eq_text (t : Template) (address : Bytes) :
    t.transaction address = (t.value address).text := by
  unfold transaction pieces value
  rw [Value.text]
  simp only [Json.membersText]
  rw [text_metaMembers]
  simp only [Value.text, Json.membersText, Json.elementsText, text_dataValue, text_signerValue,
    text_grantValue, codeText, Json.quoted, List.flatten_append, List.flatten_cons,
    List.flatten_nil, List.append_assoc, List.cons_append, List.nil_append, List.tail_cons,
    List.append_nil]
  rfl

theorem depth_value (t : Template) (address : Bytes) : (t.value address).depth ≤ Limit.depth := by
  unfold value signerValue grantValue gasValue metaMembers dataValue grantArgValues
  cases t.kind
  all_goals
    simp only [Value.depth, elementsDepth, membersDepth, List.cons_append, List.nil_append]
    decide

theorem count_value (t : Template) (address : Bytes) : (t.value address).count ≤ Limit.tokens := by
  unfold value signerValue grantValue gasValue metaMembers dataValue grantArgValues
  cases t.kind
  all_goals
    simp only [Value.count, elementsCount, membersCount, List.cons_append, List.nil_append]
    decide

theorem length_contract_le {t : Template} (h : t.Bounded) : t.contract.flatten.length ≤ 49 := by
  have := h.moduleSpace
  have := h.moduleName
  unfold contract
  split
  · decide
  · have hdot : (ascii ".").length = 1 := rfl
    simp only [List.flatten_cons, List.flatten_nil, List.length_append, List.length_nil, hdot]
    omega

theorem length_transaction_le {t : Template} {address : Bytes} (h : t.Bounded)
    (haddress : address.length = 64) : (t.transaction address).length ≤ 1536 := by
  have hcontract := length_contract_le h
  obtain ⟨hrecipient, hrecipientChain, hnetwork, hamount, -, -, hgasPrice, hgasLimit, hcreationTime,
    hchain, hnonce, httl⟩ := h
  unfold transaction pieces callData callCode grantArgs grantName function
  cases t.kind
  all_goals
    simp only [List.flatten_append, List.flatten_cons, List.flatten_nil, List.length_append,
      List.length_nil, ascii, List.length_map, String.reduceToList, List.length_cons,
      Nat.reduceAdd]
    linarith

/--
The fields can stand in the transaction as they are, and those that are shown on their own are not
empty.
-/
structure Fitting (t : Template) : Prop where
  recipient : Plain t.recipient
  recipientChain : Plain t.recipientChain
  network : Plain t.network ∧ t.network ≠ []
  moduleSpace : Plain t.moduleSpace
  moduleName : Plain t.moduleName
  chain : Plain t.chain ∧ t.chain ≠ []
  nonce : Plain t.nonce
  amount : Primitive t.amount ∧ Byte.backslash ∉ t.amount
  gasPrice : Primitive t.gasPrice
  gasLimit : Primitive t.gasLimit
  creationTime : Primitive t.creationTime
  ttl : Primitive t.ttl

section Valid

variable {t : Template} {address : Bytes}

theorem contents_contract (h : t.Fitting) : Contents t.contract.flatten := by
  unfold contract
  split
  · exact contents_of_escapesQuotes (by decide)
  · apply contents_flatten
    simp only [List.mem_cons, List.not_mem_nil, or_false, forall_eq_or_imp, forall_eq]
    exact ⟨h.moduleSpace.contents, contents_of_escapesQuotes (by decide), h.moduleName.contents⟩

theorem contents_callCode (h : t.Fitting) (haddress : Plain address) :
    Contents (t.callCode address).flatten := by
  have hfunction : Contents t.function := by
    unfold function
    cases t.kind <;> exact contents_of_escapesQuotes (by decide)
  have hamount := plain_of_primitive h.amount.1 h.amount.2
  unfold callCode
  simp only [List.flatten_append]
  apply contents_append
  · apply contents_append
    · apply contents_append (contents_contract h)
      apply contents_flatten
      simp only [List.mem_cons, List.not_mem_nil, or_false, forall_eq_or_imp, forall_eq]
      exact ⟨hfunction, contents_of_escapesQuotes (by decide), haddress.contents,
        contents_of_escapesQuotes (by decide), h.recipient.contents,
        contents_of_escapesQuotes (by decide)⟩
    · cases t.kind with
      | transfer => exact .nil
      | transferCreate =>
        dsimp only
        exact contents_of_escapesQuotes (by decide)
      | crossChain =>
        apply contents_flatten
        simp only [List.mem_cons, List.not_mem_nil, or_false, forall_eq_or_imp, forall_eq]
        exact ⟨contents_of_escapesQuotes (by decide), contents_of_escapesQuotes (by decide),
          h.recipientChain.contents, contents_of_escapesQuotes (by decide)⟩
  · apply contents_flatten
    simp only [List.mem_cons, List.not_mem_nil, or_false, forall_eq_or_imp, forall_eq]
    exact ⟨contents_of_escapesQuotes (by decide), hamount.contents⟩

theorem contents_codeText (h : t.Fitting) (haddress : Plain address) :
    Contents (t.codeText address) := by
  apply contents_append
  · exact contents_append (contents_of_escapesQuotes (by decide)) (contents_callCode h haddress)
  · exact contents_of_escapesQuotes (by decide)

theorem contents_account (h : Plain address) : Contents (account address) :=
  contents_append (contents_of_escapesQuotes (by decide)) h.contents

theorem contents_grantName (h : t.Fitting) : Contents t.grantName.flatten := by
  unfold grantName
  simp only [List.flatten_append]
  apply contents_append
  · exact contents_append (contents_contract h) (contents_of_escapesQuotes (by decide))
  · cases t.kind <;> exact contents_of_escapesQuotes (by decide)

theorem valid_dataValue (h : t.Fitting) : t.dataValue.Valid := by
  unfold dataValue
  cases t.kind with
  | transfer => trivial
  | transferCreate | crossChain =>
    simp only [Value.Valid, MembersValid, ElementsValid]
    exact ⟨contents_of_escapesQuotes (by decide),
      ⟨contents_of_escapesQuotes (by decide), contents_of_escapesQuotes (by decide),
        contents_of_escapesQuotes (by decide), ⟨h.recipient.contents, trivial⟩, trivial⟩, trivial⟩

theorem valid_grantArgValues (h : t.Fitting) (haddress : Plain address) :
    ElementsValid (t.grantArgValues address) := by
  unfold grantArgValues
  cases t.kind with
  | transfer | transferCreate =>
    simp only [Value.Valid, ElementsValid, List.append_nil]
    exact ⟨contents_account haddress, contents_account h.recipient, h.amount.1, trivial⟩
  | crossChain =>
    simp only [Value.Valid, ElementsValid, List.cons_append, List.nil_append]
    exact ⟨contents_account haddress, contents_account h.recipient, h.amount.1,
      h.recipientChain.contents, trivial⟩

theorem valid_signerValue (h : t.Fitting) (haddress : Plain address) :
    (t.signerValue address).Valid := by
  unfold signerValue grantValue gasValue
  simp only [Value.Valid, MembersValid, ElementsValid]
  exact ⟨contents_of_escapesQuotes (by decide), haddress.contents,
    contents_of_escapesQuotes (by decide),
    ⟨⟨contents_of_escapesQuotes (by decide), valid_grantArgValues h haddress,
      contents_of_escapesQuotes (by decide), contents_grantName h, trivial⟩,
      ⟨contents_of_escapesQuotes (by decide), trivial, contents_of_escapesQuotes (by decide),
        contents_of_escapesQuotes (by decide), trivial⟩, trivial⟩, trivial⟩

theorem valid_metaMembers (h : t.Fitting) (haddress : Plain address) :
    MembersValid (t.metaMembers address) := by
  unfold metaMembers
  simp only [Value.Valid, MembersValid]
  exact ⟨contents_of_escapesQuotes (by decide), h.creationTime,
    contents_of_escapesQuotes (by decide), h.ttl, contents_of_escapesQuotes (by decide), h.gasLimit,
    contents_of_escapesQuotes (by decide), h.chain.1.contents, contents_of_escapesQuotes (by decide),
    h.gasPrice, contents_of_escapesQuotes (by decide), contents_account haddress, trivial⟩

theorem valid_value (h : t.Fitting) (haddress : Plain address) : (t.value address).Valid := by
  unfold value
  simp only [Value.Valid, MembersValid, ElementsValid]
  exact ⟨contents_of_escapesQuotes (by decide), h.network.1.contents,
    contents_of_escapesQuotes (by decide),
    ⟨contents_of_escapesQuotes (by decide), ⟨contents_of_escapesQuotes (by decide),
      valid_dataValue h, contents_of_escapesQuotes (by decide), contents_codeText h haddress,
      trivial⟩, trivial⟩,
    contents_of_escapesQuotes (by decide), ⟨valid_signerValue h haddress, trivial⟩,
    contents_of_escapesQuotes (by decide), valid_metaMembers h haddress,
    contents_of_escapesQuotes (by decide), h.nonce.contents, trivial⟩

end Valid

end ClearSign.Template
