import ClearSign.Proofs.Json.Lookup
import ClearSign.Proofs.Review.Capacity
import ClearSign.Proofs.Transfer.Value

/-!
This module contains the items of the review of a compact transfer.
-/

namespace ClearSign

open Json (Document Value)

namespace Json.Document.Holds

variable {doc : Document} {i : Nat}

theorem hasKeys {members : List (Bytes × Value)} (h : doc.Holds i (.object members)) :
    doc.hasKeys i (members.map Prod.fst) := by
  have hmembers := h.members
  have hobject := h.isObject
  unfold Document.hasKeys
  rw [hobject]
  clear h hobject
  generalize doc.members i = found at hmembers
  induction hmembers with
  | nil => rfl
  | @cons is member found members hmember _ ih =>
    simp only [Bool.true_and, Bool.and_eq_true, beq_iff_eq, List.length_map] at ih
    simp [hmember.1.isStringOf, ih.1, ih.2]

theorem arrayElement? {values : List Value} (h : doc.Holds i (.array values)) (n : Nat)
    (hvalue : values[n]? = some value) :
    ∃ j, doc.arrayElement? i n = some j ∧ doc.Holds j value := by
  have helements := h.elements
  rw [Document.arrayElement?, if_pos h.isArray]
  clear h
  generalize doc.children i = found at helements
  induction helements generalizing n with
  | nil => simp at hvalue
  | cons hfirst _ ih =>
    cases n with
    | zero =>
      cases hvalue
      exact ⟨_, rfl, hfirst⟩
    | succ n => exact ih n hvalue

theorem length_token {values : List Value} (h : doc.Holds i (.array values)) :
    ∃ token, doc.token? i = some token ∧ token.kind = .array ∧
      token.length = (Value.array values).text.length := by
  have hlength := h.short
  obtain ⟨token, children, pos, htree, htoken, hstarts⟩ := h.token?
  rw [Value.tree] at htree
  cases htree
  have hbound := hstarts.length_le
  rw [Value.text] at hbound ⊢
  simp only [List.length_append, List.length_singleton, List.length_drop] at hbound ⊢
  have hsize : UInt16.size = Limit.jsonLength + 1 := rfl
  refine ⟨_, htoken, rfl, ?_⟩
  rw [Token.length, Token.start_closed (by omega), Token.stop_closed (by omega)]
  omega

section Capability

variable {args : List Value} {name : Bytes}

theorem isNamed
    (h : doc.Holds i (.object [(ascii "args", .array args), (ascii "name", .string name)]))
    (content : Bytes) : doc.isNamed i content = (name == content) := by
  obtain ⟨j, hfield, hname⟩ := h.exists_field? (ascii "name") rfl
  rw [Document.isNamed, hfield, Option.any_some, hname.isStringOf]

theorem args?
    (h : doc.Holds i (.object [(ascii "args", .array args), (ascii "name", .string name)])) :
    ∃ j, doc.args? i = some j ∧ doc.Holds j (.array args) := by
  obtain ⟨j, hpresent, hargs⟩ := h.exists_present? (ascii "args") rfl nofun
  refine ⟨j, ?_, hargs⟩
  rw [Document.args?, hpresent, Option.filter_some, hargs.isArray]
  rfl

theorem hasArgs
    (h : doc.Holds i (.object [(ascii "args", .array args), (ascii "name", .string name)]))
    (n : Nat) : doc.hasArgs i n = (args.length == n) := by
  obtain ⟨j, hfield, hargs⟩ := h.exists_field? (ascii "args") rfl
  rw [Document.hasArgs, hfield, Option.any_some, hargs.isArray, Bool.true_and,
    hargs.elements.length_eq]

theorem showsArgs
    (h : doc.Holds i (.object [(ascii "args", .array args), (ascii "name", .string name)]))
    (hcount : args.length ≤ Limit.shownArgs)
    (hspan : (Value.array args).text.length ≤ Limit.shownSpan) : doc.showsArgs i := by
  obtain ⟨j, hpresent, hargs⟩ := h.exists_present? (ascii "args") rfl nofun
  obtain ⟨token, htoken, hkind, hlength⟩ := hargs.length_token
  rw [Document.showsArgs, hpresent]
  dsimp only
  rw [htoken]
  simp [hkind, hlength, hargs.elements.length_eq, hcount, hspan]

end Capability

end Json.Document.Holds

namespace Template

def isCoin (t : Template) : Bool :=
  t.moduleSpace.isEmpty || t.moduleName.isEmpty

def grantSuffix (t : Template) : Bytes :=
  match t.kind with
  | .transfer | .transferCreate => ascii ".TRANSFER"
  | .crossChain => ascii ".TRANSFER_XCHAIN"

theorem flatten_grantName (t : Template) :
    t.grantName.flatten = t.contract.flatten ++ t.grantSuffix := by
  unfold grantName grantSuffix
  rw [List.flatten_append, List.flatten_append, List.append_assoc]
  cases t.kind <;> rfl

theorem flatten_grantName_of_isCoin {t : Template} (h : t.isCoin) :
    t.grantName.flatten = ascii "coin" ++ t.grantSuffix := by
  unfold isCoin at h
  rw [flatten_grantName, contract, if_pos h]
  rfl

theorem flatten_grantName_ne {t : Template} (h : t.isCoin = false) {name : Bytes}
    (hname : name.count 46 = 1) : t.grantName.flatten ≠ name := by
  have hsuffix : t.grantSuffix.count 46 = 1 := by
    unfold grantSuffix
    cases t.kind <;> decide
  have hdot : (ascii ".").count 46 = 1 := by decide
  intro heq
  rw [flatten_grantName, contract, if_neg (by simpa [isCoin] using h)] at heq
  -- One dot stands between the parts of the module's name, the other one in front of the suffix.
  have hcount := congrArg (List.count 46) heq
  simp only [List.flatten_cons, List.flatten_nil, List.append_nil, List.count_append] at hcount
  omega

section Items

variable {t : Template} {doc : Document} {address : Bytes}
  (h : doc.Holds Document.root (t.value address))

include h

theorem exists_networkItems : ∃ j, doc.networkItems = [{ kind := .network, token := j }] ∧
    doc.Holds j (.string t.network) := by
  obtain ⟨j, hpresent, hnetwork⟩ := h.exists_present? (ascii "networkId") rfl nofun
  rw [Document.networkItems, hpresent]
  exact ⟨j, rfl, hnetwork⟩

theorem exists_firstSigner? :
    ∃ j, doc.firstSigner? = some j ∧ doc.Holds j (t.signerValue address) := by
  obtain ⟨signers, hpresent, hsigners⟩ := h.exists_present? (ascii "signers") rfl nofun
  obtain ⟨j, helement, hsigner⟩ := hsigners.arrayElement? 0 rfl
  rw [Document.firstSigner?, hpresent]
  exact ⟨j, helement, hsigner⟩

theorem exists_signerKey? : ∃ j, doc.signerKey? = some j ∧ doc.Holds j (.string address) := by
  obtain ⟨signer, hfirst, hsigner⟩ := exists_firstSigner? h
  obtain ⟨j, hpresent, hkey⟩ := hsigner.exists_present? (ascii "pubKey") rfl nofun
  rw [Document.signerKey?, hfirst]
  exact ⟨j, hpresent, hkey⟩

theorem exists_capabilityList? :
    ∃ clist transfer gas, doc.capabilityList? = some clist ∧
      doc.children clist = [transfer, gas] ∧ transfer ≠ gas ∧
      doc.Holds transfer (t.grantValue address) ∧ doc.Holds gas gasValue := by
  obtain ⟨signer, hfirst, hsigner⟩ := exists_firstSigner? h
  obtain ⟨clist, hpresent, hclist⟩ := hsigner.exists_present? (ascii "clist") rfl nofun
  have helements := hclist.elements
  have hdistinct := doc.children_nodup clist
  rw [Document.capabilityList?, hfirst, Option.bind_some, hpresent, Option.filter_some,
    hclist.isArray]
  generalize hfound : doc.children clist = found at helements hdistinct
  cases helements with
  | cons hgrant hrest =>
    cases hrest with
    | cons hgas hnone =>
      cases hnone
      refine ⟨clist, _, _, rfl, hfound, ?_, hgrant, hgas⟩
      simpa using hdistinct

theorem exists_metaItems :
    ∃ info chain, doc.metaItems =
        [{ kind := .chain, token := chain }, { kind := .gas, token := info }] ∧
      doc.Holds chain (.string t.chain) ∧ doc.Holds info (.object (t.metaMembers address)) := by
  obtain ⟨info, hpresent, hinfo⟩ := h.exists_present? (ascii "meta") rfl nofun
  obtain ⟨chain, hchainId, hchain⟩ := hinfo.exists_present? (ascii "chainId") rfl nofun
  have hkeys : doc.hasKeys info metaKeys := hinfo.hasKeys
  rw [Document.metaItems, hpresent, Option.filter_some, hkeys]
  refine ⟨info, chain, ?_, hchain, hinfo⟩
  rw [if_pos rfl]
  dsimp only
  rw [Document.chainItems, hchainId]
  rfl

end Items

def grantKind (t : Template) : Item.Kind :=
  if t.isCoin then
    match t.kind with
    | .transfer | .transferCreate => .transfer 1
    | .crossChain => .crossTransfer 1
  else .unknownCapability 1

theorem length_grantArgValues (t : Template) (address : Bytes) :
    (t.grantArgValues address).length = if t.kind = .crossChain then 4 else 3 := by
  unfold grantArgValues
  cases t.kind <;> rfl

theorem length_text_grantArgValues {t : Template} {address : Bytes} (h : t.Bounded)
    (haddress : address.length = 64) :
    (Value.array (t.grantArgValues address)).text.length ≤ Limit.shownSpan := by
  have hrecipient := h.recipient
  have hrecipientChain := h.recipientChain
  have hamount := h.amount
  have hlimit : Limit.shownSpan = 256 := rfl
  have haccount : (ascii "k:").length = 2 := rfl
  unfold grantArgValues account
  cases t.kind
  all_goals
    simp only [Value.text, Json.elementsText, Json.quoted, List.cons_append, List.nil_append,
      List.append_nil, List.tail_cons, List.length_append, List.length_cons, List.length_nil]
    linarith

section Capability

variable {t : Template} {doc : Document} {address : Bytes} {transfer gas : Nat}
  (hgrant : doc.Holds transfer (t.grantValue address))

include hgrant

theorem isNamed_grantValue (name : Bytes) (hname : name.count 46 = 1) :
    doc.isNamed transfer name = (t.isCoin && ascii "coin" ++ t.grantSuffix == name) := by
  rw [hgrant.isNamed]
  cases hcoin : t.isCoin with
  | true => rw [flatten_grantName_of_isCoin hcoin, Bool.true_and]
  | false => simpa using flatten_grantName_ne hcoin hname

theorem grant_grantValue (hgas : transfer ≠ gas) :
    doc.grant (some gas) transfer =
      if t.isCoin then
        if t.kind = .crossChain then .crossTransfer else .transfer
      else .unknown := by
  have hother : (some gas == some transfer) = false := by simpa using hgas.symm
  have htransfer := isNamed_grantValue hgrant Capability.transfer (by decide)
  have hcrossTransfer := isNamed_grantValue hgrant Capability.crossTransfer (by decide)
  have hrotate := isNamed_grantValue hgrant Capability.rotate (by decide)
  have hargs := hgrant.hasArgs
  rw [Document.grant, hother, htransfer, hcrossTransfer, hrotate, hargs, hargs, hargs, hargs,
    length_grantArgValues, grantSuffix]
  cases t.isCoin
  · rfl
  · cases t.kind <;> rfl

theorem items_enter_grantValue (hbounded : t.Bounded) (haddress : address.length = 64)
    (hgas : transfer ≠ gas) (before : List Item) :
    (ItemList.enter doc (some gas) { items := before } transfer).items =
      before ++ [{ kind := t.grantKind, token := transfer }] := by
  have hshown : doc.showsArgs transfer := by
    apply hgrant.showsArgs
    · rw [length_grantArgValues]
      split <;> decide
    · exact length_text_grantArgValues hbounded haddress
  rw [ItemList.enter, grant_grantValue hgrant hgas, grantKind]
  cases t.isCoin
  · rw [if_neg Bool.false_ne_true, if_neg Bool.false_ne_true, hshown]
  · cases t.kind <;> rfl

theorem isTransfer_grantValue : doc.isTransfer transfer = t.isCoin := by
  rw [Document.isTransfer, isNamed_grantValue hgrant Capability.transfer (by decide),
    isNamed_grantValue hgrant Capability.crossTransfer (by decide), grantSuffix]
  cases t.isCoin
  · rfl
  · cases t.kind <;> rfl

theorem namesAccount_grantValue : doc.namesAccount address transfer := by
  obtain ⟨args, hpresent, hargs⟩ := hgrant.args?
  have helements := hargs.elements
  rw [Document.namesAccount, hpresent, Option.elim_some]
  generalize doc.children args = found at helements
  rw [grantArgValues] at helements
  cases helements with
  | cons hsender hrest =>
    have haccount : Document.accountKey (account address) = address := by
      simp [Document.accountKey, account, ascii]
    simp [Document.isAccountOf, hsender.isString, hsender.text_string, haccount]

end Capability

section Gas

variable {doc : Document} {gas : Nat} (hgas : doc.Holds gas gasValue)

include hgas

theorem isNamed_gasValue (name : Bytes) : doc.isNamed gas name = (ascii "coin.GAS" == name) :=
  hgas.isNamed name

theorem isTransfer_gasValue : doc.isTransfer gas = false := by
  rw [Document.isTransfer, isNamed_gasValue hgas, isNamed_gasValue hgas]
  decide

theorem grant_gasValue : doc.grant (some gas) gas = .payingGas := by
  have hargs : doc.hasArgs gas 0 := hgas.hasArgs 0
  rw [Document.grant, hargs]
  simp

end Gas

section Items

variable {t : Template} {doc : Document} {address : Bytes}
  (h : doc.Holds Document.root (t.value address))

include h

theorem exists_signerItems : ∃ key, doc.signerItems = [{ kind := .signerKey, token := key }] ∧
    doc.Holds key (.string address) := by
  obtain ⟨key, hsigner, hkey⟩ := exists_signerKey? h
  obtain ⟨clist, transfer, gas, hclist, hchildren, -, hgrant, hgas⟩ := exists_capabilityList? h
  -- A transfer of coins names the account of the key. Of any other module nothing is asked.
  have hbinds : doc.bindsKey key := by
    rw [Document.bindsKey, hclist, hkey.text_string]
    dsimp only
    rw [hchildren]
    simp only [List.any_cons, List.any_nil, isTransfer_grantValue hgrant,
      isTransfer_gasValue hgas, namesAccount_grantValue hgrant]
    cases t.isCoin <;> rfl
  refine ⟨key, ?_, hkey⟩
  rw [Document.signerItems, hsigner]
  dsimp only
  rw [if_pos hbinds]
  rfl

theorem exists_capabilityItems (hbounded : t.Bounded) (haddress : address.length = 64) :
    ∃ transfer gas, ItemList.capabilityItems doc =
        [{ kind := .payingGas, token := gas }, { kind := t.grantKind, token := transfer }] ∧
      doc.Holds transfer (t.grantValue address) := by
  obtain ⟨clist, transfer, gas, hclist, hchildren, hdistinct, hgrant, hgas⟩ :=
    exists_capabilityList? h
  have hother : doc.isNamed transfer Capability.gas = false := by
    rw [isNamed_grantValue hgrant Capability.gas (by decide), grantSuffix]
    cases t.isCoin
    · rfl
    · cases t.kind <;> rfl
  have hnamed : doc.isNamed gas Capability.gas = true := isNamed_gasValue hgas Capability.gas
  have hfirst : [transfer, gas].find? (doc.isNamed · Capability.gas) = some gas := by
    simp [hother, hnamed]
  -- The capability for gas is second in the list but shown first.
  have horder : ItemList.shownOrder doc [transfer, gas] = [gas, transfer] := by
    rw [ItemList.shownOrder, hfirst]
    simp [hdistinct.symm]
  refine ⟨transfer, gas, ?_, hgrant⟩
  rw [ItemList.capabilityItems, ItemList.grantAll, hclist]
  dsimp only
  rw [hchildren, hfirst, horder, List.foldl_cons, List.foldl_cons, List.foldl_nil]
  have henter : ItemList.enter doc (some gas) {} gas =
      { items := [{ kind := .payingGas, token := gas }] } := by
    rw [ItemList.enter, grant_gasValue hgas]
    rfl
  rw [henter, items_enter_grantValue hgrant hbounded haddress hdistinct]
  rfl

theorem exists_items_schedule (hbounded : t.Bounded) (haddress : address.length = 64)
    (device : Device) :
    ∃ network key gas transfer chain info,
      (ItemList.schedule device doc).items =
        [{ kind := .signing }, { kind := .network, token := network }, { kind := .requiring },
         { kind := .signerKey, token := key }, { kind := .payingGas, token := gas },
         { kind := t.grantKind, token := transfer }, { kind := .chain, token := chain },
         { kind := .gas, token := info }, { kind := .hash }] ++ ItemList.addressItems device ∧
      doc.Holds network (.string t.network) ∧ doc.Holds key (.string address) ∧
      doc.Holds transfer (t.grantValue address) ∧ doc.Holds chain (.string t.chain) ∧
      doc.Holds info (.object (t.metaMembers address)) := by
  obtain ⟨network, hnetworkItems, hnetwork⟩ := exists_networkItems h
  obtain ⟨key, hsignerItems, hkey⟩ := exists_signerItems h
  obtain ⟨transfer, gas, hcapabilityItems, hgrant⟩ := exists_capabilityItems h hbounded haddress
  obtain ⟨info, chain, hmetaItems, hchain, hinfo⟩ := exists_metaItems h
  refine ⟨network, key, gas, transfer, chain, info, ?_, hnetwork, hkey, hgrant, hchain, hinfo⟩
  rw [ItemList.schedule, ItemList.extend, ItemList.items_contentSchedule, ItemList.openingItems,
    hnetworkItems, hsignerItems, hcapabilityItems, hmetaItems]
  rfl

end Items

end Template

end ClearSign
