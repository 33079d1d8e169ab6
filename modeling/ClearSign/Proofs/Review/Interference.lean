import ClearSign.Proofs.Review.Capacity
import ClearSign.Proofs.Review.Sharing
import ClearSign.Review.Render

/-!
This module contains the proof that a review depends on nothing of a transaction but its network,
its signers and its `meta`: two transactions that differ elsewhere get the same review, the hash
apart.
-/

namespace ClearSign

namespace ReviewData

open Writer

variable {r r' : ReviewData} {item item' : Item} {base base' i i' : Nat}

theorem arg_eq (h : r.doc.Shared r'.doc base base' i i') (n : Nat) : r.arg i n = r'.arg i' n := by
  have harg := rel_bind h.args?_rel fun args args' hargs => hargs.arrayElement?_rel n
  unfold arg
  generalize ((r.doc.args? i).bind fun args => r.doc.arrayElement? args n) = found at harg ⊢
  generalize ((r'.doc.args? i').bind fun args => r'.doc.arrayElement? args n) = found' at harg ⊢
  cases harg with
  | none => rfl
  | some hvalue => exact hvalue.text_eq

theorem field_bind_eq {f g : Nat → Writer Unit} (h : r.doc.Shared r'.doc base base' i i')
    (key : Bytes)
    (hfg : ∀ value value', r.doc.Shared r'.doc base base' value value' → f value = g value') :
    (do f (← r.field i key) : Writer Unit) = (do g (← r'.field i' key)) := by
  have hfield := h.field?_rel key
  unfold field
  generalize r.doc.field? i key = found at hfield ⊢
  generalize r'.doc.field? i' key = found' at hfield ⊢
  cases hfield with
  | none => rfl
  | some hvalue => exact hfg _ _ hvalue

theorem plain_eq (h : r.doc.Shared r'.doc base base' item.token item'.token) :
    r.plain item = r'.plain item' := by
  rw [plain, plain, h.text_eq]

theorem transfer_eq (h : r.doc.Shared r'.doc base base' item.token item'.token) :
    r.transfer item = r'.transfer item' := by
  rw [transfer, transfer, arg_eq h, arg_eq h, arg_eq h]

theorem crossTransfer_eq (h : r.doc.Shared r'.doc base base' item.token item'.token) :
    r.crossTransfer item = r'.crossTransfer item' := by
  rw [crossTransfer, crossTransfer, transfer_eq h, arg_eq h]

theorem rotate_eq (h : r.doc.Shared r'.doc base base' item.token item'.token) :
    r.rotate item = r'.rotate item' := by
  rw [rotate, rotate, arg_eq h]

theorem gas_eq (h : r.doc.Shared r'.doc base base' item.token item'.token) :
    r.gas item = r'.gas item' := by
  apply field_bind_eq h
  intro limit limit' hlimit
  apply field_bind_eq h
  intro price price' hprice
  rw [hlimit.text_eq, hprice.text_eq]

theorem numberedArgs_eq {args args' : List Nat}
    (h : List.Forall₂ (r.doc.Shared r'.doc base base') args args') (n : Nat) :
    r.numberedArgs n args = r'.numberedArgs n args' := by
  induction h generalizing n with
  | nil => rfl
  | cons harg hargs ih => rw [numberedArgs, numberedArgs, harg.text_eq, harg.isString_eq, ih]

theorem unknownCapability_eq (h : r.doc.Shared r'.doc base base' item.token item'.token)
    (hshown : item.shown = item'.shown) : r.unknownCapability item = r'.unknownCapability item' := by
  apply field_bind_eq h
  intro name name' hname
  rw [hname.text_eq, hshown]
  have hargs := h.argList_rel
  generalize (r.doc.args? item.token).elim [] r.doc.children = args at hargs ⊢
  generalize (r'.doc.args? item'.token).elim [] r'.doc.children = args' at hargs ⊢
  cases hargs with
  | nil => rfl
  | cons harg hrest =>
    dsimp only
    rw [numberedArgs_eq (.cons harg hrest)]

theorem value_eq (h : r.doc.Shared r'.doc base base' item.token item'.token)
    (hkind : item.kind = item'.kind) (hshown : item.shown = item'.shown)
    (hhash : item.kind ≠ .hash) (haddress : r.address = r'.address) :
    r.value item = r'.value item' := by
  unfold value
  rw [← hkind]
  cases hitem : item.kind with
  | network | signerKey | unscopedSigner | chain => exact plain_eq h
  | transfer => exact transfer_eq h
  | crossTransfer => exact crossTransfer_eq h
  | rotate => exact rotate_eq h
  | gas => exact gas_eq h
  | unknownCapability => exact unknownCapability_eq h hshown
  | hash => contradiction
  | signForAddress => exact congrArg put haddress
  | signing | requiring | payingGas | unrestricted | caution | tooLarge => rfl

end ReviewData

open Json (Document)

structure Item.Mirrors (doc doc' : Document) (item item' : Item) : Prop where
  kind : item.kind = item'.kind
  shown : item.shown = item'.shown
  render : item.kind ≠ .hash → ∀ (hash hash' : RequestHash) (address out : Bytes),
    (⟨doc, hash, address⟩ : ReviewData).render item out =
      (⟨doc', hash', address⟩ : ReviewData).render item' out

namespace Item

theorem mirrors_of_shared {doc doc' : Document} {base base' i i' : Nat}
    (h : doc.Shared doc' base base' i i') (kind : Item.Kind) (shown : Bool) :
    List.Forall₂ (Mirrors doc doc') [⟨kind, i, shown⟩] [⟨kind, i', shown⟩] := by
  apply List.Forall₂.cons _ .nil
  refine ⟨rfl, rfl, ?_⟩
  intro hhash hash hash' address out
  apply congrArg (Writer.writeInto · out)
  exact ReviewData.value_eq h rfl rfl hhash rfl

theorem mirrors_self {item : Item} (doc doc' : Document)
    (h : item.kind ∈ [.signing, .requiring, .unrestricted, .caution, .tooLarge, .hash,
      .signForAddress]) : List.Forall₂ (Mirrors doc doc') [item] [item] := by
  apply List.Forall₂.cons _ .nil
  refine ⟨rfl, rfl, ?_⟩
  intro hhash hash hash' address out
  unfold ReviewData.render ReviewData.value
  cases hkind : item.kind with
  | signing | requiring | unrestricted | caution | tooLarge | signForAddress => rfl
  | hash => contradiction
  | _ => simp [hkind] at h

end Item

def reviewedKeys : List Bytes :=
  [ascii "networkId", ascii "signers", ascii "meta"]

namespace Json.Document

variable {doc doc' : Document} {base base' : Nat}

def SharesFields (doc doc' : Document) : Prop :=
  ∀ key ∈ reviewedKeys,
    Option.Rel (fun i i' => doc.Shared doc' i i' i i') (doc.present? root key)
      (doc'.present? root key)

theorem exists_firstSigner?_rel (h : doc.SharesFields doc') :
    ∃ base base', Option.Rel (doc.Shared doc' base base') doc.firstSigner? doc'.firstSigner? := by
  have hsigners := h (ascii "signers") (by decide)
  unfold firstSigner?
  generalize doc.present? root (ascii "signers") = signers at hsigners ⊢
  generalize doc'.present? root (ascii "signers") = signers' at hsigners ⊢
  cases hsigners with
  | none => exact ⟨0, 0, .none⟩
  | some h => exact ⟨_, _, h.arrayElement?_rel 0⟩

theorem signerKey?_rel
    (h : Option.Rel (doc.Shared doc' base base') doc.firstSigner? doc'.firstSigner?) :
    Option.Rel (doc.Shared doc' base base') doc.signerKey? doc'.signerKey? := by
  apply rel_bind h
  intro signer signer' hsigner
  exact hsigner.present?_rel _

theorem capabilityList?_rel
    (h : Option.Rel (doc.Shared doc' base base') doc.firstSigner? doc'.firstSigner?) :
    Option.Rel (doc.Shared doc' base base') doc.capabilityList? doc'.capabilityList? := by
  apply rel_filter
  · apply rel_bind h
    intro signer signer' hsigner
    exact hsigner.present?_rel _
  · intro list list' hlist
    exact hlist.isArray_eq

theorem bindsKey_eq (hkey : doc.Shared doc' base base' key key')
    (hlist : Option.Rel (doc.Shared doc' base base') doc.capabilityList? doc'.capabilityList?) :
    doc.bindsKey key = doc'.bindsKey key' := by
  unfold bindsKey
  rw [hkey.text_eq]
  generalize doc.capabilityList? = list at hlist ⊢
  generalize doc'.capabilityList? = list' at hlist ⊢
  cases hlist with
  | none => rfl
  | some hlist =>
    cases doc'.text key' with
    | error fault => rfl
    | ok text =>
      dsimp only
      rw [any_eq_of_forall₂ hlist.children_rel fun c c' hc => hc.isTransfer_eq]
      congr 1
      apply any_eq_of_forall₂ hlist.children_rel
      intro c c' hc
      rw [hc.isTransfer_eq, hc.namesAccount_eq]

theorem networkItems_mirrors (h : doc.SharesFields doc') :
    List.Forall₂ (Item.Mirrors doc doc') doc.networkItems doc'.networkItems := by
  have hnetwork := h (ascii "networkId") (by decide)
  unfold networkItems
  generalize doc.present? root (ascii "networkId") = network at hnetwork ⊢
  generalize doc'.present? root (ascii "networkId") = network' at hnetwork ⊢
  cases hnetwork with
  | none => exact .nil
  | some h => exact Item.mirrors_of_shared h _ _

theorem signerItems_mirrors (h : doc.SharesFields doc') :
    List.Forall₂ (Item.Mirrors doc doc') doc.signerItems doc'.signerItems := by
  obtain ⟨base, base', hsigner⟩ := exists_firstSigner?_rel h
  have hlist := capabilityList?_rel hsigner
  have hkey := signerKey?_rel hsigner
  unfold signerItems
  generalize doc.signerKey? = key at hkey ⊢
  generalize doc'.signerKey? = key' at hkey ⊢
  cases hkey with
  | none => exact .nil
  | some hkey =>
    dsimp only
    rw [bindsKey_eq hkey hlist]
    apply List.rel_append
    · exact Item.mirrors_of_shared hkey _ _
    · split
      · exact .nil
      · exact Item.mirrors_of_shared hkey _ _

theorem chainItems_mirrors (h : doc.Shared doc' base base' info info') :
    List.Forall₂ (Item.Mirrors doc doc') (doc.chainItems info) (doc'.chainItems info') := by
  have hchain := h.present?_rel (ascii "chainId")
  unfold chainItems
  generalize doc.present? info (ascii "chainId") = chain at hchain ⊢
  generalize doc'.present? info' (ascii "chainId") = chain' at hchain ⊢
  cases hchain with
  | none => exact .nil
  | some h => exact Item.mirrors_of_shared h _ _

theorem metaItems_mirrors (h : doc.SharesFields doc') :
    List.Forall₂ (Item.Mirrors doc doc') doc.metaItems doc'.metaItems := by
  have hinfo := rel_filter (h (ascii "meta") (by decide)) fun info info' hinfo =>
    hinfo.hasKeys_eq metaKeys
  unfold metaItems
  generalize (doc.present? root (ascii "meta")).filter (doc.hasKeys · metaKeys) = info
    at hinfo ⊢
  generalize (doc'.present? root (ascii "meta")).filter (doc'.hasKeys · metaKeys) = info'
    at hinfo ⊢
  cases hinfo with
  | none => exact Item.mirrors_self doc doc' (by decide)
  | some hinfo =>
    apply List.rel_append (chainItems_mirrors hinfo)
    exact Item.mirrors_of_shared hinfo _ _

end Json.Document

namespace ItemList

variable {doc doc' : Document} {base base' : Nat} {list list' : ItemList}

structure Mirrors (doc doc' : Document) (list list' : ItemList) : Prop where
  items : List.Forall₂ (Item.Mirrors doc doc') list.items list'.items
  transfers : list.transfers = list'.transfers
  unknowns : list.unknowns = list'.unknowns

theorem Mirrors.extend {items items' : List Item} (h : list.Mirrors doc doc' list')
    (hitems : List.Forall₂ (Item.Mirrors doc doc') items items') :
    Mirrors doc doc' (list.extend items) (list'.extend items') :=
  ⟨List.rel_append h.items hitems, h.transfers, h.unknowns⟩

theorem grant_eq {gas gas' : Option Nat}
    (hgas : Option.Rel (doc.Shared doc' base base') gas gas')
    (h : doc.Shared doc' base base' capability capability') :
    doc.grant gas capability = doc'.grant gas' capability' := by
  have hsame : (gas == some capability) = (gas' == some capability') := by
    cases hgas with
    | none => rfl
    | some hgas =>
      rw [Bool.eq_iff_iff]
      simpa using hgas.eq_iff h
  simp only [Document.grant, hsame, h.isNamed_eq, h.hasArgs_eq]

theorem mirrors_enter {gas gas' : Option Nat} (hlist : list.Mirrors doc doc' list')
    (hgas : Option.Rel (doc.Shared doc' base base') gas gas')
    (h : doc.Shared doc' base base' capability capability') :
    Mirrors doc doc' (list.enter doc gas capability) (list'.enter doc' gas' capability') := by
  have hone : ∀ kind shown, List.Forall₂ (Item.Mirrors doc doc')
      (list.items ++ [⟨kind, capability, shown⟩]) (list'.items ++ [⟨kind, capability', shown⟩]) := by
    intro kind shown
    apply List.rel_append hlist.items
    exact Item.mirrors_of_shared h kind shown
  unfold enter
  rw [grant_eq hgas h, h.showsArgs_eq, hlist.transfers, hlist.unknowns]
  cases doc'.grant gas' capability' with
  | payingGas => exact ⟨hone _ _, rfl, rfl⟩
  | transfer => exact ⟨hone _ _, rfl, rfl⟩
  | crossTransfer => exact ⟨hone _ _, rfl, rfl⟩
  | rotate => exact ⟨hone _ _, rfl, rfl⟩
  | unknown => exact ⟨hone _ _, rfl, rfl⟩

theorem mirrors_foldl_enter {gas gas' : Option Nat} {capabilities capabilities' : List Nat}
    (hlist : list.Mirrors doc doc' list')
    (hgas : Option.Rel (doc.Shared doc' base base') gas gas')
    (h : List.Forall₂ (doc.Shared doc' base base') capabilities capabilities') :
    Mirrors doc doc' (capabilities.foldl (enter doc gas) list)
      (capabilities'.foldl (enter doc' gas') list') := by
  induction h generalizing list list' with
  | nil => exact hlist
  | cons h hrest ih => exact ih (mirrors_enter hlist hgas h)

theorem payingGas_rel {capabilities capabilities' : List Nat}
    (h : List.Forall₂ (doc.Shared doc' base base') capabilities capabilities') :
    Option.Rel (doc.Shared doc' base base')
      (capabilities.find? (doc.isNamed · Capability.gas))
      (capabilities'.find? (doc'.isNamed · Capability.gas)) := by
  have hfind := rel_find? h fun c c' hc => hc.isNamed_eq Capability.gas
  have hmap := rel_map hfind fun c c' hc => hc.1
  rwa [Option.map_id', Option.map_id'] at hmap

theorem shownOrder_rel {capabilities capabilities' : List Nat}
    (h : List.Forall₂ (doc.Shared doc' base base') capabilities capabilities') :
    List.Forall₂ (doc.Shared doc' base base') (shownOrder doc capabilities)
      (shownOrder doc' capabilities') := by
  have hgas := payingGas_rel h
  unfold shownOrder
  generalize capabilities.find? (doc.isNamed · Capability.gas) = gas at hgas ⊢
  generalize capabilities'.find? (doc'.isNamed · Capability.gas) = gas' at hgas ⊢
  apply List.rel_append
  · cases hgas with
    | none => exact .nil
    | some hgas => exact .cons hgas .nil
  · apply List.rel_filter _ h
    intro c c' hc
    cases hgas with
    | none => simp
    | some hgas => simp [hgas.eq_iff hc]

theorem mirrors_grantAll (hlist : list.Mirrors doc doc' list') (h : doc.SharesFields doc') :
    Mirrors doc doc' (list.grantAll doc) (list'.grantAll doc') := by
  obtain ⟨base, base', hsigner⟩ := Document.exists_firstSigner?_rel h
  have hgranted := Document.capabilityList?_rel hsigner
  unfold grantAll
  generalize doc.capabilityList? = granted at hgranted ⊢
  generalize doc'.capabilityList? = granted' at hgranted ⊢
  cases hgranted with
  | none =>
    apply hlist.extend
    exact Item.mirrors_self doc doc' (by decide)
  | some hgranted =>
    exact mirrors_foldl_enter hlist (payingGas_rel hgranted.children_rel)
      (shownOrder_rel hgranted.children_rel)

theorem mirrors_contentSchedule (h : doc.SharesFields doc') :
    Mirrors doc doc' (contentSchedule doc) (contentSchedule doc') := by
  have hempty : Mirrors doc doc' {} {} := ⟨.nil, rfl, rfl⟩
  have hopening : List.Forall₂ (Item.Mirrors doc doc') (openingItems doc) (openingItems doc') := by
    apply List.rel_append _ (Document.signerItems_mirrors h)
    apply List.rel_append _ (Item.mirrors_self doc doc' (by decide))
    apply List.rel_append _ (Document.networkItems_mirrors h)
    apply Item.mirrors_self doc doc' (by decide)
  apply Mirrors.extend _ (Document.metaItems_mirrors h)
  exact mirrors_grantAll (hempty.extend hopening) h

theorem tooLargeItems_mirrors {items items' : List Item}
    (h : List.Forall₂ (Item.Mirrors doc doc') items items') :
    List.Forall₂ (Item.Mirrors doc doc') (tooLargeItems items) (tooLargeItems items') := by
  have hall : items.all Item.shown = items'.all Item.shown := by
    induction h with
    | nil => rfl
    | cons h hrest ih => rw [List.all_cons, List.all_cons, h.shown, ih]
  unfold tooLargeItems
  rw [hall]
  split
  · exact .nil
  · exact Item.mirrors_self doc doc' (by decide)

theorem mirrors_schedule (device : Device) (h : doc.SharesFields doc') :
    Mirrors doc doc' (schedule device doc) (schedule device doc') := by
  have hcontent := mirrors_contentSchedule h
  have haddress : List.Forall₂ (Item.Mirrors doc doc') (addressItems device)
      (addressItems device) := by
    unfold addressItems
    split
    · exact Item.mirrors_self doc doc' (by decide)
    · exact .nil
  apply hcontent.extend
  apply List.rel_append _ haddress
  apply List.rel_append (tooLargeItems_mirrors hcontent.items)
  exact Item.mirrors_self doc doc' (by decide)

theorem build_mirrors (device : Device) (hread : doc.Readable) (hread' : doc'.Readable)
    (h : doc.SharesFields doc') (list list' : ItemList) :
    ((build device doc).perform list).1 = ((build device doc').perform list').1 ∧
      List.Forall₂ (Item.Mirrors doc doc') ((build device doc).perform list).2.items
        ((build device doc').perform list').2.items := by
  have hitems := (mirrors_schedule device h).items
  have hlength := hitems.length_eq
  rw [perform_build device doc list, perform_build device doc' list']
  rcases (fills_build device doc).outcome (Nat.zero_le _) with
    ⟨hfits, hdone⟩ | ⟨hfull, stopped, hstopped, hcut⟩ | ⟨hunread, -⟩
  · rcases (fills_build device doc').outcome (Nat.zero_le _) with
      ⟨-, hdone'⟩ | ⟨hfull', -⟩ | ⟨hunread', -⟩
    · rw [hdone, hdone']
      exact ⟨rfl, hitems⟩
    · omega
    · contradiction
  · rcases (fills_build device doc').outcome (Nat.zero_le _) with
      ⟨hfits', -⟩ | ⟨-, stopped', hstopped', hcut'⟩ | ⟨hunread', -⟩
    · omega
    · rw [hstopped, hstopped']
      refine ⟨rfl, ?_⟩
      dsimp only
      rw [hcut, hcut']
      exact List.forall₂_take _ hitems
    · contradiction
  · contradiction

end ItemList

namespace Json.Document

variable {doc doc' : Document}

/--
The outermost objects have the same keys in the same order, and each field that a review shows is
written in the same way. All other fields are arbitrary.
-/
def AgreesOnReview (doc doc' : Document) : Prop :=
  List.Forall₂
    (fun member member' => doc.written member.1 = doc'.written member'.1 ∧
      ((∃ key ∈ reviewedKeys, doc.isStringOf member.1 key) →
        doc.written member.2 = doc'.written member'.2))
    (doc.members root) (doc'.members root)

instance (doc doc' : Document) : Decidable (doc.AgreesOnReview doc') :=
  inferInstanceAs (Decidable (List.Forall₂ _ _ _))

theorem sharesFields_of_agreesOnReview (htokens : tokenize doc.source = .ok doc.tokens)
    (htokens' : tokenize doc'.source = .ok doc'.tokens) (hobject : doc.isObject root)
    (hobject' : doc'.isObject root) (h : doc.AgreesOnReview doc') : doc.SharesFields doc' := by
  have hrange : ∀ member ∈ doc.members root,
      member.1 < doc.tokens.length ∧ member.2 < doc.tokens.length := by
    intro member hmember
    obtain ⟨hkey, hvalue⟩ := mem_of_mem_pairs hmember
    exact ⟨(lt_of_mem_children hkey).2, (lt_of_mem_children hvalue).2⟩
  intro key hkey
  have hfield : Option.Rel (fun i i' => doc.Shared doc' i i' i i') (doc.field? root key)
      (doc'.field? root key) := by
    unfold field?
    rw [if_pos hobject, if_pos hobject']
    apply rel_map (rel_find? ((List.forall₂_and_left _ _).2 ⟨hrange, h⟩) _)
    · rintro member member' ⟨⟨⟨-, hlt⟩, -, hvalue⟩, hnamed⟩
      exact shared_of_written htokens htokens' hlt (hvalue ⟨key, hkey, hnamed⟩)
    · rintro member member' ⟨⟨hlt, -⟩, hname, -⟩
      exact (shared_of_written htokens htokens' hlt hname).isStringOf_eq key
  apply rel_filter hfield
  intro value value' hvalue
  rw [hvalue.isNull_eq]

end Json.Document

namespace ItemList

theorem payload_cannot_influence_review (device : Device) {doc doc' : Document}
    (htokens : Json.tokenize doc.source = .ok doc.tokens)
    (htokens' : Json.tokenize doc'.source = .ok doc'.tokens)
    (hobject : doc.isObject Document.root) (hobject' : doc'.isObject Document.root)
    (hagree : doc.AgreesOnReview doc') (list list' : ItemList) :
    ((build device doc).perform list).1 = ((build device doc').perform list').1 ∧
      List.Forall₂ (Item.Mirrors doc doc') ((build device doc).perform list).2.items
        ((build device doc').perform list').2.items := by
  apply build_mirrors device (Json.readable_of_tokenize htokens)
    (Json.readable_of_tokenize htokens')
  exact Document.sharesFields_of_agreesOnReview htokens htokens' hobject hobject' hagree

theorem payload_cannot_influence_review_decoys :
    let shown := ascii "\"networkId\":\"main\"," ++
      ascii "\"signers\":[\x7b\"pubKey\":\"ab\",\"clist\":[1]\x7d],\"meta\":1"
    let decoys := ascii "\x7b\"networkId\":\"test\",\"signers\":[],\"meta\":\x7b\x7d\x7d"
    let source (payload : Bytes) :=
      ascii "\x7b\"payload\":" ++ payload ++ ascii "," ++ shown ++ ascii "\x7d"
    let doc (payload : Bytes) : Document :=
      ⟨source payload, (Json.tokenize (source payload)).toOption.getD []⟩
    let first := doc (ascii "7")
    let second := doc decoys
    first.tokens.length < second.tokens.length ∧
      ((build .standard first).perform {}).2.items.map Item.kind =
        [.signing, .network, .requiring, .signerKey, .unknownCapability 1, .caution, .hash,
          .signForAddress] ∧
      ((build .standard first).perform {}).1 = ((build .standard second).perform {}).1 ∧
      List.Forall₂ (Item.Mirrors first second) ((build .standard first).perform {}).2.items
        ((build .standard second).perform {}).2.items := by
  intro shown decoys source doc first second
  refine ⟨by decide +kernel, by decide +kernel, ?_⟩
  apply payload_cannot_influence_review .standard
  · decide +kernel
  · decide +kernel
  · decide +kernel
  · decide +kernel
  · decide +kernel

end ItemList

end ClearSign
