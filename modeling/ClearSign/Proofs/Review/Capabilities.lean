import ClearSign.Proofs.Json.Navigation
import ClearSign.Proofs.Review.Schedule

/-!
This module contains the proof that every capability of the first signer is shown once and as what
it is, and that nothing else is shown as a capability.
-/

namespace ClearSign

open Json (Document)

def Grant.Fits (doc : Document) (gas : Option Nat) (capability : Nat) : Grant → Prop
  | .payingGas => gas = some capability ∧ doc.hasArgs capability 0
  | .transfer => doc.isNamed capability Capability.transfer ∧ doc.hasArgs capability 3
  | .crossTransfer => doc.isNamed capability Capability.crossTransfer ∧ doc.hasArgs capability 4
  | .rotate => doc.isNamed capability Capability.rotate ∧ doc.hasArgs capability 1
  | .unknown =>
    ¬(gas = some capability ∧ doc.hasArgs capability 0) ∧
      ¬(doc.isNamed capability Capability.transfer ∧ doc.hasArgs capability 3) ∧
      ¬(doc.isNamed capability Capability.crossTransfer ∧ doc.hasArgs capability 4) ∧
      ¬(doc.isNamed capability Capability.rotate ∧ doc.hasArgs capability 1)

theorem Grant.fits_grant (doc : Document) (gas : Option Nat) (capability : Nat) :
    (doc.grant gas capability).Fits doc gas capability := by
  unfold Document.grant
  simp only [Bool.and_eq_true, beq_iff_eq]
  split
  · next h => exact h
  · next hgas =>
    split
    · next h => exact h
    · next htransfer =>
      split
      · next h => exact h
      · next hcrossTransfer =>
        split
        · next h => exact h
        · next hrotate => exact ⟨hgas, htransfer, hcrossTransfer, hrotate⟩

theorem eq_of_hasArgs {doc : Document} (h : doc.hasArgs capability m)
    (h' : doc.hasArgs capability n) : m = n := by
  rw [Document.hasArgs_eq_argCount?, beq_iff_eq] at h h'
  rw [h, Option.some_inj] at h'
  exact h'

def Grant.arity? : Grant → Option Nat
  | .payingGas => some 0
  | .transfer => some 3
  | .crossTransfer => some 4
  | .rotate => some 1
  | .unknown => none

def Grant.ofArity : Option Nat → Grant
  | some 0 => .payingGas
  | some 3 => .transfer
  | some 4 => .crossTransfer
  | some 1 => .rotate
  | _ => .unknown

theorem Grant.ofArity_arity? : Function.LeftInverse Grant.ofArity Grant.arity? := by
  intro grant
  cases grant <;> rfl

theorem Grant.hasArgs_of_fits {grant : Grant} (h : grant.Fits doc gas capability)
    (harity : grant.arity? = some n) : doc.hasArgs capability n := by
  cases grant with
  | payingGas | transfer | crossTransfer | rotate =>
    cases harity
    exact h.2
  | unknown => contradiction

theorem Grant.not_fits_of_unknown {grant : Grant} (h : Grant.unknown.Fits doc gas capability)
    (harity : grant.arity? = some n) : ¬grant.Fits doc gas capability := by
  cases grant with
  | payingGas => exact h.1
  | transfer => exact h.2.1
  | crossTransfer => exact h.2.2.1
  | rotate => exact h.2.2.2
  | unknown => contradiction

theorem Grant.eq_of_fits {grant grant' : Grant} (h : grant.Fits doc gas capability)
    (h' : grant'.Fits doc gas capability) : grant = grant' := by
  cases harity : grant.arity? with
  | some n =>
    cases harity' : grant'.arity? with
    | some m =>
      -- no two kinds that are known have the same number of arguments
      obtain rfl := eq_of_hasArgs (hasArgs_of_fits h harity) (hasArgs_of_fits h' harity')
      exact ofArity_arity?.injective (harity.trans harity'.symm)
    | none =>
      obtain rfl : grant' = .unknown := ofArity_arity?.injective harity'
      exact absurd h (not_fits_of_unknown h' harity)
  | none =>
    obtain rfl : grant = .unknown := ofArity_arity?.injective harity
    cases harity' : grant'.arity? with
    | some n => exact absurd h' (not_fits_of_unknown h harity')
    | none => exact (ofArity_arity?.injective harity').symm

theorem Grant.fits_iff {grant : Grant} :
    grant.Fits doc gas capability ↔ doc.grant gas capability = grant := by
  constructor
  · intro h
    exact eq_of_fits (fits_grant doc gas capability) h
  · rintro rfl
    exact fits_grant doc gas capability

namespace Item.Kind

def grant? : Item.Kind → Option Grant
  | .payingGas => some .payingGas
  | .transfer _ => some .transfer
  | .crossTransfer _ => some .crossTransfer
  | .rotate => some .rotate
  | .unknownCapability _ => some .unknown
  | .signing | .network | .requiring | .signerKey | .unscopedSigner | .unrestricted | .caution
  | .chain | .gas | .tooLarge | .hash | .signForAddress => none

def transferNumber? : Item.Kind → Option Nat
  | .transfer n | .crossTransfer n => some n
  | _ => none

def unknownNumber? : Item.Kind → Option Nat
  | .unknownCapability n => some n
  | _ => none

end Item.Kind

namespace ItemList

structure Entered (doc : Document) (gas : Option Nat) (list after : ItemList)
    (capabilities : List Nat) (new : List Item) : Prop where
  items : after.items = list.items ++ new
  tokens : new.map Item.token = capabilities
  kinds : ∀ item ∈ new, item.kind.grant? = some (doc.grant gas item.token)
  transfers_le : list.transfers ≤ after.transfers
  transfers : new.filterMap (·.kind.transferNumber?) =
    List.range' (list.transfers + 1) (after.transfers - list.transfers)
  unknowns_le : list.unknowns ≤ after.unknowns
  unknowns : new.filterMap (·.kind.unknownNumber?) =
    List.range' (list.unknowns + 1) (after.unknowns - list.unknowns)

theorem entered_refl (doc : Document) (gas : Option Nat) (list : ItemList) :
    Entered doc gas list list [] [] := by
  constructor <;> simp

theorem Entered.trans {first second third : ItemList} (h : Entered doc gas first second before new)
    (h' : Entered doc gas second third capabilities new') :
    Entered doc gas first third (before ++ capabilities) (new ++ new') where
  items := by rw [h'.items, h.items, List.append_assoc]
  tokens := by rw [List.map_append, h.tokens, h'.tokens]
  kinds := by
    intro item hitem
    rw [List.mem_append] at hitem
    rcases hitem with hitem | hitem
    · exact h.kinds item hitem
    · exact h'.kinds item hitem
  transfers_le := Nat.le_trans h.transfers_le h'.transfers_le
  transfers := by
    have hle := h.transfers_le
    have hle' := h'.transfers_le
    rw [List.filterMap_append, h.transfers, h'.transfers]
    have hstart : second.transfers + 1 =
        first.transfers + 1 + (second.transfers - first.transfers) := by
      omega
    rw [hstart, List.range'_append_1]
    congr 1
    omega
  unknowns_le := Nat.le_trans h.unknowns_le h'.unknowns_le
  unknowns := by
    have hle := h.unknowns_le
    have hle' := h'.unknowns_le
    rw [List.filterMap_append, h.unknowns, h'.unknowns]
    have hstart : second.unknowns + 1 =
        first.unknowns + 1 + (second.unknowns - first.unknowns) := by
      omega
    rw [hstart, List.range'_append_1]
    congr 1
    omega

theorem exists_entered_enter (doc : Document) (gas : Option Nat) (list : ItemList)
    (capability : Nat) :
    ∃ item, Entered doc gas list (list.enter doc gas capability) [capability] [item] := by
  unfold enter
  cases hgrant : doc.grant gas capability
  all_goals
    refine ⟨_, rfl, rfl, ?_, ?_, ?_, ?_, ?_⟩
    all_goals
      simp [Item.Kind.grant?, Item.Kind.transferNumber?, Item.Kind.unknownNumber?, hgrant]

theorem exists_entered_foldl (doc : Document) (gas : Option Nat) (list : ItemList)
    (capabilities : List Nat) :
    ∃ new, Entered doc gas list (capabilities.foldl (enter doc gas) list) capabilities new := by
  induction capabilities generalizing list with
  | nil => exact ⟨[], entered_refl doc gas list⟩
  | cons capability capabilities ih =>
    obtain ⟨item, hitem⟩ := exists_entered_enter doc gas list capability
    obtain ⟨new, hnew⟩ := ih (list.enter doc gas capability)
    exact ⟨item :: new, hitem.trans hnew⟩

def grants (list : ItemList) : List Item :=
  list.items.filter (·.kind.grant?.isSome)

theorem grants_networkItems (doc : Document) :
    doc.networkItems.filter (·.kind.grant?.isSome) = [] := by
  unfold Document.networkItems
  cases doc.present? Document.root (ascii "networkId") <;> rfl

theorem grants_signerItems (doc : Document) :
    doc.signerItems.filter (·.kind.grant?.isSome) = [] := by
  unfold Document.signerItems
  split
  · rfl
  · split <;> rfl

theorem grants_openingItems (doc : Document) :
    (openingItems doc).filter (·.kind.grant?.isSome) = [] := by
  unfold openingItems
  simp only [List.filter_append, grants_networkItems, grants_signerItems]
  rfl

theorem grants_metaItems (doc : Document) : doc.metaItems.filter (·.kind.grant?.isSome) = [] := by
  unfold Document.metaItems
  split
  · rfl
  · next info _ =>
    unfold Document.chainItems
    cases doc.present? info (ascii "chainId") <;> rfl

theorem grants_tooLargeItems (items : List Item) :
    (tooLargeItems items).filter (·.kind.grant?.isSome) = [] := by
  unfold tooLargeItems
  split <;> rfl

theorem grants_addressItems (device : Device) :
    (addressItems device).filter (·.kind.grant?.isSome) = [] := by
  unfold addressItems
  split <;> rfl

theorem Entered.grants_eq {list after : ItemList} (h : Entered doc gas list after capabilities new)
    (hnone : list.grants = []) : after.grants = new := by
  unfold grants at hnone ⊢
  rw [h.items, List.filter_append, hnone, List.nil_append, List.filter_eq_self]
  intro item hitem
  rw [h.kinds item hitem]
  rfl

theorem grants_extend (list : ItemList) (items : List Item) :
    (list.extend items).grants = list.grants ++ items.filter (·.kind.grant?.isSome) := by
  rw [grants, extend, List.filter_append]
  rfl

theorem grants_schedule (device : Device) (doc : Document) :
    (schedule device doc).grants = (grantAll doc (extend {} (openingItems doc))).grants := by
  unfold schedule contentSchedule
  simp only [grants_extend, List.filter_append, grants_metaItems, grants_tooLargeItems,
    grants_addressItems, List.append_nil]
  exact List.append_nil _

theorem exists_entered_build {list after : ItemList}
    (h : (build device doc).perform list = (.ok (), after))
    (hclist : doc.capabilityList? = some clist) :
    ∃ before granted,
      Entered doc ((doc.children clist).find? (doc.isNamed · Capability.gas)) before granted
          (shownOrder doc (doc.children clist)) after.grants ∧
        before.transfers = 0 ∧ before.unknowns = 0 := by
  obtain ⟨new, hnew⟩ := exists_entered_foldl doc
    ((doc.children clist).find? (doc.isNamed · Capability.gas)) (extend {} (openingItems doc))
    (shownOrder doc (doc.children clist))
  have hnone : grants (extend {} (openingItems doc)) = [] := by
    rw [grants_extend, grants_openingItems]
    rfl
  rw [build_eq_ok h, grants_schedule, grantAll, hclist, hnew.grants_eq hnone]
  exact ⟨_, _, hnew, rfl, rfl⟩

theorem shownOrder_perm {capabilities : List Nat} (h : capabilities.Nodup) :
    (shownOrder doc capabilities).Perm capabilities := by
  unfold shownOrder
  cases hgas : capabilities.find? (doc.isNamed · Capability.gas) with
  | none =>
    have hall : capabilities.filter (none != some ·) = capabilities := by
      rw [List.filter_eq_self]
      intro capability _
      rfl
    dsimp only [Option.toList_none, List.nil_append]
    rw [hall]
  | some gas =>
    have hmem : gas ∈ capabilities := List.mem_of_find?_eq_some hgas
    have hothers : capabilities.filter (some gas != some ·) = capabilities.erase gas := by
      rw [h.erase_eq_filter]
      apply List.filter_congr
      intro capability hcapability
      simp [bne, Bool.beq_comm]
    dsimp only
    rw [hothers]
    exact (List.perm_cons_erase hmem).symm

/--
The items show each of the capabilities once: the first one that pays for gas in front and the
others in their order, each one as what it is, and those of a kind with numbers without a gap.
-/
structure Shows (doc : Document) (capabilities : List Nat) (items : List Item) : Prop where
  order : items.map Item.token =
    let gas := capabilities.find? (doc.isNamed · Capability.gas)
    gas.toList ++ capabilities.filter (gas != some ·)
  once : (items.map Item.token).Perm capabilities
  distinct : capabilities.Nodup
  kinds : ∀ item ∈ items, ∀ grant, item.kind.grant? = some grant ↔
    grant.Fits doc (capabilities.find? (doc.isNamed · Capability.gas)) item.token
  transfers : ∃ n, items.filterMap (·.kind.transferNumber?) = List.range' 1 n
  unknowns : ∃ n, items.filterMap (·.kind.unknownNumber?) = List.range' 1 n

theorem shows_build {list after : ItemList}
    (h : (build device doc).perform list = (.ok (), after))
    (hclist : doc.capabilityList? = some clist) :
    Shows doc (doc.children clist) after.grants := by
  obtain ⟨before, granted, hentered, htransfers, hunknowns⟩ := exists_entered_build h hclist
  have hdistinct := doc.children_nodup clist
  constructor
  · exact hentered.tokens
  · rw [hentered.tokens]
    exact shownOrder_perm hdistinct
  · exact hdistinct
  · intro item hitem grant
    rw [hentered.kinds item hitem, Option.some_inj, Grant.fits_iff]
  · have hnumbers := hentered.transfers
    rw [htransfers] at hnumbers
    exact ⟨_, hnumbers⟩
  · have hnumbers := hentered.unknowns
    rw [hunknowns] at hnumbers
    exact ⟨_, hnumbers⟩

theorem isArray_of_capabilityList? {doc : Document} (h : doc.capabilityList? = some clist) :
    doc.isArray clist := by
  unfold Document.capabilityList? at h
  exact (Option.filter_eq_some_iff.1 h).2

theorem capabilities_are_shown {list after : ItemList}
    (htokens : Json.tokenize source = .ok tokens)
    (hbuild : (build device ⟨source, tokens⟩).perform list = (.ok (), after))
    (hclist : (⟨source, tokens⟩ : Document).capabilityList? = some clist) :
    (∃ tree token elements, Json.IsText source tree ∧ tokens = tree.tokens ∧
      tree.subtree? clist = some (.node token elements) ∧ token.kind = .array ∧
      (⟨source, tokens⟩ : Document).children clist = Json.Forest.indices (clist + 1) elements) ∧
    Shows ⟨source, tokens⟩ ((⟨source, tokens⟩ : Document).children clist) after.grants := by
  refine ⟨?_, shows_build hbuild hclist⟩
  obtain ⟨hlength, tree, htext, rfl⟩ := Json.isText_of_tokenize htokens
  have harray := isArray_of_capabilityList? hclist
  simp only [Document.isArray, Document.kind?, beq_iff_eq, Option.map_eq_some_iff] at harray
  obtain ⟨token, htoken, hkind⟩ := harray
  obtain ⟨hbound, -⟩ := List.getElem?_eq_some_iff.1 htoken
  obtain ⟨⟨first, elements⟩, hsubtree⟩ := Json.Tree.exists_subtree? tree hbound
  obtain ⟨hfirst, hchildren⟩ := Document.children_of_subtree? htext hlength hsubtree
  rw [htoken, Option.some_inj] at hfirst
  rw [← hfirst] at hsubtree
  exact ⟨tree, token, elements, htext, rfl, hsubtree, hkind, hchildren⟩

theorem capabilities_are_shown_gas :
    let source :=
      ascii "\x7b\"signers\":[\x7b\"clist\":[1,\x7b\"name\":\"coin.GAS\",\"args\":[]\x7d]\x7d]\x7d"
    ∃ tokens after, Json.tokenize source = .ok tokens ∧
      (build .standard ⟨source, tokens⟩).perform {} = (.ok (), after) ∧
      after.grants.map Item.kind = [.payingGas, .unknownCapability 1] ∧
      Shows ⟨source, tokens⟩ [6, 7] after.grants := by
  intro source
  let doc : Document := ⟨source, (Json.tokenize source).toOption.getD []⟩
  let after := ((build .standard doc).perform {}).2
  have htokens : Json.tokenize source = .ok doc.tokens := by decide +kernel
  have hbuild : (build .standard doc).perform {} = (.ok (), after) := by decide +kernel
  have hclist : doc.capabilityList? = some 5 := by decide +kernel
  have hchildren : doc.children 5 = [6, 7] := by decide +kernel
  have hkinds : after.grants.map Item.kind = [.payingGas, .unknownCapability 1] := by
    decide +kernel
  obtain ⟨-, hshows⟩ := capabilities_are_shown htokens hbuild hclist
  rw [← hchildren]
  exact ⟨doc.tokens, after, htokens, hbuild, hkinds, hshows⟩

end ItemList

end ClearSign
