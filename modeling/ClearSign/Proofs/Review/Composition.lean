import ClearSign.Proofs.Review.Capacity

/-!
This module contains the parts of a review, and the proof that items of each kind are found in one
part only.
-/

namespace ClearSign

inductive Item.Part where
  | opening
  | capabilities
  | terms
  | tooLarge
  | hash
  | address
  deriving DecidableEq

def Item.Kind.part : Item.Kind → Item.Part
  | .signing | .network | .requiring | .signerKey | .unscopedSigner => .opening
  | .payingGas | .transfer _ | .crossTransfer _ | .rotate | .unknownCapability _ | .unrestricted =>
    .capabilities
  | .chain | .gas | .caution => .terms
  | .tooLarge => .tooLarge
  | .hash => .hash
  | .signForAddress => .address

namespace ItemList

open Json (Document)

variable {doc : Document} {item : Item}

def contentItems (doc : Document) : List Item :=
  openingItems doc ++ capabilityItems doc ++ doc.metaItems

def partItems (device : Device) (doc : Document) : Item.Part → List Item
  | .opening => openingItems doc
  | .capabilities => capabilityItems doc
  | .terms => doc.metaItems
  | .tooLarge => tooLargeItems (contentItems doc)
  | .hash => [{ kind := .hash }]
  | .address => addressItems device

theorem items_schedule (device : Device) (doc : Document) :
    (schedule device doc).items =
      contentItems doc ++ tooLargeItems (contentItems doc) ++ [{ kind := .hash }] ++
        addressItems device := by
  rw [schedule, extend, items_contentSchedule, ← List.append_assoc, ← List.append_assoc,
    contentItems]

theorem kind_of_mem_networkItems (h : item ∈ doc.networkItems) : item.kind = .network := by
  unfold Document.networkItems at h
  rw [Option.mem_toList, Option.map_eq_some_iff] at h
  obtain ⟨network, -, rfl⟩ := h
  rfl

theorem kind_of_mem_signerItems (h : item ∈ doc.signerItems) :
    item.kind = .signerKey ∨ item.kind = .unscopedSigner := by
  unfold Document.signerItems at h
  split at h
  · contradiction
  · split at h
    all_goals
      simp only [List.append_nil, List.singleton_append, List.mem_cons, List.not_mem_nil,
        or_false] at h
    · exact .inl (h ▸ rfl)
    · rcases h with rfl | rfl
      · exact .inl rfl
      · exact .inr rfl

theorem part_of_mem_openingItems (h : item ∈ openingItems doc) : item.kind.part = .opening := by
  simp only [openingItems, List.mem_append, List.mem_singleton] at h
  rcases h with ((rfl | h) | rfl) | h
  · rfl
  · rw [kind_of_mem_networkItems h]
    rfl
  · rfl
  · rcases kind_of_mem_signerItems h with hkind | hkind <;> rw [hkind] <;> rfl

theorem part_of_grant? {kind : Item.Kind} (h : kind.grant? = some grant) :
    kind.part = .capabilities := by
  cases kind with
  | payingGas | transfer | crossTransfer | rotate | unknownCapability => rfl
  | _ => contradiction

theorem part_of_mem_capabilityItems (h : item ∈ capabilityItems doc) :
    item.kind.part = .capabilities := by
  unfold capabilityItems grantAll at h
  split at h
  · rw [List.nil_append, List.mem_singleton] at h
    rw [h]
    rfl
  · next clist _ =>
    obtain ⟨new, hnew⟩ := exists_entered_foldl doc
      ((doc.children clist).find? (doc.isNamed · Capability.gas)) {}
      (shownOrder doc (doc.children clist))
    rw [hnew.items, List.nil_append] at h
    exact part_of_grant? (hnew.kinds item h)

theorem part_of_mem_metaItems (h : item ∈ doc.metaItems) : item.kind.part = .terms := by
  unfold Document.metaItems at h
  split at h
  · rw [List.mem_singleton] at h
    rw [h]
    rfl
  · next info _ =>
    unfold Document.chainItems at h
    simp only [List.mem_append, Option.mem_toList, Option.map_eq_some_iff,
      List.mem_singleton] at h
    rcases h with ⟨chain, -, rfl⟩ | rfl
    · rfl
    · rfl

theorem eq_of_mem_tooLargeItems {items : List Item} (h : item ∈ tooLargeItems items) :
    item = { kind := .tooLarge } := by
  unfold tooLargeItems at h
  split at h
  · contradiction
  · exact List.mem_singleton.1 h

theorem eq_of_mem_addressItems {device : Device} (h : item ∈ addressItems device) :
    item = { kind := .signForAddress } := by
  unfold addressItems at h
  split at h
  · exact List.mem_singleton.1 h
  · contradiction

theorem part_of_mem_partItems {device : Device} {part : Item.Part}
    (h : item ∈ partItems device doc part) : item.kind.part = part := by
  cases part with
  | opening => exact part_of_mem_openingItems h
  | capabilities => exact part_of_mem_capabilityItems h
  | terms => exact part_of_mem_metaItems h
  | tooLarge => rw [eq_of_mem_tooLargeItems h]; rfl
  | hash => rw [List.mem_singleton.1 h]; rfl
  | address => rw [eq_of_mem_addressItems h]; rfl

theorem filter_part_schedule (device : Device) (doc : Document) (part : Item.Part) :
    (schedule device doc).items.filter (fun item => item.kind.part = part) =
      partItems device doc part := by
  have hitems : (schedule device doc).items =
      [.opening, .capabilities, .terms, .tooLarge, .hash, .address].flatMap
        (partItems device doc) := by
    simp [items_schedule, contentItems, partItems]
  -- one part is kept whole, and nothing of the others
  have hfilter (other : Item.Part) :
      (partItems device doc other).filter (fun item => item.kind.part = part) =
        if other = part then partItems device doc other else [] := by
    split
    · next heq =>
      rw [List.filter_eq_self]
      intro item hitem
      simp [part_of_mem_partItems hitem, heq]
    · next hne =>
      rw [List.filter_eq_nil_iff]
      intro item hitem
      simp [part_of_mem_partItems hitem, hne]
  rw [hitems, List.filter_flatMap]
  simp only [hfilter]
  cases part <;> simp

end ItemList

end ClearSign
