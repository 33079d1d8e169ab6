import ClearSign.Proofs.Json.Embedding
import ClearSign.Proofs.Relation
import ClearSign.Proofs.Review.Schedule

/-!
This module contains what two documents with the same value in them have in common: everything that
a review asks about the value has the same answer in both.
-/

namespace ClearSign

namespace Json.Document

theorem forall₂_pairs {related : Nat → Nat → Prop} {is is' : List Nat}
    (h : List.Forall₂ related is is') :
    List.Forall₂ (fun member member' => related member.1 member'.1 ∧ related member.2 member'.2)
      (pairs is) (pairs is') := by
  match is, is', h with
  | [], [], .nil => exact .nil
  | [_], [_], .cons _ .nil => exact .nil
  | _ :: _ :: _, _ :: _ :: _, .cons hkey (.cons hvalue hrest) =>
    exact .cons ⟨hkey, hvalue⟩ (forall₂_pairs hrest)

def Shared (doc doc' : Document) (base base' i i' : Nat) : Prop :=
  ∃ part pos pos' k, doc.Embeds base pos part ∧ doc'.Embeds base' pos' part ∧
    k < part.tokens.length ∧ i = base + k ∧ i' = base' + k

theorem shared_of_written {doc doc' : Document} (htokens : tokenize doc.source = .ok doc.tokens)
    (htokens' : tokenize doc'.source = .ok doc'.tokens) (hi : i < doc.tokens.length)
    (h : doc.written i = doc'.written i') : doc.Shared doc' i i' i i' := by
  obtain ⟨text, found, pos, hwritten, hfound, hpos, hembeds⟩ := exists_embeds htokens hi
  have hi' : i' < doc'.tokens.length := by
    rw [hwritten] at h
    obtain ⟨token, htoken, -⟩ := Option.map_eq_some_iff.1 h.symm
    exact (List.getElem?_eq_some_iff.1 htoken).1
  obtain ⟨text', found', pos', hwritten', hfound', -, hembeds'⟩ := exists_embeds htokens' hi'
  rw [hwritten, hwritten', Option.some.injEq] at h
  subst h
  rw [hfound, Except.ok.injEq] at hfound'
  subst hfound'
  exact ⟨_, pos, pos', 0, hembeds, hembeds', hpos, rfl, rfl⟩

namespace Shared

variable {doc doc' : Document} {base base' i i' : Nat}

theorem eq_iff (h : doc.Shared doc' base base' i i') (h' : doc.Shared doc' base base' j j') :
    i = j ↔ i' = j' := by
  obtain ⟨-, -, -, k, -, -, -, rfl, rfl⟩ := h
  obtain ⟨-, -, -, k', -, -, -, rfl, rfl⟩ := h'
  omega

theorem exists_token (h : doc.Shared doc' base base' i i') :
    ∃ token token', doc.token? i = some token ∧ doc'.token? i' = some token' ∧
      token.kind = token'.kind ∧ token.length = token'.length := by
  obtain ⟨part, pos, pos', k, hembeds, hembeds', hk, rfl, rfl⟩ := h
  have hlength := hembeds.length_add hk
  rw [← hembeds'.length_add hk, hembeds.token?_add hk, hembeds'.token?_add hk, token?,
    List.getElem?_eq_getElem hk] at hlength
  rw [hembeds.token?_add hk, hembeds'.token?_add hk, token?, List.getElem?_eq_getElem hk]
  refine ⟨_, _, rfl, rfl, rfl, ?_⟩
  exact Option.some.inj hlength

theorem kind?_eq (h : doc.Shared doc' base base' i i') : doc.kind? i = doc'.kind? i' := by
  obtain ⟨token, token', htoken, htoken', hkind, -⟩ := h.exists_token
  rw [kind?, kind?, htoken, htoken', Option.map_some, Option.map_some, hkind]

theorem text_eq (h : doc.Shared doc' base base' i i') : doc.text i = doc'.text i' := by
  obtain ⟨part, pos, pos', k, hembeds, hembeds', hk, rfl, rfl⟩ := h
  rw [hembeds.text_add hk, hembeds'.text_add hk]

theorem children_rel (h : doc.Shared doc' base base' i i') :
    List.Forall₂ (doc.Shared doc' base base') (doc.children i) (doc'.children i') := by
  obtain ⟨part, pos, pos', k, hembeds, hembeds', hk, rfl, rfl⟩ := h
  rw [hembeds.children_add hk, hembeds'.children_add hk, List.forall₂_map_left_iff,
    List.forall₂_map_right_iff, List.forall₂_same]
  intro c hc
  exact ⟨part, pos, pos', c, hembeds, hembeds', (lt_of_mem_children hc).2, rfl, rfl⟩

theorem isString_eq (h : doc.Shared doc' base base' i i') : doc.isString i = doc'.isString i' := by
  rw [isString, isString, h.kind?_eq]

theorem isArray_eq (h : doc.Shared doc' base base' i i') : doc.isArray i = doc'.isArray i' := by
  rw [isArray, isArray, h.kind?_eq]

theorem isObject_eq (h : doc.Shared doc' base base' i i') : doc.isObject i = doc'.isObject i' := by
  rw [isObject, isObject, h.kind?_eq]

theorem reads_eq (h : doc.Shared doc' base base' i i') (content : Bytes) :
    doc.reads i content = doc'.reads i' content := by
  rw [reads, reads, h.text_eq]

theorem isNull_eq (h : doc.Shared doc' base base' i i') : doc.isNull i = doc'.isNull i' := by
  rw [isNull, isNull, h.kind?_eq, h.reads_eq]

theorem isStringOf_eq (h : doc.Shared doc' base base' i i') (content : Bytes) :
    doc.isStringOf i content = doc'.isStringOf i' content := by
  rw [isStringOf, isStringOf, h.isString_eq, h.reads_eq]

theorem length_children_eq (h : doc.Shared doc' base base' i i') :
    (doc.children i).length = (doc'.children i').length :=
  h.children_rel.length_eq

theorem members_rel (h : doc.Shared doc' base base' i i') :
    List.Forall₂
      (fun member member' => doc.Shared doc' base base' member.1 member'.1 ∧
        doc.Shared doc' base base' member.2 member'.2)
      (doc.members i) (doc'.members i') :=
  forall₂_pairs h.children_rel

theorem field?_rel (h : doc.Shared doc' base base' i i') (key : Bytes) :
    Option.Rel (doc.Shared doc' base base') (doc.field? i key) (doc'.field? i' key) := by
  unfold Document.field?
  rw [h.isObject_eq]
  split
  · apply rel_map (rel_find? h.members_rel _)
    · intro member member' hmember
      exact hmember.1.2
    · intro member member' hmember
      exact hmember.1.isStringOf_eq key
  · exact .none

theorem present?_rel (h : doc.Shared doc' base base' i i') (key : Bytes) :
    Option.Rel (doc.Shared doc' base base') (doc.present? i key) (doc'.present? i' key) := by
  apply rel_filter (h.field?_rel key)
  intro value value' hvalue
  rw [hvalue.isNull_eq]

theorem arrayElement?_rel (h : doc.Shared doc' base base' i i') (n : Nat) :
    Option.Rel (doc.Shared doc' base base') (doc.arrayElement? i n) (doc'.arrayElement? i' n) := by
  unfold Document.arrayElement?
  rw [h.isArray_eq]
  split
  · exact rel_getElem? h.children_rel n
  · exact .none

theorem args?_rel (h : doc.Shared doc' base base' i i') :
    Option.Rel (doc.Shared doc' base base') (doc.args? i) (doc'.args? i') := by
  apply rel_filter (h.present?_rel _)
  intro args args' hargs
  rw [hargs.isArray_eq]

theorem argList_rel (h : doc.Shared doc' base base' i i') :
    List.Forall₂ (doc.Shared doc' base base') ((doc.args? i).elim [] doc.children)
      ((doc'.args? i').elim [] doc'.children) := by
  have hargs := h.args?_rel
  generalize doc.args? i = args at hargs ⊢
  generalize doc'.args? i' = args' at hargs ⊢
  cases hargs with
  | none => exact .nil
  | some hargs => exact hargs.children_rel

theorem isNamed_eq (h : doc.Shared doc' base base' i i') (name : Bytes) :
    doc.isNamed i name = doc'.isNamed i' name := by
  apply any_eq_of_rel (h.field?_rel _)
  intro value value' hvalue
  rw [hvalue.isStringOf_eq]

theorem hasArgs_eq (h : doc.Shared doc' base base' i i') (n : Nat) :
    doc.hasArgs i n = doc'.hasArgs i' n := by
  apply any_eq_of_rel (h.field?_rel _)
  intro args args' hargs
  rw [hargs.isArray_eq, hargs.length_children_eq]

theorem showsArgs_eq (h : doc.Shared doc' base base' i i') :
    doc.showsArgs i = doc'.showsArgs i' := by
  unfold showsArgs
  have hargs := h.present?_rel (ascii "args")
  generalize doc.present? i (ascii "args") = args at hargs ⊢
  generalize doc'.present? i' (ascii "args") = args' at hargs ⊢
  cases hargs with
  | none => rfl
  | some hargs =>
    obtain ⟨token, token', htoken, htoken', hkind, hlength⟩ := hargs.exists_token
    dsimp only
    rw [htoken, htoken']
    dsimp only
    rw [hkind, hlength, hargs.length_children_eq]

theorem isAccountOf_eq (h : doc.Shared doc' base base' i i') (key : Bytes) :
    doc.isAccountOf key i = doc'.isAccountOf key i' := by
  rw [isAccountOf, isAccountOf, h.isString_eq, h.text_eq]

theorem isTransfer_eq (h : doc.Shared doc' base base' i i') :
    doc.isTransfer i = doc'.isTransfer i' := by
  rw [isTransfer, isTransfer, h.isNamed_eq, h.isNamed_eq]

theorem namesAccount_eq (h : doc.Shared doc' base base' i i') (key : Bytes) :
    doc.namesAccount key i = doc'.namesAccount key i' := by
  apply any_eq_of_forall₂ h.argList_rel
  intro arg arg' harg
  rw [harg.isAccountOf_eq]

theorem hasKeys_eq (h : doc.Shared doc' base base' i i') (keys : List Bytes) :
    doc.hasKeys i keys = doc'.hasKeys i' keys := by
  rw [hasKeys, hasKeys, h.isObject_eq, h.members_rel.length_eq]
  congr 1
  apply all_zip_eq_of_forall₂ h.members_rel
  intro member member' key hmember
  exact hmember.1.isStringOf_eq key

end Shared

end Json.Document

end ClearSign
