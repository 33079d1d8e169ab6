import ClearSign.Proofs.Json.Navigation
import ClearSign.Proofs.Json.Value
import ClearSign.Review.Schema

/-!
This module contains what navigation finds in a document that holds a known value.
-/

namespace ClearSign.Json

theorem Tree.subtree?_zero (tree : Tree) : tree.subtree? 0 = some tree := by
  cases tree
  rfl

theorem Tree.tokens_pos (tree : Tree) : 0 < tree.tokens.length :=
  Tree.lt_of_subtree? tree.subtree?_zero

mutual

theorem Tree.subtree?_inside {tree found : Tree} {i k : Nat}
    (h : tree.subtree? i = some (.node token children))
    (hinside : Forest.subtree? children k = some found) :
    tree.subtree? (i + 1 + k) = some found := by
  cases tree with
  | node first trees =>
    cases i with
    | zero =>
      rw [Tree.subtree?_zero] at h
      cases h
      rw [Nat.zero_add, Nat.add_comm, Tree.subtree?]
      exact hinside
    | succ i =>
      rw [Tree.subtree?] at h
      have hfound := Forest.subtree?_inside h hinside
      have hindex : i + 1 + 1 + k = i + 1 + k + 1 := by omega
      rw [hindex, Tree.subtree?]
      exact hfound

theorem Forest.subtree?_inside {trees : Forest} {found : Tree} {i k : Nat}
    (h : Forest.subtree? trees i = some (.node token children))
    (hinside : Forest.subtree? children k = some found) :
    Forest.subtree? trees (i + 1 + k) = some found := by
  cases trees with
  | nil => simp [Forest.subtree?] at h
  | cons tree trees =>
    rw [Forest.subtree?] at h ⊢
    split at h
    · have hfound := Tree.subtree?_inside h hinside
      rw [if_pos (Tree.lt_of_subtree? hfound)]
      exact hfound
    · next hlength =>
      have hfound := Forest.subtree?_inside h hinside
      have hindex : i + 1 + k - tree.tokens.length = i - tree.tokens.length + 1 + k := by omega
      rw [if_neg (by omega), hindex]
      exact hfound

end

theorem prefix_append_iff {first second whole : Bytes} :
    first ++ second <+: whole ↔ first <+: whole ∧ second <+: whole.drop first.length := by
  constructor
  · rintro ⟨rest, rfl⟩
    rw [List.append_assoc, List.drop_left]
    exact ⟨List.prefix_append _ _, List.prefix_append _ _⟩
  · rintro ⟨⟨rest, rfl⟩, hsecond⟩
    rw [List.drop_left] at hsecond
    exact (List.prefix_append_right_inj first).2 hsecond

namespace Document

structure Holds (doc : Document) (i : Nat) (value : Value) : Prop where
  short : doc.source.length < Limit.jsonLength
  found : ∃ tree pos, IsText doc.source tree ∧ doc.tokens = tree.tokens ∧
    tree.subtree? i = some (value.tree pos) ∧ value.text <+: doc.source.drop pos

theorem holds_root {value : Value} (h : value.Valid)
    (hlength : value.text.length < Limit.jsonLength) :
    Holds ⟨value.text, (value.tree 0).tokens⟩ root value where
  short := hlength
  found := ⟨value.tree 0, 0, Value.isText h, rfl, Tree.subtree?_zero _, List.prefix_rfl⟩

section Inside

variable {doc : Document} {tree : Tree} (htext : IsText doc.source tree)
  (htokens : doc.tokens = tree.tokens) (hlength : doc.source.length < Limit.jsonLength)

include htext htokens hlength

theorem holds_elements (values : List Value) (pos i : Nat)
    (hsubtree : ∀ k found, Forest.subtree? (elementsTrees pos values) k = some found →
      tree.subtree? (i + k) = some found)
    (hstarts : (elementsText values).tail <+: doc.source.drop (pos + 1)) :
    List.Forall₂ doc.Holds (Forest.indices i (elementsTrees pos values)) values := by
  induction values generalizing pos i with
  | nil => exact .nil
  | cons value values ih =>
    rw [elementsTrees] at hsubtree ⊢
    rw [elementsText, List.append_assoc, List.singleton_append, List.tail_cons, prefix_append_iff,
      List.drop_drop] at hstarts
    rw [Forest.indices]
    constructor
    · refine ⟨hlength, tree, pos + 1, htext, htokens, ?_, hstarts.1⟩
      apply hsubtree 0
      rw [Forest.subtree?, if_pos (Tree.tokens_pos _), Tree.subtree?_zero]
    · apply ih
      · intro k found hfound
        rw [Nat.add_assoc]
        apply hsubtree
        rw [Forest.subtree?, if_neg (by omega), Nat.add_sub_cancel_left]
        exact hfound
      · have htail := List.IsPrefix.drop hstarts.2 1
        rwa [List.drop_one, List.drop_drop] at htail

theorem holds_members (members : List (Bytes × Value)) (pos i : Nat)
    (hsubtree : ∀ k found, Forest.subtree? (membersTrees pos members) k = some found →
      tree.subtree? (i + k) = some found)
    (hstarts : (membersText members).tail <+: doc.source.drop (pos + 1)) :
    List.Forall₂ (fun is member => doc.Holds is.1 (.string member.1) ∧ doc.Holds is.2 member.2)
      (pairs (Forest.indices i (membersTrees pos members))) members := by
  induction members generalizing pos i with
  | nil => exact .nil
  | cons member members ih =>
    obtain ⟨key, value⟩ := member
    rw [membersTrees] at hsubtree ⊢
    have hsplit : (membersText ((key, value) :: members)).tail =
        quoted key ++ ([Byte.colon] ++ (value.text ++ membersText members)) := by
      simp [membersText]
    rw [hsplit, prefix_append_iff, prefix_append_iff, prefix_append_iff] at hstarts
    obtain ⟨hkey, -, hvalue, hrest⟩ := hstarts
    have hkeyPos : pos + 1 + (quoted key).length + [Byte.colon].length = pos + 4 + key.length := by
      simp only [quoted, List.length_append, List.length_singleton]
      omega
    simp only [List.drop_drop, hkeyPos] at hvalue hrest
    rw [Forest.indices, Forest.indices, pairs]
    -- The key takes one index and its value those behind it.
    constructor
    · constructor
      · refine ⟨hlength, tree, pos + 1, htext, htokens, ?_, hkey⟩
        apply hsubtree 0
        rw [Forest.subtree?, if_pos (Tree.tokens_pos _), Tree.subtree?_zero, Value.tree]
      · refine ⟨hlength, tree, pos + 4 + key.length, htext, htokens, ?_, hvalue⟩
        apply hsubtree 1
        rw [Forest.subtree?, if_neg (by simp [Tree.leaf]), Forest.subtree?]
        simp [Tree.leaf, Tree.tokens_pos, Tree.subtree?_zero]
    · apply ih
      · intro k found hfound
        rw [Nat.add_assoc, Nat.add_assoc]
        apply hsubtree
        rw [Forest.subtree?, if_neg (by omega), Nat.add_sub_cancel_left, Forest.subtree?,
          if_neg (by omega), Nat.add_sub_cancel_left]
        exact hfound
      · have htail := List.IsPrefix.drop hrest 1
        rwa [List.drop_one, List.drop_drop] at htail

end Inside

namespace Holds

variable {doc : Document} {i : Nat}

theorem elements {values : List Value} (h : doc.Holds i (.array values)) :
    List.Forall₂ doc.Holds (doc.children i) values := by
  obtain ⟨hlength, tree, pos, htext, htokens, hsubtree, hstarts⟩ := h
  obtain ⟨source, tokens⟩ := doc
  cases htokens
  rw [Value.tree] at hsubtree
  rw [Value.text, List.append_assoc, prefix_append_iff, prefix_append_iff,
    List.drop_drop] at hstarts
  rw [(children_of_subtree? htext hlength hsubtree).2]
  apply holds_elements htext rfl hlength
  · intro k found hfound
    exact Tree.subtree?_inside hsubtree hfound
  · exact hstarts.2.1

theorem members {members : List (Bytes × Value)} (h : doc.Holds i (.object members)) :
    List.Forall₂ (fun is member => doc.Holds is.1 (.string member.1) ∧ doc.Holds is.2 member.2)
      (doc.members i) members := by
  obtain ⟨hlength, tree, pos, htext, htokens, hsubtree, hstarts⟩ := h
  obtain ⟨source, tokens⟩ := doc
  cases htokens
  rw [Value.tree] at hsubtree
  rw [Value.text, List.append_assoc, prefix_append_iff, prefix_append_iff,
    List.drop_drop] at hstarts
  rw [Document.members, (children_of_subtree? htext hlength hsubtree).2]
  apply holds_members htext rfl hlength
  · intro k found hfound
    exact Tree.subtree?_inside hsubtree hfound
  · exact hstarts.2.1

theorem token? {value : Value} (h : doc.Holds i value) :
    ∃ token children pos, value.tree pos = .node token children ∧ doc.token? i = some token ∧
      value.text <+: doc.source.drop pos := by
  obtain ⟨hlength, tree, pos, htext, htokens, hsubtree, hstarts⟩ := h
  obtain ⟨source, tokens⟩ := doc
  cases htokens
  cases hvalue : value.tree pos with
  | node token children =>
    rw [hvalue] at hsubtree
    exact ⟨token, children, pos, hvalue, (children_of_subtree? htext hlength hsubtree).1, hstarts⟩

end Holds

end Document

def Value.kind : Value → Token.Kind
  | .string _ => .string
  | .primitive _ => .primitive
  | .array _ => .array
  | .object _ => .object

namespace Document.Holds

variable {doc : Document} {i : Nat}

theorem kind? {value : Value} (h : doc.Holds i value) : doc.kind? i = some value.kind := by
  obtain ⟨token, children, pos, htree, htoken, -⟩ := h.token?
  rw [Document.kind?, htoken]
  cases value <;> rw [Value.tree] at htree <;> cases htree <;> rfl

theorem text_of_token? {content : Bytes} (hlength : doc.source.length < Limit.jsonLength)
    (htoken : doc.token? i = some (.closed kind start (start + content.length)))
    (hstarts : content <+: doc.source.drop start)
    (hbound : start + content.length ≤ doc.source.length) : doc.text i = .ok content := by
  have hsize : UInt16.size = Limit.jsonLength + 1 := rfl
  rw [Document.text, htoken]
  dsimp only
  rw [Token.start_closed (by omega), Token.stop_closed (by omega), if_pos (by omega),
    List.extract_eq_take_drop, Nat.add_sub_cancel_left]
  exact congrArg Except.ok (List.prefix_iff_eq_take.1 hstarts).symm

theorem text_string {text : Bytes} (h : doc.Holds i (.string text)) : doc.text i = .ok text := by
  obtain ⟨token, children, pos, htree, htoken, hstarts⟩ := h.token?
  rw [Value.tree] at htree
  cases htree
  rw [Value.text] at hstarts
  have hbound := hstarts.length_le
  simp only [quoted, List.length_append, List.length_singleton, List.length_drop] at hbound
  rw [quoted, List.append_assoc, prefix_append_iff, prefix_append_iff, List.drop_drop] at hstarts
  exact text_of_token? h.short htoken hstarts.2.1 (by omega)

theorem text_primitive {text : Bytes} (h : doc.Holds i (.primitive text)) (hne : text ≠ []) :
    doc.text i = .ok text := by
  obtain ⟨token, children, pos, htree, htoken, hstarts⟩ := h.token?
  rw [Value.tree] at htree
  cases htree
  rw [Value.text] at hstarts
  have hbound := hstarts.length_le
  have hpos := List.length_pos_iff.2 hne
  rw [List.length_drop] at hbound
  exact text_of_token? h.short htoken hstarts (by omega)

theorem isString {text : Bytes} (h : doc.Holds i (.string text)) : doc.isString i := by
  rw [Document.isString, h.kind?]
  rfl

theorem isArray {values : List Value} (h : doc.Holds i (.array values)) : doc.isArray i := by
  rw [Document.isArray, h.kind?]
  rfl

theorem isObject {members : List (Bytes × Value)} (h : doc.Holds i (.object members)) :
    doc.isObject i := by
  rw [Document.isObject, h.kind?]
  rfl

theorem isStringOf {text : Bytes} (h : doc.Holds i (.string text)) (content : Bytes) :
    doc.isStringOf i content = (text == content) := by
  rw [Document.isStringOf, h.isString, Document.reads, h.text_string, Bool.true_and]

theorem exists_field? {members : List (Bytes × Value)} (h : doc.Holds i (.object members))
    (key : Bytes) (hlookup : (members.find? (·.1 == key)).map Prod.snd = some value) :
    ∃ j, doc.field? i key = some j ∧ doc.Holds j value := by
  have hmembers := h.members
  rw [Document.field?, if_pos h.isObject]
  clear h
  generalize doc.members i = found at hmembers
  induction hmembers with
  | nil => contradiction
  | @cons is member found members hmember _ ih =>
    rw [List.find?_cons, hmember.1.isStringOf]
    rw [List.find?_cons] at hlookup
    split
    · next heq =>
      rw [heq] at hlookup
      cases hlookup
      exact ⟨is.2, rfl, hmember.2⟩
    · next heq =>
      rw [heq] at hlookup
      exact ih hlookup

theorem exists_present? {members : List (Bytes × Value)} (h : doc.Holds i (.object members))
    (key : Bytes) (hlookup : (members.find? (·.1 == key)).map Prod.snd = some value)
    (hkind : value.kind ≠ .primitive) :
    ∃ j, doc.present? i key = some j ∧ doc.Holds j value := by
  obtain ⟨j, hfield, hvalue⟩ := h.exists_field? key hlookup
  refine ⟨j, ?_, hvalue⟩
  have hnull : doc.isNull j = false := by
    simp [Document.isNull, hvalue.kind?, hkind]
  rw [Document.present?, hfield, Option.filter_some, hnull]
  rfl

end Document.Holds

end ClearSign.Json
