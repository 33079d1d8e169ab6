import ClearSign.Proofs.Json.Lookup
import ClearSign.Proofs.Json.Preorder
import ClearSign.Proofs.Json.Translation
import ClearSign.Proofs.Relation

/-!
This module contains the proof that navigation in the flat list of tokens is navigation in the tree
of the text: whatever is asked at the index of a node has the answer that the node itself has. Where
there is nothing of the kind that is asked about, there is no answer. Only the lookup of a key or a
value by its number stops the program if its place does not fit into a word.
-/

namespace ClearSign.Json

namespace Tree

def children : Tree → Forest
  | .node _ children => children

/--
The node is number `i` of the tree in preorder, so `i` is the index of its token.
-/
def At (tree : Tree) (i : Nat) (node : Tree) : Prop :=
  tree.nodes[i]? = some node

def content (source : Bytes) (node : Tree) : Bytes :=
  source.extract node.token.start node.token.stop

/--
The node is an object with these members, each a key and a value. Its children are the keys and
values in turn.
-/
structure HasMembers (node : Tree) (members : List (Tree × Tree)) : Prop where
  object : node.token.kind = .object
  children : node.children = members.flatMap fun member => [member.1, member.2]
  keys : ∀ member ∈ members, member.1.token.kind = .string

end Tree

mutual

theorem Tree.subtree?_eq_getElem? (tree : Tree) (i : Nat) : tree.subtree? i = tree.nodes[i]? := by
  cases tree with
  | node token children =>
    cases i with
    | zero => simp [Tree.subtree?]
    | succ i => simp [Tree.subtree?, Forest.subtree?_eq_getElem? children i]

theorem Forest.subtree?_eq_getElem? (trees : Forest) (i : Nat) :
    Forest.subtree? trees i = (Forest.nodes trees)[i]? := by
  cases trees with
  | nil => simp [Forest.subtree?]
  | cons tree trees =>
    have hlength : tree.nodes.length = tree.tokens.length := by simp [tree.tokens_eq_map_nodes]
    rw [Forest.subtree?, Forest.nodes_cons, List.getElem?_append, hlength,
      Tree.subtree?_eq_getElem? tree, Forest.subtree?_eq_getElem? trees]

end

theorem Tree.exists_at_iff {tree : Tree} : (∃ node, tree.At i node) ↔ i < tree.tokens.length := by
  rw [tree.tokens_eq_map_nodes, List.length_map]
  constructor
  · rintro ⟨node, hnode⟩
    exact (List.getElem?_eq_some_iff.1 hnode).1
  · intro hi
    exact ⟨_, List.getElem?_eq_getElem hi⟩

theorem Forest.forall₂_indices {related : Nat → Tree → Prop} (trees : Forest) (i : Nat)
    (h : ∀ k found, subtree? trees k = some found → related (i + k) found) :
    List.Forall₂ related (indices i trees) trees := by
  induction trees generalizing i with
  | nil => exact .nil
  | cons tree trees ih =>
    constructor
    · apply h 0
      rw [subtree?, if_pos tree.tokens_pos, Tree.subtree?_zero]
    · apply ih
      intro k found hfound
      rw [Nat.add_assoc]
      apply h
      rw [subtree?, if_neg (by omega), Nat.add_sub_cancel_left]
      exact hfound

theorem Tree.At.children {tree node : Tree} (h : tree.At i node) :
    List.Forall₂ tree.At (Forest.indices (i + 1) node.children) node.children := by
  apply Forest.forall₂_indices
  intro k found hfound
  cases node with
  | node token inside =>
    rw [At, ← subtree?_eq_getElem?] at h ⊢
    exact Tree.subtree?_inside h hfound

theorem Grammar.exists_members {part : Part} (h : Grammar part pos text trees)
    (hpart : part = .member ∨ part = .entries .object) :
    ∃ members : List (Tree × Tree), trees = members.flatMap (fun member => [member.1, member.2]) ∧
      ∀ member ∈ members, member.1.token.kind = .string := by
  induction h with
  | string | primitive | empty | filled | element => simp at hpart
  | member pos before key gap text trees hbefore hkey hgap hvalue =>
    obtain ⟨value, rfl⟩ := hvalue.eq_singleton (.inr rfl)
    exact ⟨[(.leaf .string _ _, value)], rfl, by simp [Tree.leaf, Token.closed]⟩
  | one container pos text trees hentry ih =>
    obtain rfl : container = .object := by simpa using hpart
    exact ih (.inl rfl)
  | more container pos text next trees nextTrees hentries hentry ih ihNext =>
    obtain rfl : container = .object := by simpa using hpart
    obtain ⟨members, rfl, hkeys⟩ := ih (.inr rfl)
    obtain ⟨nextMembers, rfl, hnextKeys⟩ := ihNext (.inl rfl)
    refine ⟨members ++ nextMembers, by rw [List.flatMap_append], ?_⟩
    rw [List.forall_mem_append]
    exact ⟨hkeys, hnextKeys⟩

theorem Grammar.children_eq_nil {node : Tree} (h : Grammar .value pos text [node])
    (hkind : node.token.kind = .string ∨ node.token.kind = .primitive) : node.children = [] := by
  cases h with
  | string => rfl
  | primitive => rfl
  | empty => rfl
  | filled container => cases container <;> simp [Token.closed, Container.kind] at hkind

theorem Grammar.exists_hasMembers {node : Tree} (h : Grammar .value pos text [node])
    (hkind : node.token.kind = .object) : ∃ members, node.HasMembers members := by
  cases h with
  | string => simp [Tree.leaf, Token.closed] at hkind
  | primitive => simp [Tree.leaf, Token.closed] at hkind
  | empty => exact ⟨[], hkind, rfl, by simp⟩
  | filled container pos text trees htrees =>
    obtain rfl : container = .object := by
      cases container
      · simp [Token.closed, Container.kind] at hkind
      · rfl
    obtain ⟨members, htrees, hkeys⟩ := htrees.exists_members (.inr rfl)
    exact ⟨members, hkind, htrees, hkeys⟩

theorem IsText.eq_of_tokenize {text : Bytes} {tree other : Tree} (hother : IsText text other)
    (htext : IsText text tree) (h : tokenize text = .ok tree.tokens) : other = tree := by
  have hlength := (tokenize_eq_ok_iff.1 h).1
  rcases tokenize_of_isText hother hlength with ⟨hok, -⟩ | ⟨herror, -⟩ | ⟨herror, -⟩
  · apply hother.unique htext hlength
    rw [h] at hok
    exact (Except.ok.inj hok).symm
  · rw [h] at herror
    contradiction
  · rw [h] at herror
    contradiction

theorem IsText.grammar_of_at {text : Bytes} {tree node : Tree} (htext : IsText text tree)
    (h : tree.At i node) :
    ∃ before value after, text = before ++ value ++ after ∧
      Grammar .value before.length value [node] := by
  have hforest : Forest.subtree? [tree] i = some node := by
    rw [Forest.subtree?_eq_getElem?]
    simpa [Tree.At] using h
  obtain ⟨before, value, after, hsplit, hvalue⟩ := Grammar.exists_value htext hforest
  rw [Nat.zero_add] at hvalue
  exact ⟨before, value, after, hsplit, hvalue⟩

theorem length_flatMap_members (members : List (α × α)) :
    (members.flatMap fun member => [member.1, member.2]).length = 2 * members.length := by
  induction members with
  | nil => rfl
  | cons member members ih =>
    simp only [List.flatMap_cons, List.length_append, List.length_cons, List.length_nil, ih]
    omega

theorem getElem?_flatMap_members (members : List (α × α)) (n : Nat) :
    (members.flatMap fun member => [member.1, member.2])[2 * n]? = members[n]?.map Prod.fst ∧
      (members.flatMap fun member => [member.1, member.2])[2 * n + 1]? =
        members[n]?.map Prod.snd := by
  induction members generalizing n with
  | nil => exact ⟨rfl, rfl⟩
  | cons member members ih =>
    cases n with
    | zero => exact ⟨rfl, rfl⟩
    | succ n => exact ih n

namespace Document

theorem children_pairwise (doc : Document) (i : Nat) : (doc.children i).Pairwise (· < ·) := by
  unfold children
  split
  · exact .nil
  · exact siblings_pairwise _ _ _ _

def NoArray (doc : Document) (i : Nat) : Prop :=
  doc.arrayCount? i = none ∧ ∀ n, doc.arrayElement? i n = none

def NoObject (doc : Document) (i : Nat) : Prop :=
  doc.objectCount? i = none ∧ (∀ size (n : Fin size), doc.objectKey? i n = .ok none) ∧
    (∀ size (n : Fin size), doc.objectValue? i n = .ok none) ∧ ∀ key, doc.field? i key = none

inductive Comes (tree : Tree) (size place : Nat) (expected : Option Tree) :
    Except Crash (Option Nat) → Prop where
  | fits (answer : Option Nat) : place < size → Option.Rel tree.At answer expected →
      Comes tree size place expected (.ok answer)
  | overflows : size ≤ place → Comes tree size place expected (.error .overflow)

/--
Whatever is asked at index `i` is answered as the node answers it.
-/
structure Follows (doc : Document) (tree : Tree) (i : Nat) (node : Tree) : Prop where
  token : doc.token? i = some node.token
  text : doc.text i = .ok (node.content doc.source)
  children : doc.children? i = some (Forest.indices (i + 1) node.children)
  ordered : (Forest.indices (i + 1) node.children).Pairwise (· < ·)
  indices : List.Forall₂ tree.At (Forest.indices (i + 1) node.children) node.children
  leaf : node.token.kind = .string ∨ node.token.kind = .primitive → node.children = []
  array : node.token.kind = .array →
    doc.arrayCount? i = some node.children.length ∧
      ∀ n, Option.Rel tree.At (doc.arrayElement? i n) node.children[n]?
  noArray : node.token.kind ≠ .array → doc.NoArray i
  object : node.token.kind = .object → ∃ members, node.HasMembers members ∧
    doc.objectCount? i = some members.length ∧
    (∀ size (n : Fin size),
      Comes tree size (2 * n) (members[n.val]?.map Prod.fst) (doc.objectKey? i n)) ∧
    (∀ size (n : Fin size),
      Comes tree size (2 * n + 1) (members[n.val]?.map Prod.snd) (doc.objectValue? i n)) ∧
    ∀ key, Option.Rel tree.At (doc.field? i key)
      ((members.find? fun member => member.1.content doc.source == key).map Prod.snd)
  noObject : node.token.kind ≠ .object → doc.NoObject i

theorem noArray_of_isArray {doc : Document} (h : doc.isArray i = false) : doc.NoArray i := by
  simp [NoArray, arrayCount?, arrayElement?, h]

theorem noObject_of_isObject {doc : Document} (h : doc.isObject i = false) : doc.NoObject i := by
  simp [NoObject, objectCount?, objectKey?, objectValue?, field?, h]

theorem comes_of_rel {tree : Tree} {is : List Nat} {expected : Option Tree} (size place : Nat)
    (h : Option.Rel tree.At is[place]? expected) :
    Comes tree size place expected (do let place ← inWord size place; return is[place]?) := by
  by_cases hplace : place < size
  · rw [inWord_of_lt hplace, ok_bind]
    exact .fits _ hplace h
  · rw [Nat.not_lt] at hplace
    rw [inWord_of_le hplace, error_bind]
    exact .overflows hplace

section Node

variable {doc : Document} {tree node : Tree} {i : Nat}

theorem forall₂_pairs_members {is : List Nat} {members : List (Tree × Tree)}
    (h : List.Forall₂ tree.At is (members.flatMap fun member => [member.1, member.2])) :
    List.Forall₂ (fun member found => tree.At member.1 found.1 ∧ tree.At member.2 found.2)
      (pairs is) members := by
  induction members generalizing is with
  | nil =>
    cases h
    exact .nil
  | cons member members ih =>
    obtain _ | ⟨hkey, _ | ⟨hvalue, hrest⟩⟩ := h
    exact .cons ⟨hkey, hvalue⟩ (ih hrest)

variable (htext : IsText doc.source tree) (htokens : doc.tokens = tree.tokens)
  (hlength : doc.source.length < Limit.jsonLength)

include htext htokens hlength

theorem children_of_at (h : tree.At i node) :
    doc.token? i = some node.token ∧
      doc.children i = Forest.indices (i + 1) node.children := by
  obtain ⟨source, tokens⟩ := doc
  cases htokens
  cases node with
  | node token inside =>
    rw [Tree.At, ← Tree.subtree?_eq_getElem?] at h
    exact children_of_subtree? htext hlength h

theorem text_of_at (h : tree.At i node) : doc.text i = .ok (node.content doc.source) := by
  have htoken := (children_of_at htext htokens hlength h).1
  have hsize : doc.source.length < UInt16.size := Nat.lt_trans hlength (by decide)
  have hmem : node.token ∈ Forest.tokens [tree] := by
    rw [Forest.tokens_cons, Forest.tokens_nil, List.append_nil, ← htokens]
    exact List.mem_of_getElem? htoken
  have hwithin := (Grammar.within htext node.token hmem).bounds (by omega)
  rw [text, htoken]
  dsimp only
  rw [if_pos (by omega)]
  rfl

theorem isStringOf_of_at (h : tree.At i node) (hkind : node.token.kind = .string) (key : Bytes) :
    doc.isStringOf i key = (node.content doc.source == key) := by
  have htoken := (children_of_at htext htokens hlength h).1
  have hcontent := text_of_at htext htokens hlength h
  simp [isStringOf, isString, kind?, htoken, hkind, reads, hcontent]

theorem members_of_hasMembers {members : List (Tree × Tree)} (h : tree.At i node)
    (hmembers : node.HasMembers members) :
    doc.isObject i ∧ List.Forall₂ (fun member found => (tree.At member.1 found.1 ∧
      tree.At member.2 found.2) ∧ found.1.token.kind = .string) (doc.members i) members := by
  obtain ⟨htoken, hchildren⟩ := children_of_at htext htokens hlength h
  have hpairs := h.children
  rw [hmembers.children] at hpairs
  constructor
  · simp [isObject, kind?, htoken, hmembers.object]
  · rw [Document.members, hchildren, hmembers.children]
    have hboth := (List.forall₂_and_left (p := fun found : Tree × Tree =>
      found.1.token.kind = .string) _ _).2 ⟨hmembers.keys, (forall₂_pairs_members hpairs).flip⟩
    exact hboth.flip.imp fun _ _ hmember => ⟨hmember.2, hmember.1⟩

theorem field?_of_hasMembers {members : List (Tree × Tree)} (h : tree.At i node)
    (hmembers : node.HasMembers members) (key : Bytes) :
    Option.Rel tree.At (doc.field? i key)
      ((members.find? fun member => member.1.content doc.source == key).map Prod.snd) := by
  obtain ⟨hobject, hkeyed⟩ := members_of_hasMembers htext htokens hlength h hmembers
  rw [field?, if_pos hobject]
  apply rel_map (rel_find? hkeyed _)
  · intro member found hmember
    exact hmember.1.1.2
  · intro member found hmember
    exact isStringOf_of_at htext htokens hlength hmember.1.1 hmember.2 key

theorem follows_of_at (h : tree.At i node) : doc.Follows tree i node := by
  obtain ⟨htoken, hchildren⟩ := children_of_at htext htokens hlength h
  obtain ⟨before, value, after, -, hvalue⟩ := htext.grammar_of_at h
  constructor
  · exact htoken
  · exact text_of_at htext htokens hlength h
  · rw [children?, htoken, hchildren, Option.map_some]
  · rw [← hchildren]
    exact doc.children_pairwise i
  · exact h.children
  · exact hvalue.children_eq_nil
  · intro hkind
    have harray : doc.isArray i := by simp [isArray, kind?, htoken, hkind]
    rw [arrayCount?, if_pos harray, hchildren, h.children.length_eq]
    refine ⟨rfl, ?_⟩
    intro n
    rw [arrayElement?, if_pos harray, hchildren]
    exact rel_getElem? h.children n
  · intro hkind
    apply noArray_of_isArray
    simp [isArray, kind?, htoken, hkind]
  · intro hkind
    obtain ⟨members, hmembers⟩ := hvalue.exists_hasMembers hkind
    have hobject : doc.isObject i := by simp [isObject, kind?, htoken, hkind]
    refine ⟨members, hmembers, ?_, ?_, ?_, field?_of_hasMembers htext htokens hlength h hmembers⟩
    · rw [objectCount?, if_pos hobject, hchildren, h.children.length_eq, hmembers.children,
        length_flatMap_members, Nat.mul_div_cancel_left _ Nat.two_pos]
    · intro size n
      have hkey := rel_getElem? h.children (2 * n.val)
      rw [hmembers.children, (getElem?_flatMap_members members n).1, ← hmembers.children] at hkey
      rw [objectKey?, if_pos hobject, hchildren]
      exact comes_of_rel size _ hkey
    · intro size n
      have hvalue := rel_getElem? h.children (2 * n.val + 1)
      rw [hmembers.children, (getElem?_flatMap_members members n).2, ← hmembers.children] at hvalue
      rw [objectValue?, if_pos hobject, hchildren]
      exact comes_of_rel size _ hvalue
  · intro hkind
    apply noObject_of_isObject
    simp [isObject, kind?, htoken, hkind]

end Node

theorem navigation_follows_tree {text : Bytes} {found : List Token}
    (h : tokenize text = .ok found) :
    let doc : Document := ⟨text, found⟩
    ∃ tree, IsText text tree ∧ (∀ other, IsText text other → other = tree) ∧
      found = tree.nodes.map Tree.token ∧
      (∀ i, i < found.length ↔ ∃ node, tree.At i node) ∧
      (∀ i node, tree.At i node → doc.Follows tree i node) ∧
      ∀ i, found.length ≤ i →
        doc.token? i = none ∧ doc.text i = .error .noData ∧ doc.children? i = none ∧
          doc.NoArray i ∧ doc.NoObject i := by
  intro doc
  obtain ⟨hlength, tree, htext, rfl⟩ := isText_of_tokenize h
  refine ⟨tree, htext, ?_, tree.tokens_eq_map_nodes, ?_, ?_, ?_⟩
  · intro other hother
    exact hother.eq_of_tokenize htext h
  · intro i
    exact tree.exists_at_iff.symm
  · intro i node hnode
    exact follows_of_at htext rfl hlength hnode
  · intro i hi
    have htoken : doc.token? i = none := List.getElem?_eq_none hi
    refine ⟨htoken, ?_, ?_, ?_, ?_⟩
    · rw [Document.text, htoken]
    · rw [children?, htoken, Option.map_none]
    · apply noArray_of_isArray
      simp [isArray, kind?, htoken]
    · apply noObject_of_isObject
      simp [isObject, kind?, htoken]

theorem navigation_follows_tree_empty :
    let text := ascii "\x7b\"\":[ ],\"a\":[\"\",\x7b\x7d],\"\":1\x7d"
    ∃ found, tokenize text = .ok found ∧
      let doc : Document := ⟨text, found⟩
      (∃ tree node, IsText text tree ∧ tree.At 4 node ∧ doc.Follows tree 4 node) ∧
      doc.children? 0 = some [1, 2, 3, 4, 7, 8] ∧ doc.children? 4 = some [5, 6] ∧
      doc.field? 0 [] = some 2 ∧ doc.NoObject 9 ∧
      doc.objectValue? 0 (Fin.ofNat UInt64.size 2) = .ok (some 8) := by
  intro text
  let doc : Document := ⟨text, (tokenize text).toOption.getD []⟩
  have hfound : tokenize text = .ok doc.tokens := by decide +kernel
  obtain ⟨tree, htext, -, -, hcount, hfollows, hbehind⟩ := navigation_follows_tree hfound
  obtain ⟨node, hnode⟩ := (hcount 4).1 (by decide +kernel)
  refine ⟨doc.tokens, hfound, ⟨tree, node, htext, hnode, hfollows 4 node hnode⟩, ?_, ?_, ?_, ?_, ?_⟩
  · decide +kernel
  · decide +kernel
  · decide +kernel
  · exact (hbehind 9 (by decide +kernel)).2.2.2.2
  · decide +kernel

theorem objectKey?_overflows :
    let text := ascii "\x7b\"a\":1\x7d"
    let doc : Document := ⟨text, (tokenize text).toOption.getD []⟩
    tokenize text = .ok doc.tokens ∧ doc.objectCount? 0 = some 1 ∧
      doc.objectKey? 0 (Fin.ofNat UInt64.size 9223372036854775807) = .ok none ∧
      doc.objectKey? 0 (Fin.ofNat UInt64.size 9223372036854775808) = .error .overflow := by
  decide +kernel

end Document

end ClearSign.Json
