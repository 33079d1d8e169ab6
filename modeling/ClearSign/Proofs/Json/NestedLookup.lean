import ClearSign.Proofs.Json.Correspondence

/-!
This module contains the proof that the lookup of a key at any depth searches the tree of the text:
it passes the members of an object in turn, and everything inside of the value of a member before
the member itself. The value of the first member passed that has the key is the answer, and nothing
in the object is left out.
-/

namespace ClearSign.Json

@[elab_as_elim]
theorem Tree.induction {motive : Tree → Prop}
    (step : ∀ node : Tree, (∀ child ∈ node.children, motive child) → motive node)
    (node : Tree) : motive node := by
  apply step
  intro child hchild
  exact Tree.induction step child
termination_by sizeOf node
decreasing_by
  obtain ⟨token, children⟩ := node
  have hlt : sizeOf child < sizeOf children := List.sizeOf_lt_of_mem hchild
  rw [Tree.node.sizeOf_spec]
  omega

mutual

/--
The members of all objects in a tree, in the order in which a lookup at any depth compares their
keys: each member of an object comes behind the members inside of its own value, and before those
inside of the next one.
-/
def Tree.searched : Tree → List (Tree × Tree)
  | .node token children =>
    match token.kind with
    | .object => Forest.searchedMembers children
    | .array => Forest.searchedElements children
    | .string | .primitive => []

def Forest.searchedElements : Forest → List (Tree × Tree)
  | [] => []
  | tree :: trees => tree.searched ++ Forest.searchedElements trees

def Forest.searchedMembers : Forest → List (Tree × Tree)
  | key :: value :: trees => value.searched ++ (key, value) :: Forest.searchedMembers trees
  | _ => []

end

theorem Token.kind_of_not_isContainer {token : Token} (h : ¬ token.isContainer) :
    token.kind = .string ∨ token.kind = .primitive := by
  rw [isContainer] at h
  split at h
  · simp at h
  · simp at h
  · next hkind => exact .inl hkind
  · next hkind => exact .inr hkind

namespace Tree

def Contains (node : Tree) (member : Tree × Tree) : Prop :=
  ∃ inner ∈ node.nodes, ∃ members, inner.HasMembers members ∧ member ∈ members

def Mentions (source : Bytes) (node : Tree) (key : Bytes) : Prop :=
  ∃ member, node.Contains member ∧ member.1.content source = key

end Tree

theorem Forest.searchedElements_eq (trees : Forest) :
    searchedElements trees = trees.flatMap Tree.searched := by
  induction trees with
  | nil => simp [searchedElements]
  | cons tree trees ih => rw [searchedElements, List.flatMap_cons, ih]

theorem Forest.searchedMembers_eq (members : List (Tree × Tree)) :
    searchedMembers (members.flatMap fun member => [member.1, member.2]) =
      members.flatMap fun member => member.2.searched ++ [member] := by
  induction members with
  | nil => simp [searchedMembers]
  | cons member members ih =>
    rw [List.flatMap_cons, List.flatMap_cons, List.cons_append, List.cons_append, List.nil_append,
      searchedMembers, ih, List.append_assoc, List.singleton_append]

namespace Tree

variable {node : Tree}

theorem HasMembers.searched {members : List (Tree × Tree)} (h : node.HasMembers members) :
    node.searched = members.flatMap fun member => member.2.searched ++ [member] := by
  obtain ⟨token, children⟩ := node
  obtain ⟨hkind, hchildren, -⟩ := h
  rw [token_node] at hkind
  change children = _ at hchildren
  rw [Tree.searched, hkind]
  dsimp only
  rw [hchildren, Forest.searchedMembers_eq]

theorem searched_of_array (h : node.token.kind = .array) :
    node.searched = node.children.flatMap Tree.searched := by
  obtain ⟨token, children⟩ := node
  rw [token_node] at h
  rw [Tree.searched, h]
  exact Forest.searchedElements_eq children

theorem searched_of_leaf (h : node.token.kind = .string ∨ node.token.kind = .primitive) :
    node.searched = [] := by
  obtain ⟨token, children⟩ := node
  rw [token_node] at h
  rw [Tree.searched]
  rcases h with h | h
  · rw [h]
  · rw [h]

end Tree

theorem flatMap_members_injective {members others : List (α × α)}
    (h : (members.flatMap fun member => [member.1, member.2]) =
      others.flatMap fun member => [member.1, member.2]) : members = others := by
  induction members generalizing others with
  | nil =>
    cases others with
    | nil => rfl
    | cons other others => simp at h
  | cons member members ih =>
    cases others with
    | nil => simp at h
    | cons other others =>
      simp only [List.flatMap_cons, List.cons_append, List.nil_append, List.cons.injEq] at h
      obtain ⟨hkey, hvalue, hrest⟩ := h
      rw [Prod.ext hkey hvalue, ih hrest]

theorem Forest.mem_nodes {trees : Forest} {inner : Tree} :
    inner ∈ nodes trees ↔ ∃ tree ∈ trees, inner ∈ tree.nodes := by
  induction trees with
  | nil => simp
  | cons tree trees ih => simp [ih]

namespace Tree

variable {node : Tree} {member : Tree × Tree} {members : List (Tree × Tree)}

theorem HasMembers.unique {others : List (Tree × Tree)} (h : node.HasMembers members)
    (hothers : node.HasMembers others) : members = others := by
  apply flatMap_members_injective
  rw [← h.children, ← hothers.children]

theorem HasMembers.mem_children (h : node.HasMembers members) (hmember : member ∈ members) :
    member.1 ∈ node.children ∧ member.2 ∈ node.children := by
  rw [h.children, List.mem_flatMap, List.mem_flatMap]
  exact ⟨⟨member, hmember, by simp⟩, ⟨member, hmember, by simp⟩⟩

theorem contains_iff : node.Contains member ↔
    (∃ members, node.HasMembers members ∧ member ∈ members) ∨
      ∃ child ∈ node.children, child.Contains member := by
  obtain ⟨token, children⟩ := node
  simp only [Contains, nodes_node, List.mem_cons, exists_eq_or_imp, Forest.mem_nodes]
  apply or_congr_right
  constructor
  · rintro ⟨inner, ⟨child, hchild, hinner⟩, hmember⟩
    exact ⟨child, hchild, inner, hinner, hmember⟩
  · rintro ⟨child, hchild, inner, hinner, hmember⟩
    exact ⟨inner, ⟨child, hchild, hinner⟩, hmember⟩

theorem contains_of_array (h : node.token.kind = .array) :
    node.Contains member ↔ ∃ child ∈ node.children, child.Contains member := by
  rw [contains_iff, or_iff_right]
  rintro ⟨members, hmembers, -⟩
  rw [hmembers.object] at h
  contradiction

theorem not_contains_of_leaf (h : node.token.kind = .string ∨ node.token.kind = .primitive)
    (hchildren : node.children = []) : ¬ node.Contains member := by
  rw [contains_iff, hchildren]
  rintro (⟨members, hmembers, -⟩ | ⟨child, hchild, -⟩)
  · rw [hmembers.object] at h
    simp at h
  · simp at hchild

end Tree

theorem Grammar.value_of_mem_children {node child : Tree} (h : Grammar .value pos text [node])
    (hchild : child ∈ node.children) : ∃ pos text, Grammar .value pos text [child] := by
  obtain ⟨token, children⟩ := node
  have hself : child ∈ child.nodes := by
    cases child with
    | node token inside => simp
  have hmem : child ∈ Forest.nodes [.node token children] := by
    simp only [Forest.nodes_cons, Forest.nodes_nil, List.append_nil, Tree.nodes_node]
    exact .tail _ (Forest.mem_nodes.2 ⟨child, hchild, hself⟩)
  obtain ⟨i, hi⟩ := List.mem_iff_getElem?.1 hmem
  rw [← Forest.subtree?_eq_getElem?] at hi
  obtain ⟨before, inside, after, -, hinside⟩ := h.exists_value hi
  exact ⟨_, inside, hinside⟩

theorem Grammar.contains_of_hasMembers {node : Tree} {members : List (Tree × Tree)}
    {member : Tree × Tree} (h : Grammar .value pos text [node]) (hmembers : node.HasMembers members) :
    node.Contains member ↔ ∃ found ∈ members, found.2.Contains member ∨ member = found := by
  have hkeys : ∀ found ∈ members, ¬ found.1.Contains member := by
    intro found hfound
    obtain ⟨pos, text, hkey⟩ := h.value_of_mem_children (hmembers.mem_children hfound).1
    have hstring := hmembers.keys found hfound
    exact Tree.not_contains_of_leaf (.inl hstring) (hkey.children_eq_nil (.inl hstring))
  rw [Tree.contains_iff]
  constructor
  · rintro (⟨others, hothers, hmember⟩ | ⟨child, hchild, hmember⟩)
    · rw [hothers.unique hmembers] at hmember
      exact ⟨member, hmember, .inr rfl⟩
    · rw [hmembers.children, List.mem_flatMap] at hchild
      obtain ⟨found, hfound, hchild⟩ := hchild
      simp only [List.mem_cons, List.not_mem_nil, or_false] at hchild
      rcases hchild with rfl | rfl
      · exact absurd hmember (hkeys found hfound)
      · exact ⟨found, hfound, .inl hmember⟩
  · rintro ⟨found, hfound, hmember | rfl⟩
    · exact .inr ⟨found.2, (hmembers.mem_children hfound).2, hmember⟩
    · exact .inl ⟨members, hmembers, hfound⟩

theorem Grammar.mem_searched_iff {node : Tree} {member : Tree × Tree}
    (h : Grammar .value pos text [node]) : member ∈ node.searched ↔ node.Contains member := by
  induction node using Tree.induction generalizing pos text with
  | step node ih =>
    have hinside : ∀ child ∈ node.children, (member ∈ child.searched ↔ child.Contains member) := by
      intro child hchild
      obtain ⟨pos, text, hvalue⟩ := h.value_of_mem_children hchild
      exact ih child hchild hvalue
    have hleaf (hkind : node.token.kind = .string ∨ node.token.kind = .primitive) :
        member ∈ node.searched ↔ node.Contains member := by
      rw [Tree.searched_of_leaf hkind]
      exact iff_of_false List.not_mem_nil
        (Tree.not_contains_of_leaf hkind (h.children_eq_nil hkind))
    cases hkind : node.token.kind with
    | object =>
      obtain ⟨members, hmembers⟩ := h.exists_hasMembers hkind
      rw [hmembers.searched, h.contains_of_hasMembers hmembers, List.mem_flatMap]
      apply exists_congr
      intro found
      rw [List.mem_append, List.mem_singleton]
      apply and_congr_right
      intro hfound
      rw [hinside found.2 (hmembers.mem_children hfound).2]
    | array =>
      rw [Tree.searched_of_array hkind, Tree.contains_of_array hkind, List.mem_flatMap]
      apply exists_congr
      intro child
      exact and_congr_right (hinside child)
    | string => exact hleaf (.inl hkind)
    | primitive => exact hleaf (.inr hkind)

namespace Document

variable {doc : Document} {key : Bytes}

theorem search?_of_object (h : doc.kind? i = some .object) :
    doc.search? key i = (doc.members i).findSome? fun member =>
      (doc.search? key member.2).or
        (if doc.isStringOf member.1 key then some member.2 else none) := by
  rw [search?, h]
  dsimp only
  simp only [Option.orElse_eq_orElse, Option.orElse_eq_or]
  rw [List.findSome?_subtype (g := fun member => (doc.search? key member.2).or
    (if doc.isStringOf member.1 key then some member.2 else none)) (by simp), List.unattach_attach]

theorem search?_of_array (h : doc.kind? i = some .array) :
    doc.search? key i = (doc.children i).findSome? (doc.search? key) := by
  rw [search?, h]
  dsimp only
  rw [List.findSome?_subtype (g := doc.search? key) (by simp), List.unattach_attach]

theorem search?_of_leaf (h : doc.kind? i = some .string ∨ doc.kind? i = some .primitive) :
    doc.search? key i = none := by
  rw [search?]
  rcases h with h | h
  · rw [h]
  · rw [h]

theorem nestedField?_of_isObject (h : doc.isObject i) : doc.nestedField? i key =
    (doc.members i).findSome? fun member =>
      (doc.search? key member.2).or
        (if doc.isStringOf member.1 key then some member.2 else none) := by
  rw [nestedField?, if_pos h]
  exact search?_of_object (by simpa [isObject] using h)

theorem field?_of_isObject (h : doc.isObject i) : doc.field? i key =
    (doc.members i).findSome? fun member =>
      if doc.isStringOf member.1 key then some member.2 else none := by
  rw [field?, if_pos h, ← List.findSome?_guard, List.map_findSome?]
  congr
  funext member
  rw [Function.comp_apply, Option.guard]
  split
  · rfl
  · rfl

theorem isSome_nestedField?_of_field? (h : (doc.field? i key).isSome) :
    (doc.nestedField? i key).isSome := by
  have hobject : doc.isObject i := by
    by_contra hobject
    rw [field?, if_neg hobject] at h
    contradiction
  rw [field?_of_isObject hobject, List.findSome?_isSome_iff] at h
  rw [nestedField?_of_isObject hobject, List.findSome?_isSome_iff]
  obtain ⟨member, hmember, hfound⟩ := h
  refine ⟨member, hmember, ?_⟩
  rw [Option.isSome_or, hfound, Bool.or_true]

theorem nestedField?_eq_field? (h : doc.isObject i)
    (hvalues : ∀ member ∈ doc.members i, doc.search? key member.2 = none) :
    doc.nestedField? i key = doc.field? i key := by
  rw [nestedField?_of_isObject h, field?_of_isObject h]
  apply findSome?_congr
  intro member hmember
  rw [hvalues member hmember, Option.none_or]

section Node

variable {tree node : Tree} {i : Nat}
variable (htext : IsText doc.source tree) (htokens : doc.tokens = tree.tokens)
  (hlength : doc.source.length < Limit.jsonLength)

include htext htokens hlength

theorem kind?_of_at (h : tree.At i node) : doc.kind? i = some node.token.kind := by
  rw [kind?, (children_of_at htext htokens hlength h).1, Option.map_some]

theorem search?_of_at (h : tree.At i node) (key : Bytes) :
    Option.Rel (fun j member => tree.At j member.2) (doc.search? key i)
      (node.searched.find? fun member => member.1.content doc.source == key) := by
  -- The indices of children are found by their tokens, so it is the node that gets smaller.
  induction node using Tree.induction generalizing i with
  | step node ih =>
    have hfound := kind?_of_at htext htokens hlength h
    obtain ⟨before, value, after, -, hvalue⟩ := htext.grammar_of_at h
    have hleaf (hkind : node.token.kind = .string ∨ node.token.kind = .primitive) :
        Option.Rel (fun j member => tree.At j member.2) (doc.search? key i)
          (node.searched.find? fun member => member.1.content doc.source == key) := by
      rw [Tree.searched_of_leaf hkind, search?_of_leaf (by simpa [hfound] using hkind)]
      exact .none
    cases hkind : node.token.kind with
    | object =>
      obtain ⟨members, hmembers⟩ := hvalue.exists_hasMembers hkind
      obtain ⟨-, hkeyed⟩ := members_of_hasMembers htext htokens hlength h hmembers
      rw [search?_of_object (by rw [hfound, hkind]), hmembers.searched, List.find?_flatMap]
      apply rel_findSome? hkeyed
      intro found hfound member hmember
      rw [List.find?_append, List.find?_singleton,
        isStringOf_of_at htext htokens hlength hmember.1.1 hmember.2]
      apply rel_or
      · exact ih found.2 (hmembers.mem_children hfound).2 hmember.1.2
      · split
        · exact .some hmember.1.2
        · exact .none
    | array =>
      rw [search?_of_array (by rw [hfound, hkind]), Tree.searched_of_array hkind,
        List.find?_flatMap, (children_of_at htext htokens hlength h).2]
      apply rel_findSome? h.children
      intro child hchild j hj
      exact ih child hchild hj
    | string => exact hleaf (.inl hkind)
    | primitive => exact hleaf (.inr hkind)

theorem search?_eq_none_iff (h : tree.At i node) (key : Bytes) :
    doc.search? key i = none ↔ ¬ node.Mentions doc.source key := by
  obtain ⟨before, value, after, -, hvalue⟩ := htext.grammar_of_at h
  rw [eq_none_iff_of_rel (search?_of_at htext htokens hlength h key), List.find?_eq_none,
    Tree.Mentions]
  constructor
  · rintro hnone ⟨member, hmember, hkey⟩
    apply hnone member (hvalue.mem_searched_iff.2 hmember)
    rw [beq_iff_eq]
    exact hkey
  · intro hnone member hmember hkey
    rw [beq_iff_eq] at hkey
    exact hnone ⟨member, hvalue.mem_searched_iff.1 hmember, hkey⟩

theorem exists_at_of_isObject (h : doc.isObject i) :
    ∃ node members, tree.At i node ∧ node.HasMembers members := by
  have hkind : doc.kind? i = some .object := by simpa [isObject] using h
  obtain ⟨token, htoken, -⟩ := Option.map_eq_some_iff.1 hkind
  obtain ⟨node, hnode⟩ := tree.exists_at_iff.2 (htokens ▸ (List.getElem?_eq_some_iff.1 htoken).1)
  obtain ⟨before, value, after, -, hvalue⟩ := htext.grammar_of_at hnode
  rw [kind?_of_at htext htokens hlength hnode, Option.some.injEq] at hkind
  obtain ⟨members, hmembers⟩ := hvalue.exists_hasMembers hkind
  exact ⟨node, members, hnode, hmembers⟩

theorem nestedField?_eq_field?_of_at {members : List (Tree × Tree)} (h : tree.At i node)
    (hmembers : node.HasMembers members)
    (hvalues : ∀ member ∈ members,
      member.2.token.isContainer → ¬ member.2.Mentions doc.source key) :
    doc.nestedField? i key = doc.field? i key := by
  obtain ⟨hobject, hkeyed⟩ := members_of_hasMembers htext htokens hlength h hmembers
  apply nestedField?_eq_field? hobject
  refine forall_mem_of_forall₂ hkeyed ?_
  intro found hfound member hmember
  have hvalue : tree.At member.2 found.2 := hmember.1.2
  by_cases hcontainer : found.2.token.isContainer
  · exact (search?_eq_none_iff htext htokens hlength hvalue key).2 (hvalues found hfound hcontainer)
  · apply search?_of_leaf
    rw [kind?_of_at htext htokens hlength hvalue, Option.some.injEq, Option.some.injEq]
    exact Token.kind_of_not_isContainer hcontainer

end Node

theorem nested_lookup_searches_tree {text : Bytes} {found : List Token}
    (h : tokenize text = .ok found) :
    let doc : Document := ⟨text, found⟩
    ∃ tree, IsText text tree ∧ (∀ other, IsText text other → other = tree) ∧
      found = tree.nodes.map Tree.token ∧
      ∀ i, doc.isObject i → ∃ node members, tree.At i node ∧ node.HasMembers members ∧
        node.searched = members.flatMap (fun member => member.2.searched ++ [member]) ∧
        (∀ member, member ∈ node.searched ↔ node.Contains member) ∧
        ∀ key,
          Option.Rel (fun j member => tree.At j member.2) (doc.nestedField? i key)
            (node.searched.find? fun member => member.1.content text == key) ∧
          (doc.nestedField? i key = none ↔ ¬ node.Mentions text key) ∧
          ((∀ member ∈ members,
              member.2.token.isContainer → ¬ member.2.Mentions text key) →
            doc.nestedField? i key = doc.field? i key) ∧
          ((doc.field? i key).isSome → (doc.nestedField? i key).isSome) := by
  intro doc
  obtain ⟨hlength, tree, htext, rfl⟩ := isText_of_tokenize h
  refine ⟨tree, htext, ?_, tree.tokens_eq_map_nodes, ?_⟩
  · intro other hother
    exact hother.eq_of_tokenize htext h
  intro i hobject
  have htokens : doc.tokens = tree.tokens := rfl
  obtain ⟨node, members, hnode, hmembers⟩ := exists_at_of_isObject htext htokens hlength hobject
  obtain ⟨before, value, after, -, hvalue⟩ := htext.grammar_of_at hnode
  refine ⟨node, members, hnode, hmembers, hmembers.searched, ?_, ?_⟩
  · intro member
    exact hvalue.mem_searched_iff
  intro key
  have hsearch : doc.nestedField? i key = doc.search? key i := by rw [nestedField?, if_pos hobject]
  refine ⟨?_, ?_, ?_, isSome_nestedField?_of_field?⟩
  · rw [hsearch]
    exact search?_of_at htext htokens hlength hnode key
  · rw [hsearch]
    exact search?_eq_none_iff htext htokens hlength hnode key
  · exact nestedField?_eq_field?_of_at htext htokens hlength hnode hmembers

theorem nested_lookup_searches_tree_arrays :
    let text := ascii "\x7b\"list\":[[1,\x7b\"x\":\x7b\"id\":7\x7d,\"id\":8\x7d]],\"id\":2\x7d"
    ∃ found, tokenize text = .ok found ∧
      let doc : Document := ⟨text, found⟩
      doc.nestedField? 0 (ascii "id") = some 9 ∧ doc.field? 0 (ascii "id") = some 13 ∧
      doc.nestedField? 0 (ascii "list") = some 2 ∧ doc.nestedField? 0 (ascii "li") = none ∧
      ∃ tree node, IsText text tree ∧ tree.At 0 node ∧ ¬ node.Mentions text (ascii "li") ∧
        ∃ member, node.Contains member ∧ member.1.content text = ascii "id" ∧
          tree.At 9 member.2 := by
  intro text
  let doc : Document := ⟨text, (tokenize text).toOption.getD []⟩
  have htokenize : tokenize text = .ok doc.tokens := by decide +kernel
  have hid : doc.nestedField? 0 (ascii "id") = some 9 := by decide +kernel
  have hli : doc.nestedField? 0 (ascii "li") = none := by decide +kernel
  obtain ⟨tree, htext, -, -, hobjects⟩ := nested_lookup_searches_tree htokenize
  obtain ⟨node, members, hnode, -, -, hsearched, hkeys⟩ := hobjects 0 (by decide +kernel)
  refine ⟨doc.tokens, htokenize, hid, by decide +kernel, by decide +kernel, hli, tree, node, htext,
    hnode, (hkeys (ascii "li")).2.1.1 hli, ?_⟩
  have hfound := (hkeys (ascii "id")).1
  rw [hid] at hfound
  generalize hmember : node.searched.find? _ = found at hfound
  cases hfound with
  | some hvalue =>
    have hkey := List.find?_some hmember
    exact ⟨_, (hsearched _).1 (List.mem_of_find?_eq_some hmember), eq_of_beq hkey, hvalue⟩

end Document

end ClearSign.Json
