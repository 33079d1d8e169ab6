import ClearSign.Proofs.Json.Navigation
import ClearSign.Proofs.Transaction

/-!
This module contains what the tokens of a text say about it: they are the values and keys of its
tree in preorder, and each of them spans the bytes of its value or key. Two of them are apart, or
one is properly inside of the other.
-/

namespace ClearSign.Json

mutual

def Tree.nodes : Tree → List Tree
  | .node token children => .node token children :: Forest.nodes children

def Forest.nodes : Forest → List Tree
  | [] => []
  | tree :: trees => tree.nodes ++ Forest.nodes trees

end

namespace Tree

def token : Tree → Token
  | .node token _ => token

@[simp]
theorem token_node (token : Token) (children : Forest) : (node token children).token = token := rfl

@[simp]
theorem nodes_node (token : Token) (children : Forest) :
    (node token children).nodes = node token children :: Forest.nodes children := by
  rw [nodes]

end Tree

namespace Forest

@[simp]
theorem nodes_nil : nodes [] = [] := by
  rw [nodes]

@[simp]
theorem nodes_cons (tree : Tree) (trees : Forest) :
    nodes (tree :: trees) = tree.nodes ++ nodes trees := by
  rw [nodes]

@[simp]
theorem nodes_append (first second : Forest) :
    nodes (first ++ second) = nodes first ++ nodes second := by
  induction first with
  | nil => simp
  | cons tree trees ih => simp [ih]

end Forest

mutual

theorem Tree.tokens_eq_map_nodes (tree : Tree) : tree.tokens = tree.nodes.map Tree.token := by
  cases tree with
  | node token children => simp [Forest.tokens_eq_map_nodes children]

theorem Forest.tokens_eq_map_nodes (trees : Forest) :
    Forest.tokens trees = (Forest.nodes trees).map Tree.token := by
  cases trees with
  | nil => simp
  | cons tree trees =>
    simp [Tree.tokens_eq_map_nodes tree, Forest.tokens_eq_map_nodes trees]

end

def Delimited (after : Bytes) : Prop :=
  ∀ c ∈ after.head?, Byte.endsPrimitive c

/--
What stands in a text where the token of a node points to, positions being those of the token as it
is stored. The entries of a container lie between its ends, and their trees are its children.
-/
inductive Tree.Stands (text : Bytes) : Tree → Prop where
  | string (before inside after : Bytes) (token : Token) :
      text = before ++ quoted inside ++ after → Contents inside → token.kind = .string →
      token.start = before.length + 1 → token.stop = before.length + 1 + inside.length →
      Stands text (.node token [])
  | primitive (before inside after : Bytes) (token : Token) :
      text = before ++ inside ++ after → Primitive inside → Delimited after →
      token.kind = .primitive → token.start = before.length →
      token.stop = before.length + inside.length → Stands text (.node token [])
  | container (container : Container) (before inside after : Bytes) (token : Token)
      (children : Forest) :
      text = before ++ ([container.opening] ++ inside ++ [container.closing]) ++ after →
      (Blanks inside ∧ children = [] ∨
        Grammar (.entries container) (before.length + 1) inside children) →
      token.kind = container.kind → token.start = before.length →
      token.stop = before.length + inside.length + 2 → Stands text (.node token children)

namespace Delimited

theorem nil : Delimited [] := by
  simp [Delimited]

theorem cons {c : UInt8} (h : Byte.endsPrimitive c) (after : Bytes) : Delimited (c :: after) := by
  simpa [Delimited] using h

theorem blanks_append (h : Blanks blank) (hafter : Delimited after) :
    Delimited (blank ++ after) := by
  cases blank with
  | nil => exact hafter
  | cons c blank => exact cons (Byte.endsPrimitive_of_isBlank (h.isBlank c (by simp))) _

end Delimited

theorem Grammar.stands {part : Part} (h : Grammar part pos text trees) {whole : Bytes}
    (hlength : whole.length < UInt16.size) (before after : Bytes)
    (hwhole : whole = before ++ text ++ after) (hpos : before.length = pos)
    (hafter : Delimited after) : ∀ node ∈ Forest.nodes trees, node.Stands whole := by
  induction h generalizing before after with
  | string pos text hcontents =>
    have hbound := congrArg List.length hwhole
    simp only [quoted, List.length_append, List.length_singleton] at hbound
    simp only [Tree.leaf, Forest.nodes_cons, Tree.nodes_node, Forest.nodes_nil, List.append_nil,
      List.forall_mem_singleton]
    apply Tree.Stands.string before text after _ hwhole hcontents rfl
    · rw [Token.start_closed (by omega), hpos]
    · rw [Token.stop_closed (by omega), hpos]
  | primitive pos text hprimitive =>
    have hbound := congrArg List.length hwhole
    simp only [List.length_append] at hbound
    simp only [Tree.leaf, Forest.nodes_cons, Tree.nodes_node, Forest.nodes_nil, List.append_nil,
      List.forall_mem_singleton]
    apply Tree.Stands.primitive before text after _ hwhole hprimitive hafter rfl
    · rw [Token.start_closed (by omega), hpos]
    · rw [Token.stop_closed (by omega), hpos]
  | empty container pos blank hblank =>
    have hbound := congrArg List.length hwhole
    simp only [List.length_append, List.length_singleton] at hbound
    simp only [Forest.nodes_cons, Tree.nodes_node, Forest.nodes_nil, List.append_nil,
      List.forall_mem_singleton]
    apply Tree.Stands.container container before blank after _ _ hwhole (.inl ⟨hblank, rfl⟩) rfl
    · rw [Token.start_closed (by omega), hpos]
    · rw [Token.stop_closed (by omega), hpos]
  | filled container pos text trees htrees ih =>
    have hbound := congrArg List.length hwhole
    simp only [List.length_append, List.length_singleton] at hbound
    simp only [Forest.nodes_cons, Tree.nodes_node, Forest.nodes_nil, List.append_nil,
      List.forall_mem_cons]
    constructor
    · apply Tree.Stands.container container before text after _ _ hwhole (.inr (hpos ▸ htrees)) rfl
      · rw [Token.start_closed (by omega), hpos]
      · rw [Token.stop_closed (by omega), hpos]
    · apply ih (before ++ [container.opening]) ([container.closing] ++ after)
      · simp [hwhole]
      · simp [hpos]
      · exact Delimited.cons (Byte.endsPrimitive_closing container) after
  | element pos first text last trees hfirst hvalue hlast ih =>
    apply ih (before ++ first) (last ++ after)
    · simp [hwhole]
    · simp [hpos]
    · exact hafter.blanks_append hlast
  | member pos first key gap text trees hfirst hkey hgap hvalue ih =>
    have hbound := congrArg List.length hwhole
    simp only [quoted, List.length_append, List.length_singleton] at hbound
    simp only [Tree.leaf, Forest.nodes_cons, Tree.nodes_node, Forest.nodes_nil,
      List.singleton_append, List.forall_mem_cons]
    constructor
    · apply Tree.Stands.string (before ++ first) key (gap ++ [Byte.colon] ++ text ++ after) _ _ hkey
        rfl
      · rw [Token.start_closed (by omega), List.length_append, hpos]
      · rw [Token.stop_closed (by omega), List.length_append, hpos]
      · simp [hwhole]
    · apply ih (before ++ (first ++ quoted key ++ gap ++ [Byte.colon])) after
      · simp [hwhole]
      · simp only [quoted, List.length_append, List.length_singleton]
        omega
      · exact hafter
  | one container pos text trees hentry ih => exact ih before after hwhole hpos hafter
  | more container pos text next trees nextTrees hentries hentry ih ihNext =>
    rw [Forest.nodes_append, List.forall_mem_append]
    constructor
    · apply ih before ([Byte.comma] ++ next ++ after)
      · simp [hwhole]
      · exact hpos
      · exact Delimited.cons rfl _
    · apply ihNext (before ++ text ++ [Byte.comma]) after
      · simp [hwhole]
      · simp only [List.length_append, List.length_singleton]
        omega
      · exact hafter

def Token.Precedes (token other : Token) : Prop :=
  token.start < other.start ∧ (token.stop ≤ other.start ∨ other.stop < token.stop)

theorem Token.Within.bounds {token : Token} (h : token.Within low high)
    (hhigh : high < UInt16.size) : low ≤ token.start ∧ token.start ≤ token.stop ∧
      token.stop ≤ high := by
  obtain ⟨kind, start, stop, rfl, hlow, horder, hstop⟩ := h
  rw [start_closed (by omega), stop_closed (by omega)]
  exact ⟨hlow, horder, hstop⟩

theorem Grammar.pairwise_precedes {part : Part} (h : Grammar part pos text trees)
    (hlength : pos + text.length < UInt16.size) : trees.tokens.Pairwise Token.Precedes := by
  induction h with
  | string => simp [Tree.leaf]
  | primitive => simp [Tree.leaf]
  | empty => simp
  | filled container pos text trees htrees ih =>
    simp only [List.length_append, List.length_singleton] at hlength
    simp only [Forest.tokens_cons, Tree.tokens_node, Forest.tokens_nil, List.append_nil,
      List.pairwise_cons]
    constructor
    · intro other hother
      have hbounds := (htrees.within other hother).bounds (by omega)
      rw [Token.Precedes, Token.start_closed (by omega), Token.stop_closed (by omega)]
      omega
    · exact ih (by omega)
  | element pos before text after trees hbefore hvalue hafter ih =>
    simp only [List.length_append] at hlength
    exact ih (by omega)
  | member pos before key gap text trees hbefore hkey hgap hvalue ih =>
    simp only [quoted, List.length_append, List.length_singleton] at hlength
    simp only [Tree.leaf, Forest.tokens_cons, Tree.tokens_node, Forest.tokens_nil,
      List.singleton_append, List.pairwise_cons]
    constructor
    · intro other hother
      have hbounds := (hvalue.within other hother).bounds (by omega)
      rw [Token.Precedes, Token.start_closed (by omega), Token.stop_closed (by omega)]
      omega
    · exact ih (by omega)
  | one container pos text trees hentry ih => exact ih hlength
  | more container pos text next trees nextTrees hentries hentry ih ihNext =>
    simp only [List.length_append, List.length_singleton] at hlength
    rw [Forest.tokens_append, List.pairwise_append]
    refine ⟨ih (by omega), ihNext (by omega), ?_⟩
    intro token htoken other hother
    have hbefore := (hentries.within token htoken).bounds (by omega)
    have hbehind := (hentry.within other hother).bounds (by omega)
    rw [Token.Precedes]
    omega

theorem append_inj_of_forall {p : α → Bool} {first first' second second' : List α}
    (h : first ++ second = first' ++ second') (hfirst : ∀ a ∈ first, p a)
    (hfirst' : ∀ a ∈ first', p a) (hsecond : ∀ a ∈ second, ¬ p a)
    (hsecond' : ∀ a ∈ second', ¬ p a) : first = first' ∧ second = second' := by
  have hkept := congrArg (List.filter p) h
  rw [List.filter_append, List.filter_append, List.filter_eq_self.2 hfirst,
    List.filter_eq_self.2 hfirst', List.filter_eq_nil_iff.2 hsecond,
    List.filter_eq_nil_iff.2 hsecond', List.append_nil, List.append_nil] at hkept
  subst hkept
  exact ⟨rfl, List.append_cancel_left h⟩

theorem Laid.eq_of_tokens_eq (h : Laid low high trees) (h' : Laid low' high' others)
    (hhigh : high < UInt16.size) (hhigh' : high' < UInt16.size)
    (heq : trees.tokens = others.tokens) : trees = others := by
  -- What lies inside of a token begins before its end, so that the tokens alone tell the trees.
  induction h generalizing low' high' others with
  | nil =>
    cases h' with
    | nil => rfl
    | cons => simp at heq
  | cons low inner mid high kind start stop children trees hlow hinner hchildren hmid hstop hleaf
      htrees ihChildren ihTrees =>
    cases h' with
    | nil => simp at heq
    | cons _ inner' mid' _ kind' start' stop' children' trees' hlow' hinner' hchildren' hmid' hstop'
        hleaf' htrees' =>
      have hmidHigh := htrees.low_le_high
      have hmidHigh' := htrees'.low_le_high
      simp only [Forest.tokens_cons, Tree.tokens_node, List.cons_append, List.cons.injEq] at heq
      obtain ⟨htoken, hrest⟩ := heq
      have hsame : stop = stop' := by
        have hstops := congrArg Token.stop htoken
        rwa [Token.stop_closed (by omega), Token.stop_closed (by omega)] at hstops
      subst hsame
      have hsplit := append_inj_of_forall (p := fun token => token.start < stop) hrest
      simp only [decide_eq_true_eq, Nat.not_lt] at hsplit
      obtain ⟨hinside, hbehind⟩ := hsplit
        (fun token htoken => (hchildren.start_lt (by omega) token htoken).2)
        (fun token htoken => (hchildren'.start_lt (by omega) token htoken).2)
        (fun token htoken => Nat.le_trans hstop (htrees.start_lt hhigh token htoken).1)
        (fun token htoken => Nat.le_trans hstop' (htrees'.start_lt hhigh' token htoken).1)
      rw [htoken, ihChildren hchildren' (by omega) (by omega) hinside,
        ihTrees htrees' hhigh hhigh' hbehind]

theorem IsText.unique {text : Bytes} {tree other : Tree} (htext : IsText text tree)
    (hother : IsText text other) (hlength : text.length < Limit.jsonLength)
    (htokens : tree.tokens = other.tokens) : tree = other := by
  have hsize : 0 + text.length < UInt16.size := by
    rw [Nat.zero_add]
    exact Nat.lt_trans hlength (by decide)
  have heq := (Grammar.laid htext).eq_of_tokens_eq (Grammar.laid hother) hsize hsize
    (by simp [htokens])
  simpa using heq

end ClearSign.Json

namespace ClearSign.Transaction

open Json

theorem perform_readSource_stale (device : Device) (htokens : tokenize source = .ok found)
    (tx : Transaction) (stale : List Token) :
    (readSource device source).perform { tx with tokens := stale } =
      (readSource device source).perform tx := by
  simp only [readSource, htokens, Attempt.perform_bind, Attempt.perform_lift_ok,
    Attempt.perform_modify]

theorem tokens_readSource (device : Device) (htokens : tokenize source = .ok found)
    (tx : Transaction) : ((readSource device source).perform tx).2.tokens = found := by
  simp only [readSource, htokens, Attempt.perform_bind, Attempt.perform_lift_ok,
    Attempt.perform_modify]
  rfl

theorem tokens_are_preorder {text : Bytes} {found : List Token} (h : tokenize text = .ok found) :
    (∃ tree, IsText text tree ∧ (∀ other, IsText text other → other = tree) ∧
      found = tree.nodes.map Tree.token ∧ (∀ node ∈ tree.nodes, node.Stands text)) ∧
    (∀ token ∈ found, token.isOpen = false ∧ token.start ≤ token.stop ∧
      token.stop ≤ text.length) ∧
    found.Pairwise Token.Precedes ∧
    (∀ device tx, ((readSource device text).perform tx).2.tokens = found) ∧
    (∀ device tx stale, (readSource device text).perform { tx with tokens := stale } =
      (readSource device text).perform tx) := by
  obtain ⟨hlength, tree, htext, rfl⟩ := isText_of_tokenize h
  have hsize : text.length < UInt16.size := Nat.lt_trans hlength (by decide)
  have hforest : Forest.nodes [tree] = tree.nodes := by simp
  have htokens : Forest.tokens [tree] = tree.tokens := by simp
  refine ⟨⟨tree, htext, ?_, tree.tokens_eq_map_nodes, ?_⟩, ?_, ?_, ?_, ?_⟩
  · intro other hother
    apply hother.unique htext hlength
    rcases tokenize_of_isText hother hlength with ⟨hok, -⟩ | ⟨herror, -⟩ | ⟨herror, -⟩
    · rw [h] at hok
      exact (Except.ok.inj hok).symm
    · rw [h] at herror
      contradiction
    · rw [h] at herror
      contradiction
  · rw [← hforest]
    exact Grammar.stands htext hsize [] [] (by simp) rfl .nil
  · intro token htoken
    rw [← htokens] at htoken
    have hwithin := Grammar.within htext token htoken
    rw [Nat.zero_add] at hwithin
    exact ⟨hwithin.isOpen_eq_false hlength, (hwithin.bounds hsize).2⟩
  · rw [← htokens]
    exact Grammar.pairwise_precedes htext (by omega)
  · intro device tx
    exact tokens_readSource device h tx
  · intro device tx stale
    exact perform_readSource_stale device h tx stale

theorem tokens_are_preorder_empty :
    let text := ascii "\x7b\"\":[ ],\"a\":-1\x7d"
    let found : List Token := [.closed .object 0 15, .closed .string 2 2, .closed .array 4 7,
      .closed .string 9 10, .closed .primitive 12 14]
    tokenize text = .ok found ∧
      (∃ tree, IsText text tree ∧ found = tree.nodes.map Tree.token ∧
        ∀ node ∈ tree.nodes, node.Stands text) ∧
      found.Pairwise Token.Precedes := by
  intro text found
  have htokens : tokenize text = .ok found := by
    rfl
  obtain ⟨⟨tree, htext, -, hnodes, hstands⟩, -, hprecedes, -⟩ := tokens_are_preorder htokens
  exact ⟨htokens, ⟨tree, htext, hnodes, hstands⟩, hprecedes⟩

end ClearSign.Transaction
