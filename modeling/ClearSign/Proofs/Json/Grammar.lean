import ClearSign.Json.Scanner

/-!
This module contains the grammar of the JSON texts that are read, together with the tree of the
values and keys of such a text. Nothing in it depends on how a text is scanned.
-/

namespace ClearSign.Json

/--
A value or key with the values and keys directly inside of it. The members of an object are its keys
and values in turn.
-/
inductive Tree where
  | node (token : Token) (children : List Tree)

abbrev Forest := List Tree

mutual

def Tree.tokens : Tree → List Token
  | .node token children => token :: Forest.tokens children

def Forest.tokens : Forest → List Token
  | [] => []
  | tree :: trees => tree.tokens ++ Forest.tokens trees

end

mutual

def Tree.height : Tree → Nat
  | .node token children => (if token.isContainer then 1 else 0) + Forest.height children

def Forest.height : Forest → Nat
  | [] => 0
  | tree :: trees => max tree.height (Forest.height trees)

end

namespace Tree

def leaf (kind : Token.Kind) (start stop : Nat) : Tree :=
  .node (.closed kind start stop) []

@[simp]
theorem tokens_node (token : Token) (children : Forest) :
    (node token children).tokens = token :: Forest.tokens children := by
  rw [tokens]

@[simp]
theorem height_node (token : Token) (children : Forest) :
    (node token children).height =
      (if token.isContainer then 1 else 0) + Forest.height children := by
  rw [height]

end Tree

namespace Forest

@[simp]
theorem tokens_nil : tokens [] = [] := by
  rw [tokens]

@[simp]
theorem tokens_cons (tree : Tree) (trees : Forest) :
    tokens (tree :: trees) = tree.tokens ++ tokens trees := by
  rw [tokens]

@[simp]
theorem tokens_append (first second : Forest) :
    tokens (first ++ second) = tokens first ++ tokens second := by
  induction first with
  | nil => simp
  | cons tree trees ih => simp [ih]

@[simp]
theorem height_nil : height [] = 0 := by
  rw [height]

@[simp]
theorem height_cons (tree : Tree) (trees : Forest) :
    height (tree :: trees) = max tree.height (height trees) := by
  rw [height]

@[simp]
theorem height_append (first second : Forest) :
    height (first ++ second) = max (height first) (height second) := by
  induction first with
  | nil => simp
  | cons tree trees ih => simp [ih, Nat.max_assoc]

end Forest

inductive Container where
  | array
  | object
  deriving DecidableEq

namespace Container

def kind : Container → Token.Kind
  | .array => .array
  | .object => .object

def opening : Container → UInt8
  | .array => Byte.openBracket
  | .object => Byte.openBrace

def closing : Container → UInt8
  | .array => Byte.closeBracket
  | .object => Byte.closeBrace

end Container

def Blanks (text : Bytes) : Prop :=
  ∀ c ∈ text, c ∈ ascii " \t\r\n"

inductive Piece : Bytes → Prop where
  | plain (c : UInt8) : c ≠ Byte.quote → c ≠ Byte.backslash → Piece [c]
  | escape (c : UInt8) : c ∈ ascii "\"\\/bfnrt" → Piece [Byte.backslash, c]
  | codePoint (digits : Bytes) : digits.length = 4 →
      (∀ c ∈ digits, c ∈ ascii "0123456789abcdefABCDEF") →
      Piece (Byte.backslash :: Byte.codePoint :: digits)

inductive Contents : Bytes → Prop where
  | nil : Contents []
  | snoc (text piece : Bytes) : Contents text → Piece piece → Contents (text ++ piece)

inductive Primitive : Bytes → Prop where
  | mk (c : UInt8) (text : Bytes) : c ∈ ascii "-0123456789tfn" →
      (∀ b ∈ text, 33 ≤ b ∧ b ≤ 126 ∧ b ∉ ascii ",:]\x7d[\x7b\"") → Primitive (c :: text)

def quoted (text : Bytes) : Bytes :=
  [Byte.quote] ++ text ++ [Byte.quote]

/--
The parts of a JSON text. An element is a value with blanks around it, a member a key with its
element, and the entries of a container are its elements or members with commas between them.
-/
inductive Part where
  | value
  | element
  | member
  | entries (container : Container)

def Container.entry : Container → Part
  | .array => .element
  | .object => .member

/--
The texts of each part that begin at position `pos`, with the trees of their values and keys.
-/
inductive Grammar : Part → (pos : Nat) → Bytes → Forest → Prop where
  | string (pos : Nat) (text : Bytes) : Contents text →
      Grammar .value pos (quoted text) [.leaf .string (pos + 1) (pos + 1 + text.length)]
  | primitive (pos : Nat) (text : Bytes) : Primitive text →
      Grammar .value pos text [.leaf .primitive pos (pos + text.length)]
  | empty (container : Container) (pos : Nat) (blank : Bytes) : Blanks blank →
      Grammar .value pos ([container.opening] ++ blank ++ [container.closing])
        [.node (.closed container.kind pos (pos + blank.length + 2)) []]
  | filled (container : Container) (pos : Nat) (text : Bytes) (trees : Forest) :
      Grammar (.entries container) (pos + 1) text trees →
      Grammar .value pos ([container.opening] ++ text ++ [container.closing])
        [.node (.closed container.kind pos (pos + text.length + 2)) trees]
  | element (pos : Nat) (before text after : Bytes) (trees : Forest) : Blanks before →
      Grammar .value (pos + before.length) text trees → Blanks after →
      Grammar .element pos (before ++ text ++ after) trees
  | member (pos : Nat) (before key gap text : Bytes) (trees : Forest) :
      Blanks before → Contents key → Blanks gap →
      Grammar .element (pos + before.length + key.length + gap.length + 3) text trees →
      Grammar .member pos (before ++ quoted key ++ gap ++ [Byte.colon] ++ text)
        (.leaf .string (pos + before.length + 1) (pos + before.length + 1 + key.length) :: trees)
  | one (container : Container) (pos : Nat) (text : Bytes) (trees : Forest) :
      Grammar container.entry pos text trees → Grammar (.entries container) pos text trees
  | more (container : Container) (pos : Nat) (text next : Bytes) (trees nextTrees : Forest) :
      Grammar (.entries container) pos text trees →
      Grammar container.entry (pos + text.length + 1) next nextTrees →
      Grammar (.entries container) pos (text ++ [Byte.comma] ++ next) (trees ++ nextTrees)

def IsText (text : Bytes) (tree : Tree) : Prop :=
  Grammar .element 0 text [tree]

def Token.Within (token : Token) (low high : Nat) : Prop :=
  ∃ kind start stop, token = .closed kind start stop ∧ low ≤ start ∧ start ≤ stop ∧ stop ≤ high

theorem Token.Within.mono {token : Token} (h : token.Within low high) (hlow : low' ≤ low)
    (hhigh : high ≤ high') : token.Within low' high' := by
  obtain ⟨kind, start, stop, heq, hstart, horder, hstop⟩ := h
  exact ⟨kind, start, stop, heq, by omega, horder, by omega⟩

theorem Token.Within.isOpen_eq_false {token : Token} (h : token.Within low high)
    (hhigh : high < Limit.jsonLength) : token.isOpen = false := by
  obtain ⟨kind, start, stop, rfl, hstart, horder, hstop⟩ := h
  have hne : UInt16.ofNat stop ≠ openMark := by
    intro heq
    have htoNat := congrArg UInt16.toNat heq
    rw [UInt16.toNat_ofNat_of_lt'] at htoNat
    · have : openMark.toNat = Limit.jsonLength := rfl
      omega
    · simp only [Limit.jsonLength, UInt16.size] at *
      omega
  simpa [isOpen, closed] using hne

theorem Grammar.within {part : Part} (h : Grammar part pos text trees) :
    ∀ token ∈ trees.tokens, token.Within pos (pos + text.length) := by
  induction h with
  | string pos text hcontents =>
    intro token htoken
    simp only [Tree.leaf, Forest.tokens_cons, Tree.tokens_node, Forest.tokens_nil, List.append_nil,
      List.mem_singleton] at htoken
    refine ⟨_, _, _, htoken, by omega, by omega, ?_⟩
    simp only [quoted, List.length_append, List.length_singleton]
    omega
  | primitive pos text hprimitive =>
    intro token htoken
    simp only [Tree.leaf, Forest.tokens_cons, Tree.tokens_node, Forest.tokens_nil, List.append_nil,
      List.mem_singleton] at htoken
    exact ⟨_, _, _, htoken, by omega, by omega, by omega⟩
  | empty container pos blank hblank =>
    intro token htoken
    simp only [Forest.tokens_cons, Tree.tokens_node, Forest.tokens_nil, List.append_nil,
      List.mem_singleton] at htoken
    refine ⟨_, _, _, htoken, by omega, by omega, ?_⟩
    simp only [List.length_append, List.length_singleton]
    omega
  | filled container pos text trees htrees ih =>
    intro token htoken
    simp only [Forest.tokens_cons, Tree.tokens_node, Forest.tokens_nil, List.append_nil,
      List.mem_cons] at htoken
    rcases htoken with htoken | htoken
    · refine ⟨_, _, _, htoken, by omega, by omega, ?_⟩
      simp only [List.length_append, List.length_singleton]
      omega
    · apply (ih token htoken).mono
      · omega
      · simp only [List.length_append, List.length_singleton]
        omega
  | element pos before text after trees hbefore hvalue hafter ih =>
    intro token htoken
    apply (ih token htoken).mono
    · omega
    · simp only [List.length_append]
      omega
  | member pos before key gap text trees hbefore hkey hgap hvalue ih =>
    intro token htoken
    simp only [Tree.leaf, Forest.tokens_cons, Tree.tokens_node, Forest.tokens_nil,
      List.singleton_append, List.mem_cons] at htoken
    rcases htoken with htoken | htoken
    · refine ⟨_, _, _, htoken, by omega, by omega, ?_⟩
      simp only [quoted, List.length_append, List.length_singleton]
      omega
    · apply (ih token htoken).mono
      · omega
      · simp only [quoted, List.length_append, List.length_singleton]
        omega
  | one container pos text trees hentry ih => exact ih
  | more container pos text next trees nextTrees hentries hentry ih ihNext =>
    intro token htoken
    rw [Forest.tokens_append, List.mem_append] at htoken
    rcases htoken with htoken | htoken
    · apply (ih token htoken).mono
      · omega
      · simp only [List.length_append]
        omega
    · apply (ihNext token htoken).mono
      · omega
      · simp only [List.length_append, List.length_singleton]
        omega

end ClearSign.Json
