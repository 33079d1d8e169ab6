import ClearSign.Proofs.Json.Recognition

/-!
This module contains JSON values, how they are written without blanks, and the proof that what is
written is a text of the grammar, with the tree of its values and keys.
-/

namespace ClearSign.Json

theorem contents_append (h : Contents text) (h' : Contents next) : Contents (text ++ next) := by
  induction h' with
  | nil =>
    rw [List.append_nil]
    exact h
  | snoc next piece hnext hpiece ih =>
    rw [← List.append_assoc]
    exact .snoc _ _ ih hpiece

theorem contents_of_piece (h : Piece piece) : Contents piece :=
  .snoc [] piece .nil h

def Plain (text : Bytes) : Prop :=
  ∀ c ∈ text, c ≠ Byte.quote ∧ c ≠ Byte.backslash

instance (text : Bytes) : Decidable (Plain text) :=
  inferInstanceAs (Decidable (∀ c ∈ text, c ≠ Byte.quote ∧ c ≠ Byte.backslash))

theorem Plain.contents (h : Plain text) : Contents text := by
  induction text with
  | nil => exact .nil
  | cons c text ih =>
    have hc := h c List.mem_cons_self
    have htext : Plain text := fun b hb => h b (List.mem_cons_of_mem c hb)
    exact contents_append (contents_of_piece (.plain c hc.1 hc.2)) (ih htext)

def escapesQuotes : Bytes → Bool
  | [] => true
  | [c] => c != Byte.quote && c != Byte.backslash
  | c :: d :: text =>
    if c = Byte.backslash then d == Byte.quote && escapesQuotes text
    else c != Byte.quote && escapesQuotes (d :: text)

theorem contents_of_escapesQuotes (h : escapesQuotes text) : Contents text := by
  fun_induction escapesQuotes text with
  | case1 => exact .nil
  | case2 c =>
    simp only [Bool.and_eq_true, bne_iff_ne] at h
    exact contents_of_piece (.plain c h.1 h.2)
  | case3 d text ih =>
    simp only [Bool.and_eq_true, beq_iff_eq] at h
    rw [h.1]
    exact contents_append (contents_of_piece (.escape Byte.quote (by decide))) (ih h.2)
  | case4 c d text hne ih =>
    simp only [Bool.and_eq_true, bne_iff_ne] at h
    exact contents_append (contents_of_piece (.plain c h.1 hne)) (ih h.2)

theorem plain_of_primitive (h : Primitive text) (hbackslash : Byte.backslash ∉ text) :
    Plain text := by
  intro c hc
  constructor
  · rintro rfl
    cases h with
    | mk first text hfirst htext =>
      rcases List.mem_cons.1 hc with rfl | hc
      · exact absurd hfirst (by decide)
      · exact absurd (htext _ hc).2.2 (by decide)
  · rintro rfl
    exact hbackslash hc

theorem Primitive.ne_nil (h : Primitive text) : text ≠ [] := by
  cases h
  exact List.cons_ne_nil _ _

theorem contents_flatten {texts : List Bytes} (h : ∀ text ∈ texts, Contents text) :
    Contents texts.flatten := by
  induction texts with
  | nil => exact .nil
  | cons text texts ih =>
    rw [List.flatten_cons]
    apply contents_append (h text List.mem_cons_self)
    exact ih fun other hother => h other (List.mem_cons_of_mem text hother)

inductive Value where
  | string (text : Bytes)
  | primitive (text : Bytes)
  | array (elements : List Value)
  | object (members : List (Bytes × Value))

mutual

def Value.text : Value → Bytes
  | .string text => quoted text
  | .primitive text => text
  | .array elements => [Byte.openBracket] ++ (elementsText elements).tail ++ [Byte.closeBracket]
  | .object members => [Byte.openBrace] ++ (membersText members).tail ++ [Byte.closeBrace]

def elementsText : List Value → Bytes
  | [] => []
  | value :: values => [Byte.comma] ++ value.text ++ elementsText values

def membersText : List (Bytes × Value) → Bytes
  | [] => []
  | (key, value) :: members =>
    [Byte.comma] ++ quoted key ++ [Byte.colon] ++ value.text ++ membersText members

end

mutual

def Value.tree : (pos : Nat) → Value → Tree
  | pos, .string text => .leaf .string (pos + 1) (pos + 1 + text.length)
  | pos, .primitive text => .leaf .primitive pos (pos + text.length)
  | pos, .array elements =>
    .node (.closed .array pos (pos + (elementsText elements).tail.length + 2))
      (elementsTrees pos elements)
  | pos, .object members =>
    .node (.closed .object pos (pos + (membersText members).tail.length + 2))
      (membersTrees pos members)

def elementsTrees : (pos : Nat) → List Value → Forest
  | _, [] => []
  | pos, value :: values =>
    value.tree (pos + 1) :: elementsTrees (pos + 1 + value.text.length) values

def membersTrees : (pos : Nat) → List (Bytes × Value) → Forest
  | _, [] => []
  | pos, (key, value) :: members =>
    .leaf .string (pos + 2) (pos + 2 + key.length) :: value.tree (pos + 4 + key.length) ::
      membersTrees (pos + 4 + key.length + value.text.length) members

end

mutual

def Value.Valid : Value → Prop
  | .string text => Contents text
  | .primitive text => Primitive text
  | .array elements => ElementsValid elements
  | .object members => MembersValid members

def ElementsValid : List Value → Prop
  | [] => True
  | value :: values => value.Valid ∧ ElementsValid values

def MembersValid : List (Bytes × Value) → Prop
  | [] => True
  | (key, value) :: members => Contents key ∧ value.Valid ∧ MembersValid members

end

mutual

def Value.depth : Value → Nat
  | .string _ => 0
  | .primitive _ => 0
  | .array elements => 1 + elementsDepth elements
  | .object members => 1 + membersDepth members

def elementsDepth : List Value → Nat
  | [] => 0
  | value :: values => max value.depth (elementsDepth values)

def membersDepth : List (Bytes × Value) → Nat
  | [] => 0
  | (_, value) :: members => max value.depth (membersDepth members)

end

mutual

def Value.count : Value → Nat
  | .string _ => 1
  | .primitive _ => 1
  | .array elements => 1 + elementsCount elements
  | .object members => 1 + membersCount members

def elementsCount : List Value → Nat
  | [] => 0
  | value :: values => value.count + elementsCount values

def membersCount : List (Bytes × Value) → Nat
  | [] => 0
  | (_, value) :: members => 1 + value.count + membersCount members

end

@[simp]
theorem height_leaf (h : (Token.closed kind start stop).isContainer = false) :
    (Tree.leaf kind start stop).height = 0 := by
  simp [Tree.leaf, h]

@[simp]
theorem tokens_leaf (kind : Token.Kind) (start stop : Nat) :
    (Tree.leaf kind start stop).tokens = [.closed kind start stop] := by
  simp [Tree.leaf]

mutual

theorem Value.height_tree (value : Value) (pos : Nat) : (value.tree pos).height = value.depth := by
  cases value with
  | string text => simp [Value.tree, Value.depth, Token.isContainer, Token.closed]
  | primitive text => simp [Value.tree, Value.depth, Token.isContainer, Token.closed]
  | array elements =>
    simp [Value.tree, Value.depth, Token.isContainer, Token.closed, height_elementsTrees]
  | object members =>
    simp [Value.tree, Value.depth, Token.isContainer, Token.closed, height_membersTrees]

theorem height_elementsTrees (values : List Value) (pos : Nat) :
    Forest.height (elementsTrees pos values) = elementsDepth values := by
  cases values with
  | nil => simp [elementsTrees, elementsDepth]
  | cons value values =>
    simp [elementsTrees, elementsDepth, value.height_tree, height_elementsTrees values]

theorem height_membersTrees (members : List (Bytes × Value)) (pos : Nat) :
    Forest.height (membersTrees pos members) = membersDepth members := by
  cases members with
  | nil => simp [membersTrees, membersDepth]
  | cons member members =>
    obtain ⟨key, value⟩ := member
    simp [membersTrees, membersDepth, Token.isContainer, Token.closed, value.height_tree,
      height_membersTrees members]

end

mutual

theorem Value.length_tokens (value : Value) (pos : Nat) :
    (value.tree pos).tokens.length = value.count := by
  cases value with
  | string text => simp [Value.tree, Value.count]
  | primitive text => simp [Value.tree, Value.count]
  | array elements => simp [Value.tree, Value.count, length_elementsTrees, Nat.add_comm]
  | object members => simp [Value.tree, Value.count, length_membersTrees, Nat.add_comm]

theorem length_elementsTrees (values : List Value) (pos : Nat) :
    (Forest.tokens (elementsTrees pos values)).length = elementsCount values := by
  cases values with
  | nil => simp [elementsTrees, elementsCount]
  | cons value values =>
    simp [elementsTrees, elementsCount, value.length_tokens, length_elementsTrees values]

theorem length_membersTrees (members : List (Bytes × Value)) (pos : Nat) :
    (Forest.tokens (membersTrees pos members)).length = membersCount members := by
  cases members with
  | nil => simp [membersTrees, membersCount]
  | cons member members =>
    obtain ⟨key, value⟩ := member
    simp [membersTrees, membersCount, value.length_tokens, length_membersTrees members]
    omega

end

theorem blanks_nil : Blanks [] := by
  intro c hc
  contradiction

theorem Grammar.of_value {trees : Forest} (h : Grammar .value pos text trees) :
    Grammar .element pos text trees := by
  have helement := Grammar.element pos [] text [] trees blanks_nil h blanks_nil
  simpa using helement

theorem Grammar.of_member {trees : Forest} (hkey : Contents key)
    (h : Grammar .value (pos + 3 + key.length) text trees) :
    Grammar .member pos (quoted key ++ [Byte.colon] ++ text)
      (.leaf .string (pos + 1) (pos + 1 + key.length) :: trees) := by
  have hpos : pos + 3 + key.length =
      pos + ([] : Bytes).length + key.length + ([] : Bytes).length + 3 := by
    simp only [List.length_nil]
    omega
  rw [hpos] at h
  have hmember := Grammar.member pos [] key [] text trees blanks_nil hkey blanks_nil h.of_value
  simpa using hmember

mutual

theorem Value.grammar (value : Value) (h : value.Valid) (pos : Nat) :
    Grammar .value pos value.text [value.tree pos] := by
  cases value with
  | string text =>
    rw [Value.Valid] at h
    rw [Value.text, Value.tree]
    exact .string pos text h
  | primitive text =>
    rw [Value.Valid] at h
    rw [Value.text, Value.tree]
    exact .primitive pos text h
  | array elements =>
    rw [Value.Valid] at h
    rw [Value.text, Value.tree]
    cases elements with
    | nil => exact .empty .array pos [] blanks_nil
    | cons value values =>
      rw [ElementsValid] at h
      apply Grammar.filled .array
      have hfirst := Grammar.one .array (pos + 1) _ _ (value.grammar h.1 (pos + 1)).of_value
      have hall := grammar_elements values h.2 hfirst
      simpa [elementsText, elementsTrees] using hall
  | object members =>
    rw [Value.Valid] at h
    rw [Value.text, Value.tree]
    cases members with
    | nil => exact .empty .object pos [] blanks_nil
    | cons member members =>
      obtain ⟨key, value⟩ := member
      rw [MembersValid] at h
      apply Grammar.filled .object
      have hvalue := value.grammar h.2.1 (pos + 1 + 3 + key.length)
      have hfirst := Grammar.one .object (pos + 1) _ _ (Grammar.of_member h.1 hvalue)
      have hall := grammar_members members h.2.2 hfirst
      have hpos : pos + 1 + (quoted key ++ [Byte.colon] ++ value.text).length =
          pos + 4 + key.length + value.text.length := by
        simp only [quoted, List.length_append, List.length_singleton]
        omega
      rw [hpos] at hall
      simpa [membersText, membersTrees] using hall

theorem grammar_elements (values : List Value) (h : ElementsValid values) {trees : Forest}
    (hbefore : Grammar (.entries .array) pos text trees) :
    Grammar (.entries .array) pos (text ++ elementsText values)
      (trees ++ elementsTrees (pos + text.length) values) := by
  cases values with
  | nil => simpa [elementsText, elementsTrees] using hbefore
  | cons value values =>
    rw [ElementsValid] at h
    have hvalue := (value.grammar h.1 (pos + text.length + 1)).of_value
    have hnext := grammar_elements values h.2
      (Grammar.more .array pos _ _ _ _ hbefore hvalue)
    have hpos : pos + (text ++ [Byte.comma] ++ value.text).length =
        pos + text.length + 1 + value.text.length := by
      simp only [List.length_append, List.length_singleton]
      omega
    rw [hpos] at hnext
    simpa [elementsText, elementsTrees] using hnext

theorem grammar_members (members : List (Bytes × Value)) (h : MembersValid members) {trees : Forest}
    (hbefore : Grammar (.entries .object) pos text trees) :
    Grammar (.entries .object) pos (text ++ membersText members)
      (trees ++ membersTrees (pos + text.length) members) := by
  cases members with
  | nil => simpa [membersText, membersTrees] using hbefore
  | cons member members =>
    obtain ⟨key, value⟩ := member
    rw [MembersValid] at h
    have hvalue := value.grammar h.2.1 (pos + text.length + 1 + 3 + key.length)
    have hnext := grammar_members members h.2.2
      (Grammar.more .object pos _ _ _ _ hbefore (Grammar.of_member h.1 hvalue))
    have hpos :
        pos + (text ++ [Byte.comma] ++ (quoted key ++ [Byte.colon] ++ value.text)).length =
          pos + text.length + 4 + key.length + value.text.length := by
      simp only [quoted, List.length_append, List.length_singleton]
      omega
    rw [hpos] at hnext
    simpa [membersText, membersTrees] using hnext

end

theorem Value.isText {value : Value} (h : value.Valid) : IsText value.text (value.tree 0) :=
  (value.grammar h 0).of_value

theorem Value.tokenize_text {value : Value} (h : value.Valid)
    (hlength : value.text.length < Limit.jsonLength) (hdepth : value.depth ≤ Limit.depth)
    (hcount : value.count ≤ Limit.tokens) :
    tokenize value.text = .ok (value.tree 0).tokens := by
  rw [tokenize_eq_ok_iff]
  refine ⟨hlength, value.tree 0, isText h, ?_, ?_, rfl⟩
  · rw [height_tree]
    exact hdepth
  · rw [length_tokens]
    exact hcount

end ClearSign.Json
