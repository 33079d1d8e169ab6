import ClearSign.Proofs.Json.Lookup
import ClearSign.Proofs.Json.Translation

/-!
This module contains the proof that navigation inside of a value finds the same in every document
that has the value in it.
-/

namespace ClearSign.Json

theorem Laid.stop_le (h : Laid low high trees) (hhigh : high < UInt16.size) :
    ∀ token ∈ trees.tokens, token.stop ≤ high := by
  induction h with
  | nil => simp
  | cons low inner mid high kind start stop children trees hlow hinner hchildren hmid hstop hleaf
      htrees ihChildren ihTrees =>
    have hmidHigh := htrees.low_le_high
    intro token htoken
    simp only [Forest.tokens_cons, Tree.tokens_node, List.cons_append, List.mem_cons,
      List.mem_append] at htoken
    rcases htoken with rfl | htoken | htoken
    · rw [Token.stop_closed (by omega)]
      omega
    · have := ihChildren (by omega) token htoken
      omega
    · exact ihTrees hhigh token htoken

namespace Document

def span (doc : Document) (kind : Token.Kind) (start stop : Nat) : Bytes :=
  match kind with
  | .string => doc.source.extract (start - 1) (stop + 1)
  | .object | .array | .primitive => doc.source.extract start stop

def written (doc : Document) (i : Nat) : Option Bytes :=
  (doc.token? i).map fun token => doc.span token.kind token.start token.stop

structure Embeds (doc : Document) (base pos : Nat) (part : Document) : Prop where
  short : doc.source.length < Limit.jsonLength
  source : ∃ before after, doc.source = before ++ part.source ++ after ∧ before.length = pos
  tokens : ∃ before after,
    doc.tokens = before ++ (part.tokens.map (Token.shift (.ofNat pos)) ++ after) ∧
      before.length = base ∧
      ∀ other ∈ after, ∀ token ∈ part.tokens,
        (token.shift (.ofNat pos)).start ≤ other.start ∧
          (token.shift (.ofNat pos)).stop ≤ other.start
  within : ∀ token ∈ part.tokens, token.Within 0 part.source.length

theorem siblings_append_of_le {rest : List Token} (h : ∀ token ∈ rest, stop ≤ token.start)
    (i taken : Nat) (tokens : List Token) :
    siblings stop i taken (tokens ++ rest) = siblings stop i taken tokens := by
  induction tokens generalizing i taken with
  | nil => exact siblings_eq_nil h i taken
  | cons token tokens ih =>
    rw [List.cons_append, siblings, siblings]
    simp only [ih]

theorem siblings_map {f : Token → Token} {distance : Nat} {tokens : List Token}
    (h : ∀ token ∈ tokens, (f token).start = token.start + distance ∧
      (f token).stop = token.stop + distance) (base stop i taken : Nat) :
    siblings (stop + distance) (base + i) (taken + distance) (tokens.map f) =
      (siblings stop i taken tokens).map (base + ·) := by
  induction tokens generalizing i taken with
  | nil => rfl
  | cons token tokens ih =>
    rw [List.forall_mem_cons] at h
    obtain ⟨⟨hstart, hstop⟩, htokens⟩ := h
    rw [List.map_cons, siblings, siblings, hstart, hstop]
    simp only [ge_iff_le, Nat.add_le_add_iff_right, Nat.add_lt_add_iff_right, Nat.add_assoc,
      ih htokens]
    split
    · rfl
    · split
      · rfl
      · rfl

theorem extract_append {before middle after : Bytes} {start stop : Nat} (horder : start ≤ stop)
    (hstop : stop ≤ middle.length) :
    (before ++ middle ++ after).extract (start + before.length) (stop + before.length) =
      middle.extract start stop := by
  rw [List.extract_eq_take_drop, List.extract_eq_take_drop, List.append_assoc,
    Nat.add_sub_add_right, Nat.add_comm start, ← List.drop_drop, List.drop_left,
    List.drop_append_of_le_length (by omega), List.take_append_of_le_length]
  rw [List.length_drop]
  omega

theorem extract_middle (before middle after : Bytes) :
    (before ++ middle ++ after).extract before.length (before.length + middle.length) = middle := by
  rw [Nat.add_comm, ← Nat.zero_add before.length, ← Nat.add_assoc, Nat.add_zero,
    extract_append (Nat.zero_le _) (Nat.le_refl _)]
  simp

namespace Embeds

variable {doc part : Document} {base pos : Nat}

theorem shift_of_mem (h : doc.Embeds base pos part) (htoken : token ∈ part.tokens) :
    (token.shift (.ofNat pos)).start = token.start + pos ∧
      (token.shift (.ofNat pos)).stop = token.stop + pos ∧
      token.start ≤ token.stop ∧ token.stop ≤ part.source.length := by
  obtain ⟨before, after, hsource, hbefore⟩ := h.source
  obtain ⟨kind, start, stop, rfl, -, horder, hstop⟩ := h.within token htoken
  have hlength : before.length + part.source.length < Limit.jsonLength := by
    have hshort := h.short
    rw [hsource, List.length_append, List.length_append] at hshort
    omega
  have hsize : UInt16.size = Limit.jsonLength + 1 := rfl
  rw [← Token.closed_eq_shift kind (UInt16.ofNat_add start pos) (UInt16.ofNat_add stop pos)]
  rw [Token.start_closed (by omega), Token.start_closed (by omega), Token.stop_closed (by omega),
    Token.stop_closed (by omega)]
  exact ⟨rfl, rfl, horder, hstop⟩

theorem token?_add (h : doc.Embeds base pos part) (hk : k < part.tokens.length) :
    doc.token? (base + k) = (part.token? k).map (Token.shift (.ofNat pos)) := by
  obtain ⟨before, after, htokens, rfl, -⟩ := h.tokens
  rw [token?, token?, htokens, List.getElem?_append_right (Nat.le_add_right _ _),
    Nat.add_sub_cancel_left, List.getElem?_append_left (by rwa [List.length_map]),
    List.getElem?_map]

theorem length_add (h : doc.Embeds base pos part) (hk : k < part.tokens.length) :
    (doc.token? (base + k)).map Token.length = (part.token? k).map Token.length := by
  rw [h.token?_add hk, Option.map_map, token?, List.getElem?_eq_getElem hk]
  obtain ⟨hstart, hstop, -⟩ := h.shift_of_mem (List.getElem_mem hk)
  simp [Token.length, hstart, hstop, Nat.add_sub_add_right]

theorem text_add (h : doc.Embeds base pos part) (hk : k < part.tokens.length) :
    doc.text (base + k) = part.text k := by
  obtain ⟨before, after, hsource, hbefore⟩ := h.source
  obtain ⟨hstart, hstop, horder, hlast⟩ := h.shift_of_mem (List.getElem_mem hk)
  rw [text, text, h.token?_add hk, token?, List.getElem?_eq_getElem hk]
  dsimp only [Option.map_some]
  generalize part.tokens[k] = token at hstart hstop horder hlast
  have hinside : (token.start + pos ≤ token.stop + pos ∧ token.stop + pos ≤ doc.source.length) := by
    rw [hsource, List.length_append, List.length_append]
    omega
  rw [hstart, hstop, if_pos hinside, if_pos ⟨horder, hlast⟩, hsource, ← hbefore,
    extract_append horder hlast]

theorem drop_add (h : doc.Embeds base pos part) (hk : k < part.tokens.length) :
    ∃ after, doc.tokens.drop (base + k + 1) =
      (part.tokens.drop (k + 1)).map (Token.shift (.ofNat pos)) ++ after ∧
        ∀ other ∈ after, ∀ token ∈ part.tokens,
          (token.shift (.ofNat pos)).start ≤ other.start ∧
            (token.shift (.ofNat pos)).stop ≤ other.start := by
  obtain ⟨before, after, htokens, rfl, hafter⟩ := h.tokens
  refine ⟨after, ?_, hafter⟩
  rw [htokens, Nat.add_assoc, ← List.drop_drop, List.drop_left, List.drop_append_of_le_length,
    List.map_drop]
  rw [List.length_map]
  exact hk

theorem children_add (h : doc.Embeds base pos part) (hk : k < part.tokens.length) :
    doc.children (base + k) = (part.children k).map (base + ·) := by
  obtain ⟨after, hdrop, hafter⟩ := h.drop_add hk
  have hmem := List.getElem_mem hk
  have hrest : ∀ token ∈ part.tokens.drop (k + 1),
      (token.shift (.ofNat pos)).start = token.start + pos ∧
        (token.shift (.ofNat pos)).stop = token.stop + pos := by
    intro token htoken
    obtain ⟨hstart, hstop, -⟩ := h.shift_of_mem (List.mem_of_mem_drop htoken)
    exact ⟨hstart, hstop⟩
  obtain ⟨hstart, hstop, -⟩ := h.shift_of_mem hmem
  rw [children, children, h.token?_add hk, token?, List.getElem?_eq_getElem hk]
  dsimp only [Option.map_some]
  generalize part.tokens[k] = token at hmem hstart hstop
  have hend : (if (token.shift (.ofNat pos)).isContainer then (token.shift (.ofNat pos)).stop
      else (token.shift (.ofNat pos)).start) =
        (if token.isContainer then token.stop else token.start) + pos := by
    rw [hstart, hstop, apply_ite (· + pos)]
    rfl
  rw [hend, hstart, hdrop, siblings_append_of_le, Nat.add_assoc base, siblings_map hrest]
  intro other hother
  obtain ⟨hfirst, hlast⟩ := hafter other hother token hmem
  split
  · omega
  · omega

end Embeds

theorem written_of_token? {doc : Document} {kind : Token.Kind}
    (htoken : doc.token? i = some (.closed kind start stop)) (horder : start ≤ stop)
    (hstop : stop < UInt16.size) : doc.written i = some (doc.span kind start stop) := by
  rw [written, htoken, Option.map_some, Token.start_closed (by omega), Token.stop_closed hstop]
  rfl

theorem span_container (doc : Document) (container : Container) (start stop : Nat) :
    doc.span container.kind start stop = doc.source.extract start stop := by
  cases container with
  | array => rfl
  | object => rfl

theorem written_of_grammar {doc : Document} {before text after : Bytes} {inside : Forest}
    (hshort : doc.source.length < Limit.jsonLength) (hsource : doc.source = before ++ text ++ after)
    (h : Grammar .value before.length text [.node token inside])
    (htoken : doc.token? i = some token) : doc.written i = some text := by
  have hbound : before.length + text.length < UInt16.size := by
    have hsize : UInt16.size = Limit.jsonLength + 1 := rfl
    rw [hsource, List.length_append, List.length_append] at hshort
    omega
  have hextract : doc.source.extract before.length (before.length + text.length) = text := by
    rw [hsource, extract_middle]
  cases h with
  | string _ content hcontents =>
    have hlength : (quoted content).length = content.length + 2 := by simp [quoted]
    have hstop : before.length + 1 + content.length + 1 =
        before.length + (quoted content).length := by omega
    rw [written_of_token? htoken (by omega) (by omega)]
    rw [span, hstop, Nat.add_sub_cancel, hextract]
  | primitive _ _ hprimitive =>
    rw [written_of_token? htoken (by omega) (by omega)]
    rw [span, hextract]
  | empty container _ blank hblank =>
    have hlength : ([container.opening] ++ blank ++ [container.closing]).length =
        blank.length + 2 := by
      simp
    have hstop : before.length + blank.length + 2 =
        before.length + ([container.opening] ++ blank ++ [container.closing]).length := by omega
    rw [written_of_token? htoken (by omega) (by omega)]
    rw [hstop, span_container, hextract]
  | filled container _ text trees htrees =>
    have hlength : ([container.opening] ++ text ++ [container.closing]).length =
        text.length + 2 := by
      simp
    have hstop : before.length + text.length + 2 =
        before.length + ([container.opening] ++ text ++ [container.closing]).length := by omega
    rw [written_of_token? htoken (by omega) (by omega)]
    rw [hstop, span_container, hextract]

theorem exists_embeds {doc : Document} (htokens : tokenize doc.source = .ok doc.tokens)
    (hi : i < doc.tokens.length) :
    ∃ text found pos, doc.written i = some text ∧ tokenize text = .ok found ∧
      0 < found.length ∧ doc.Embeds i pos ⟨text, found⟩ := by
  obtain ⟨hshort, tree, htext, hdepth, hcount, hall⟩ := tokenize_eq_ok_iff.1 htokens
  rw [hall] at hi
  obtain ⟨⟨token, inside⟩, hsubtree⟩ := Tree.exists_subtree? tree hi
  have hforest : Forest.subtree? [tree] i = some (.node token inside) := by
    rw [Forest.subtree?, if_pos hi]
    exact hsubtree
  obtain ⟨before, text, after, hsource, hvalue⟩ := Grammar.exists_value htext hforest
  rw [Nat.zero_add] at hvalue
  have hlength : before.length + text.length ≤ doc.source.length := by
    rw [hsource, List.length_append, List.length_append]
    omega
  have hsize : 0 + doc.source.length < UInt16.size := by
    have : UInt16.size = Limit.jsonLength + 1 := rfl
    omega
  obtain ⟨first, rest, kind, start, stop, inner, hsplit, hfirst, hclosed, hinner, hinside, -, -, hstop,
    hrest⟩ := (Grammar.laid htext).exists_of_subtree? hsize hforest
  rw [Forest.tokens_cons, Forest.tokens_nil, List.append_nil] at hsplit
  -- the value alone is a text, too, and its tokens are those of the value, moved to the front
  have hoffset : UInt16.ofNat before.length = UInt16.ofNat 0 + UInt16.ofNat before.length :=
    (UInt16.zero_add _).symm
  obtain ⟨trees, hpart, hmoved, hheight⟩ := hvalue.translate hoffset
  obtain ⟨part, rfl⟩ := hpart.eq_singleton (.inl rfl)
  simp only [Forest.tokens_cons, Forest.tokens_nil, List.append_nil, Forest.height_cons,
    Forest.height_nil, Nat.max_zero, Tree.tokens_node] at hmoved hheight
  have hcounted : part.tokens.length ≤ tree.tokens.length := by
    have hlengths := congrArg List.length hmoved
    rw [hsplit]
    simp only [List.length_append, List.length_cons, List.length_map] at hlengths ⊢
    omega
  have htree := Tree.height_subtree?_le hsubtree
  refine ⟨text, part.tokens, before.length, ?_, ?_, part.tokens_pos, ?_⟩
  · apply written_of_grammar hshort hsource hvalue
    rw [token?, hall, hsplit, ← hfirst]
    simp
  · apply tokenize_eq_ok_iff.2
    exact ⟨by omega, part, hpart.of_value, by omega, by omega, rfl⟩
  · refine ⟨hshort, ⟨before, after, hsource, rfl⟩, ⟨first, rest, ?_, hfirst, ?_⟩, ?_⟩
    · rw [hall, hsplit, ← hmoved]
      simp
    · intro other hother moved hmem
      obtain ⟨hbehind, hbehindStop⟩ := hrest other hother
      have hshifted : moved.shift (.ofNat before.length) ∈ token :: Forest.tokens inside := by
        rw [hmoved]
        exact List.mem_map_of_mem hmem
      rw [List.mem_cons] at hshifted
      have horder := hinside.low_le_high
      rcases hshifted with heq | hmem
      · rw [heq, hclosed, Token.start_closed (by omega), Token.stop_closed (by omega)]
        exact ⟨hbehind, hbehindStop⟩
      · have hstart := hinside.start_lt (by omega) _ hmem
        have hend := hinside.stop_le (by omega) _ hmem
        omega
    · intro token htoken
      have hwithin := Grammar.within hpart token (by simpa using htoken)
      rwa [Nat.zero_add] at hwithin

end Document

end ClearSign.Json
