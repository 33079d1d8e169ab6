import ClearSign.Proofs.Json.Embedding
import ClearSign.Proofs.Json.Enclosure
import ClearSign.Proofs.Json.Preorder

/-!
This module contains the texts that the values of a document can have, and how one of them can be
the front part of another.
-/

namespace ClearSign.Json

inductive Lexeme (text : Bytes) : Prop where
  | string : Contents text → Lexeme text
  | primitive : Primitive text → Lexeme text
  | container : Enclosed text → Lexeme text

theorem Primitive.head? (h : Primitive text) :
    ∃ c, text.head? = some c ∧ Byte.startsPrimitive c := by
  cases h with
  | mk c text hc htext => exact ⟨c, rfl, (Byte.startsPrimitive_iff c).2 hc⟩

theorem Enclosed.startsValue (h : Enclosed text) :
    ∃ c, text.head? = some c ∧ Byte.startsValue c ∧ Byte.startsPrimitive c = false := by
  obtain ⟨container, hhead⟩ := h.head?
  exact ⟨_, hhead, by cases container <;> rfl, by cases container <;> rfl⟩

theorem head?_ne_quote (h : Primitive text ∨ Enclosed text) : text.head? ≠ some Byte.quote := by
  intro hquote
  rcases h with hprimitive | henclosed
  · obtain ⟨c, hc, hstarts⟩ := hprimitive.head?
    rw [hquote] at hc
    cases hc
    contradiction
  · obtain ⟨c, hc, hstarts, -⟩ := henclosed.startsValue
    rw [hquote] at hc
    cases hc
    contradiction

namespace Lexeme

theorem contents_of_head (h : Lexeme (c :: text)) (hc : Byte.startsValue c = false) :
    Contents (c :: text) := by
  cases h with
  | string hcontents => exact hcontents
  | primitive hprimitive =>
    obtain ⟨b, hb, hstarts⟩ := hprimitive.head?
    cases hb
    simp [Byte.startsValue, hstarts] at hc
  | container henclosed =>
    obtain ⟨b, hb, hstarts, -⟩ := henclosed.startsValue
    cases hb
    rw [hc] at hstarts
    contradiction

theorem outside_of_enclosed (h : Lexeme text) (hmore : more ≠ [])
    (henclosed : Enclosed (text ++ more)) :
    ∃ s : Scanner, s.Outside ∧ s.Accepts more := by
  cases h with
  | string hcontents =>
    obtain ⟨s, -, houtside, haccepts⟩ := henclosed.outside_of_guarded hcontents.guarded
    exact ⟨s, houtside, haccepts⟩
  | primitive hprimitive =>
    obtain ⟨c, hc, hstarts⟩ := hprimitive.head?
    obtain ⟨b, hb, -, hother⟩ := henclosed.startsValue
    rw [List.head?_append, hc, Option.some_or, Option.some_inj] at hb
    rw [hb, hother] at hstarts
    contradiction
  | container hshorter => exact absurd (hshorter.eq_nil_of_append henclosed) hmore

end Lexeme

theorem getLast?_of_append_cons {front back : Bytes}
    (hlast : (front ++ b :: back).getLast? = some c) (hc : c ≠ b) : back.getLast? = some c := by
  cases back with
  | nil =>
    rw [List.getLast?_concat, Option.some_inj] at hlast
    exact absurd hlast.symm hc
  | cons d back => rwa [List.getLast?_append_cons, List.getLast?_cons_cons] at hlast

theorem Container.closing_ne (container : Container) :
    container.closing ≠ Byte.quote ∧ container.closing ≠ Byte.backslash := by
  cases container <;> decide

structure Remainder (text : Bytes) : Prop where
  scanned : ∃ s : Scanner, s.mode = .between ∧ s.Blocked ∧ s.Accepts text
  last : ∃ container : Container, text.getLast? = some container.closing

namespace Remainder

theorem of_quote {s : Scanner} {front text : Bytes} (houtside : s.Outside)
    (haccepts : s.Accepts (Byte.quote :: text))
    (hlast : ∃ container : Container,
      (front ++ Byte.quote :: text).getLast? = some container.closing) :
    ∃ content rest, text = content ++ Byte.quote :: rest ∧ guarded false content ∧
      Remainder rest := by
  obtain ⟨container, hlast⟩ := hlast
  obtain ⟨t, ht, htext⟩ := Scanner.accepts_cons haccepts
  obtain ⟨content, rest, u, rfl, hguarded, hmode, hblocked, hrest⟩ :=
    Scanner.exists_end_of_string (Scanner.inside_of_quote houtside ht).1 htext
  have hclosing := container.closing_ne.1
  exact ⟨content, rest, rfl, hguarded, ⟨u, hmode, hblocked, hrest⟩, container,
    getLast?_of_append_cons (getLast?_of_append_cons hlast hclosing) hclosing⟩

theorem eq_or_exists {text value rest rest' : Bytes} (h : Remainder text) (hvalue : Lexeme value)
    (heq : text ++ Byte.quote :: rest = value ++ Byte.quote :: rest') :
    rest' = rest ∨ ∃ content more, rest' = content ++ Byte.quote :: (more ++ Byte.quote :: rest) ∧
      guarded false content ∧ Remainder more := by
  obtain ⟨⟨s, hmode, hblocked, haccepts⟩, container, hlast⟩ := h
  have hguarded : guarded false value := by
    cases value with
    | nil => rfl
    | cons c value =>
      cases text with
      | nil => contradiction
      | cons b text =>
        obtain ⟨rfl, -⟩ := List.cons.inj heq
        exact (hvalue.contents_of_head (Scanner.head_of_blocked hmode hblocked haccepts).2).guarded
  by_cases hquote : Byte.quote ∈ text
  · right
    obtain ⟨before, after, rfl, hbefore⟩ := List.eq_append_cons_of_mem hquote
    rw [List.append_assoc, List.cons_append] at heq
    have hescapes := Scanner.escapes_eq_false_of_accepts (.inl hmode) hbefore haccepts
    obtain ⟨-, rfl⟩ := eq_of_guarded hguarded hbefore hescapes heq.symm
    obtain ⟨t, ht, hafter⟩ := Scanner.accepts_append haccepts
    have houtside := (Scanner.outside_of_foldlM (.inl hmode) hbefore ht false (by simp)).1
    obtain ⟨content, more, rfl, hcontent, hmore⟩ := of_quote houtside hafter ⟨container, hlast⟩
    exact ⟨content, more, by simp, hcontent, hmore⟩
  · left
    have hescapes := escapes_of_getLast? hlast container.closing_ne.2 false
    exact (eq_of_guarded hguarded hquote hescapes heq.symm).2

end Remainder

namespace Document

theorem text_eq_ok {doc : Document} {text : Bytes} (h : doc.text i = .ok text) :
    ∃ token, doc.token? i = some token ∧ text = doc.source.extract token.start token.stop := by
  unfold Document.text at h
  split at h
  · contradiction
  · next token htoken =>
    split at h
    · cases h
      exact ⟨token, htoken, rfl⟩
    · contradiction

theorem contents_or_of_text {doc : Document} {text : Bytes}
    (htokens : tokenize doc.source = .ok doc.tokens) (h : doc.text i = .ok text) :
    (doc.isString i ∧ Contents text) ∨
      (doc.isString i = false ∧ (Primitive text ∨ Enclosed text)) := by
  obtain ⟨token, htoken, htext⟩ := text_eq_ok h
  obtain ⟨hi, hget⟩ := List.getElem?_eq_some_iff.1 htoken
  obtain ⟨part, found, pos, hwritten, hpart, -⟩ := exists_embeds htokens hi
  rw [written, htoken, Option.map_some, Option.some_inj] at hwritten
  obtain ⟨hlength, tree, hgrammar, htree⟩ := isText_of_tokenize htokens
  have hsize : doc.source.length < UInt16.size := Nat.lt_trans hlength (by decide)
  have hmem : token ∈ (Forest.nodes [tree]).map Tree.token := by
    rw [Forest.nodes_cons, Forest.nodes_nil, List.append_nil, ← Tree.tokens_eq_map_nodes, ← htree,
      ← hget]
    exact List.getElem_mem hi
  obtain ⟨node, hnode, rfl⟩ := List.mem_map.1 hmem
  have hstring : doc.isString i = (node.token.kind == .string) := by
    rw [isString, kind?, htoken]
    rfl
  cases Grammar.stands hgrammar hsize [] [] (by simp) rfl .nil node hnode with
  | string before inside after token hsource hcontents hkind hstart hstop =>
    left
    have hinside : text = inside := by
      have hsplit : doc.source = (before ++ [Byte.quote]) ++ inside ++ ([Byte.quote] ++ after) := by
        simp [hsource, quoted]
      rw [htext, Tree.token_node, hstart, hstop, hsplit,
        ← List.length_singleton (a := Byte.quote), ← List.length_append, extract_middle]
    rw [hstring, hinside]
    exact ⟨by simp [hkind], hcontents⟩
  | primitive before inside after token hsource hprimitive hafter hkind hstart hstop =>
    right
    have hinside : text = inside := by
      rw [htext, Tree.token_node, hstart, hstop, hsource, extract_middle]
    rw [hstring, hinside]
    exact ⟨by simp [hkind], .inl hprimitive⟩
  | container container before inside after token children hsource hchildren hkind hstart hstop =>
    right
    have hinside : text = [container.opening] ++ inside ++ [container.closing] := by
      have hwhole :=
        extract_middle before ([container.opening] ++ inside ++ [container.closing]) after
      rw [List.length_append, List.length_append, List.length_singleton, List.length_singleton,
        ← hsource, Nat.add_comm 1, Nat.add_assoc, ← Nat.add_assoc] at hwhole
      rw [htext, Tree.token_node, hstart, hstop, hwhole]
    rw [Tree.token_node] at hwritten hstring htext
    rw [hkind, span_container, ← htext] at hwritten
    subst hwritten
    rw [hstring, hkind]
    refine ⟨by cases container <;> rfl, .inr ?_⟩
    rw [hinside] at hpart ⊢
    exact .of_tokenize container hpart

theorem lexeme_of_text {doc : Document} {text : Bytes}
    (htokens : tokenize doc.source = .ok doc.tokens) (h : doc.text i = .ok text) :
    Lexeme text := by
  rcases contents_or_of_text htokens h with ⟨-, hcontents⟩ | ⟨-, hprimitive | henclosed⟩
  · exact .string hcontents
  · exact .primitive hprimitive
  · exact .container henclosed

end Document

end ClearSign.Json
