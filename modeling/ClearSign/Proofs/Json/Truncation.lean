import ClearSign.Proofs.Json.Enclosure
import ClearSign.Proofs.Json.Navigation

/-!
This module contains the proof that a text that is cut off is never taken for a shorter one:
wherever it was cut, it is told that it is incomplete, unless nothing but blanks is left of it.
-/

namespace ClearSign.Json

def Token.Kind.closing? : Token.Kind → Option UInt8
  | .object => some Byte.closeBrace
  | .array => some Byte.closeBracket
  | .string => some Byte.quote
  | .primitive => none

def Token.closing (token : Token) : Nat :=
  if token.isContainer then token.stop - 1 else token.stop

structure Bounded (text before : Bytes) (opening : UInt8) (inner : Bytes) (closing : UInt8)
    (after : Bytes) : Prop where
  text_eq : text = before ++ opening :: inner ++ closing :: after
  blank_before : Blanks before
  begins : Byte.isBlank opening = false ∧ Byte.startsPrimitive opening = false
  ends : Byte.isBlank closing = false
  blank_after : Blanks after

theorem Blanks.find?_eq_none (h : Blanks text) :
    text.find? (fun c => !Byte.isBlank c) = none := by
  rw [List.find?_eq_none]
  intro c hc
  simp [h.isBlank c hc]

theorem find?_of_blanks (hbefore : Blanks before) (hc : Byte.isBlank c = false) (rest : Bytes) :
    (before ++ c :: rest).find? (fun c => !Byte.isBlank c) = some c := by
  rw [List.find?_append, hbefore.find?_eq_none, Option.none_or,
    List.find?_cons_of_pos (by simp [hc])]

theorem Container.closing?_kind (container : Container) :
    container.kind.closing? = some container.closing := by
  cases container <;> rfl

theorem Container.not_isBlank (container : Container) :
    (Byte.isBlank container.opening = false ∧ Byte.startsPrimitive container.opening = false) ∧
      Byte.isBlank container.closing = false := by
  cases container <;> decide

namespace Bounded

theorem of_container (container : Container) {before after : Bytes} (inner : Bytes)
    (hbefore : Blanks before) (hafter : Blanks after) :
    Bounded (before ++ ([container.opening] ++ inner ++ [container.closing]) ++ after) before
      container.opening inner container.closing after where
  text_eq := by simp
  blank_before := hbefore
  begins := container.not_isBlank.1
  ends := container.not_isBlank.2
  blank_after := hafter

theorem of_string {before after : Bytes} (inner : Bytes) (hbefore : Blanks before)
    (hafter : Blanks after) :
    Bounded (before ++ quoted inner ++ after) before Byte.quote inner Byte.quote after where
  text_eq := by simp [quoted]
  blank_before := hbefore
  begins := by decide
  ends := by decide
  blank_after := hafter

end Bounded

theorem Token.closing_container (container : Container) {stop : Nat} (h : stop < UInt16.size)
    (start : Nat) : (closed container.kind start stop).closing = stop - 1 := by
  rw [closing, stop_closed h]
  cases container <;> rfl

theorem IsText.bounded {text : Bytes} {root : Token} {children : Forest}
    (h : IsText text (.node root children)) (hlength : text.length < Limit.jsonLength)
    (hclosing : root.kind.closing? = some closing) :
    ∃ before opening inner after, Bounded text before opening inner closing after ∧
      root.closing = before.length + 1 + inner.length := by
  unfold IsText at h
  cases h with
  | element _ before value after _ hbefore hvalue hafter =>
    have hsize : UInt16.size = Limit.jsonLength + 1 := rfl
    rw [List.length_append, List.length_append] at hlength
    cases hvalue with
    | string _ content hcontent =>
      cases hclosing
      refine ⟨before, Byte.quote, content, after, .of_string content hbefore hafter, ?_⟩
      rw [quoted, List.length_append, List.length_append, List.length_singleton] at hlength
      have hstop : (Token.closed .string (0 + before.length + 1)
          (0 + before.length + 1 + content.length)).closing = _ := Token.stop_closed (by omega) _ _
      rw [hstop, Nat.zero_add]
    | primitive => cases hclosing
    | empty container _ blank hblank =>
      rw [Token.closed, container.closing?_kind] at hclosing
      cases hclosing
      refine ⟨before, container.opening, blank, after, .of_container _ _ hbefore hafter, ?_⟩
      simp only [List.length_append, List.length_singleton] at hlength
      rw [Token.closing_container container (by omega)]
      omega
    | filled container _ inner _ hentries =>
      rw [Token.closed, container.closing?_kind] at hclosing
      cases hclosing
      refine ⟨before, container.opening, inner, after, .of_container _ _ hbefore hafter, ?_⟩
      simp only [List.length_append, List.length_singleton] at hlength
      rw [Token.closing_container container (by omega)]
      omega

theorem Bounded.take {text before inner after : Bytes} {opening closing : UInt8}
    (h : Bounded text before opening inner closing after)
    (hn : n ≤ before.length + 1 + inner.length) :
    Blanks (text.take n) ∨
      (∃ front, text.take n = before ++ opening :: front) ∧ closing ∈ text.drop n := by
  rw [h.text_eq, List.append_assoc]
  rcases Nat.lt_or_ge before.length n with hlonger | hshorter
  · right
    obtain ⟨k, rfl⟩ := Nat.exists_eq_add_of_lt hlonger
    have hk : k ≤ inner.length := by omega
    rw [Nat.add_assoc, List.take_length_add_append, List.drop_length_add_append]
    refine ⟨⟨inner.take k, ?_⟩, ?_⟩
    · rw [List.cons_append, List.take_succ_cons, List.take_append_of_le_length hk]
    · rw [List.cons_append, List.drop_succ_cons, List.drop_append_of_le_length hk]
      simp
  · left
    rw [List.take_append_of_le_length hshorter]
    intro c hc
    exact h.blank_before c (List.mem_of_mem_take hc)

theorem Reads.cases_depth {container : Option Container} {text : Bytes} {tokens : List Token}
    (h : Reads container text expect depth tokens) :
    (depth ≠ 0 ∧ tokens ≠ []) ∨ Blanks text ∨
      (expect = .separator ∧ ∃ tree, IsText text tree) := by
  cases h with
  | inside => exact .inl ⟨Nat.succ_ne_zero _, by simp⟩
  | outermost _ _ trees hprogress =>
    cases hprogress with
    | start _ _ hblank => exact .inr (.inl hblank)
    | done _ _ _ helement =>
      obtain ⟨tree, rfl⟩ := helement.eq_singleton (.inr rfl)
      exact .inr (.inr ⟨rfl, tree, helement⟩)

namespace Scanner

theorem length_tokens_lt_of_closePrimitive {s t : Scanner} (h : s.closePrimitive start = .ok t) :
    s.tokens.length < Limit.tokens := by
  obtain ⟨u, hu, -⟩ := bind_eq_ok.1 h
  exact (push_eq_ok.1 hu).1

theorem length_tokens_lt_of_primitive {s t : Scanner} {rest : Bytes}
    (hmode : s.mode = .primitive start) (h : s.read rest = .ok t) :
    s.tokens.length < Limit.tokens := by
  induction rest generalizing s with
  | nil =>
    rw [read, List.foldlM_nil] at h
    obtain ⟨u, hu, hsettle⟩ := bind_eq_ok.1 h
    cases hu
    rw [settle, hmode] at hsettle
    exact length_tokens_lt_of_closePrimitive hsettle
  | cons c rest ih =>
    rw [read_cons] at h
    obtain ⟨u, hu, hrest⟩ := bind_eq_ok.1 h
    obtain ⟨v, hv, hreturn⟩ := bind_eq_ok.1 hu
    cases hreturn
    simp only [take, hmode] at hv
    split at hv
    · obtain ⟨w, hclose, -⟩ := bind_eq_ok.1 hv
      exact length_tokens_lt_of_closePrimitive hclose
    · split at hv
      · cases hv
        exact ih (s := s.advance 1) hmode hrest
      · contradiction

theorem finish_of_inside {s : Scanner} (h : s.Inside escaped) :
    s.finish = .error .incompleteJson := by
  unfold finish
  cases h with
  | string start hmode =>
    rw [hmode]
    rfl
  | escape start hmode =>
    rw [hmode]
    rfl
  | codePoint start left hmode =>
    rw [hmode]
    rfl

theorem finish_of_depth {s : Scanner} (hdepth : s.depth ≠ 0) (htokens : s.tokens ≠ [])
    (hroom : ∀ start, s.mode = .primitive start → s.tokens.length < Limit.tokens) :
    s.finish = .error .incompleteJson := by
  rcases s.outside_or_inside with (hmode | ⟨start, hmode⟩) | ⟨escaped, hinside⟩
  · simp [finish, hmode, hdepth, htokens]
    rfl
  · simp [finish, hmode, closePrimitive, push, hroom start hmode, hdepth]
    rfl
  · exact finish_of_inside hinside

theorem rootDone_of_isText {s : Scanner} {text : Bytes} {tree : Tree} (h : IsText text tree)
    (hlength : text.length < Limit.jsonLength) (hs : text.foldlM step {} = .ok s)
    (hmode : s.mode = .between) : s.rootDone := by
  have hread : read {} text = .ok s := by
    rw [read, hs, ok_bind, settle_of_between hmode]
  have hreaches := reaches_of_grammar h {} ⟨rfl, rfl, rfl⟩ rfl (Nat.zero_le _)
    (by simpa using hlength)
  cases hreaches with
  | done hdone =>
    rw [hread] at hdone
    cases hdone
    rfl
  | tooDeep herror =>
    rw [hread] at herror
    contradiction
  | tooMany herror =>
    rw [hread] at herror
    contradiction

theorem startsPrimitive_of_partial {s : Scanner} {front last : Bytes} (houtside : s.Outside)
    (hlast : Partial s.mode front.length last) (hblank : Blanks front)
    (hfirst : (front ++ last).find? (fun c => !Byte.isBlank c) = some opening) :
    Byte.startsPrimitive opening := by
  rcases houtside with hmode | ⟨start, hmode⟩
  · rw [hmode] at hlast
    cases hlast
    rw [List.append_nil, hblank.find?_eq_none] at hfirst
    contradiction
  · rw [hmode] at hlast
    cases hlast with
    | primitive _ _ hprimitive =>
      cases hprimitive with
      | mk c text hc htext =>
        rw [← Byte.startsPrimitive_iff] at hc
        rw [find?_of_blanks hblank (Byte.not_special_of_startsPrimitive hc).1] at hfirst
        cases hfirst
        exact hc

theorem finish_of_cut {s t : Scanner} {front rest : Bytes} (hs : front.foldlM step {} = .ok s)
    (ht : s.read rest = .ok t) (hlength : front.length < Limit.jsonLength)
    (hfirst : front.find? (fun c => !Byte.isBlank c) = some opening)
    (hopening : Byte.startsPrimitive opening = false) (hrest : c ∈ rest)
    (hc : Byte.isBlank c = false) : s.finish = .error .incompleteJson := by
  have htracked := tracked_of_foldlM tracked_start (by simpa using hlength) hs
  rw [List.nil_append] at htracked
  obtain ⟨-, container, head, last, rfl, hreads, hlast, hvalue⟩ := htracked
  rcases s.outside_or_inside with houtside | ⟨escaped, hinside⟩
  · rcases hreads.cases_depth with ⟨hdepth, htokens⟩ | hblank | ⟨hexpect, tree, htext⟩
    · apply finish_of_depth hdepth htokens
      intro start hmode
      exact length_tokens_lt_of_primitive hmode ht
    · have hstarts := startsPrimitive_of_partial houtside hlast hblank hfirst
      rw [hopening] at hstarts
      contradiction
    · rcases houtside with hmode | ⟨start, hmode⟩
      · -- a complete text goes on with blanks only
        rw [hmode] at hlast
        cases hlast
        rw [List.append_nil] at hs hlength
        have hroot := rootDone_of_isText htext hlength hs hmode
        obtain ⟨u, hu, -⟩ := bind_eq_ok.1 ht
        have hblank := isBlank_of_rootDone hmode hroot hu c hrest
        rw [hc] at hblank
        contradiction
      · have hexpects := (expectsValue_iff s).1 (hvalue start hmode)
        simp [hexpect] at hexpects
  · exact finish_of_inside hinside

end Scanner

theorem tokenize_eq_foldlM_bind {text : Bytes} (hlength : text.length < Limit.jsonLength) :
    tokenize text = text.foldlM Scanner.step {} >>= Scanner.finish := by
  rw [tokenize, if_neg (by omega)]

theorem tokenize_of_blanks {text : Bytes} (h : Blanks text)
    (hlength : text.length < Limit.jsonLength) : tokenize text = .error .noTokens := by
  rw [tokenize_eq_foldlM_bind hlength, Scanner.foldlM_blanks h {} rfl]
  rfl

theorem tokenize_of_cut {front rest : Bytes} (h : tokenize (front ++ rest) = .ok found)
    (hfirst : front.find? (fun c => !Byte.isBlank c) = some opening)
    (hopening : Byte.startsPrimitive opening = false) (hrest : c ∈ rest)
    (hc : Byte.isBlank c = false) : tokenize front = .error .incompleteJson := by
  obtain ⟨hlength, -⟩ := isText_of_tokenize h
  have hshort : front.length < Limit.jsonLength := by
    rw [List.length_append] at hlength
    omega
  rw [tokenize_eq_read_bind hlength, Scanner.read, List.foldlM_append, bind_assoc, bind_assoc] at h
  obtain ⟨s, hs, h⟩ := bind_eq_ok.1 h
  rw [← bind_assoc] at h
  obtain ⟨t, hread, -⟩ := bind_eq_ok.1 h
  rw [tokenize_eq_foldlM_bind hshort, hs, ok_bind]
  exact Scanner.finish_of_cut hs hread hshort hfirst hopening hrest hc

theorem truncated_texts_are_incomplete {text : Bytes} {root : Token} {inside : List Token}
    (h : tokenize text = .ok (root :: inside)) (hclosing : root.kind.closing? = some closing) :
    text[root.closing]? = some closing ∧ Blanks (text.drop (root.closing + 1)) ∧
      ∀ n ≤ root.closing,
        (Blanks (text.take n) → tokenize (text.take n) = .error .noTokens) ∧
        (¬ Blanks (text.take n) → tokenize (text.take n) = .error .incompleteJson) := by
  obtain ⟨hlength, ⟨token, children⟩, htext, htokens⟩ := isText_of_tokenize h
  rw [Tree.tokens_node, List.cons.injEq] at htokens
  obtain ⟨rfl, -⟩ := htokens
  obtain ⟨before, opening, inner, after, hbounded, hend⟩ := htext.bounded hlength hclosing
  have heq := hbounded.text_eq
  have hfront : (before ++ opening :: inner).length = root.closing := by
    rw [hend, List.length_append, List.length_cons]
    omega
  refine ⟨?_, ?_, ?_⟩
  · rw [heq, List.getElem?_append_right (by omega), hfront, Nat.sub_self]
    rfl
  · rw [heq, ← hfront, List.drop_length_add_append]
    exact hbounded.blank_after
  · intro n hn
    have hshort : (text.take n).length < Limit.jsonLength := by
      rw [List.length_take]
      omega
    constructor
    · intro hblank
      exact tokenize_of_blanks hblank hshort
    · intro hbegun
      rcases hbounded.take (hend ▸ hn) with hblank | ⟨⟨part, hpart⟩, hrest⟩
      · exact absurd hblank hbegun
      · rw [← List.take_append_drop n text] at h
        apply tokenize_of_cut h _ hbounded.begins.2 hrest hbounded.ends
        rw [hpart]
        exact find?_of_blanks hbounded.blank_before hbounded.begins.1 part

theorem truncated_texts_are_incomplete_array :
    let text := ascii " [-10,\x7b\"k\":\"\\u00e9\"\x7d] "
    ∃ root inside, tokenize text = .ok (root :: inside) ∧ root.closing = 20 ∧
      tokenize (text.take 1) = .error .noTokens ∧
      tokenize (text.take 4) = .error .incompleteJson ∧
      tokenize (text.take 16) = .error .incompleteJson ∧
      tokenize (text.take 20) = .error .incompleteJson := by
  intro text
  have htokens : tokenize text = .ok [.closed .array 1 21, .closed .primitive 2 5,
      .closed .object 6 20, .closed .string 8 9, .closed .string 12 18] := by
    rfl
  obtain ⟨-, -, hcut⟩ := truncated_texts_are_incomplete htokens rfl
  have hbegun : ∀ n ∈ [4, 16, 20], ¬ Blanks (text.take n) := by
    unfold Blanks
    decide +kernel
  refine ⟨_, _, htokens, rfl, (hcut 1 (by decide)).1 ?_, (hcut 4 (by decide)).2 ?_,
    (hcut 16 (by decide)).2 ?_, (hcut 20 (by decide)).2 ?_⟩
  · unfold Blanks
    decide +kernel
  all_goals
    apply hbegun
    decide

end ClearSign.Json
