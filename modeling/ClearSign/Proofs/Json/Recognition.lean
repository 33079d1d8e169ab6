import ClearSign.Proofs.Json.Completeness
import ClearSign.Proofs.Json.Soundness

/-!
This module contains the proof that the scanner accepts exactly the texts of the grammar that keep
its limits, and says which limit another text of the grammar exceeds.
-/

namespace ClearSign.Json

theorem tokenize_eq_ok_iff {text : Bytes} {found : List Token} :
    tokenize text = .ok found ↔
      text.length < Limit.jsonLength ∧ ∃ tree, IsText text tree ∧ tree.height ≤ Limit.depth ∧
        tree.tokens.length ≤ Limit.tokens ∧ found = tree.tokens := by
  constructor
  · intro h
    obtain ⟨hlength, tree, htext, rfl⟩ := isText_of_tokenize h
    refine ⟨hlength, tree, htext, ?_⟩
    rcases tokenize_of_isText htext hlength with ⟨-, hdepth, hcount⟩ | ⟨herror, -⟩ | ⟨herror, -⟩
    · exact ⟨hdepth, hcount, rfl⟩
    · rw [h] at herror
      contradiction
    · rw [h] at herror
      contradiction
  · rintro ⟨hlength, tree, htext, hdepth, hcount, rfl⟩
    rcases tokenize_of_isText htext hlength with ⟨hok, -⟩ | ⟨-, hdeep⟩ | ⟨-, hmany⟩
    · exact hok
    · omega
    · omega

theorem tokenize_eq_error_of_exceeds {text : Bytes} {tree : Tree} (htext : IsText text tree)
    (hlength : text.length < Limit.jsonLength)
    (hexceeds : Limit.depth < tree.height ∨ Limit.tokens < tree.tokens.length) :
    (tokenize text = .error .nestedTooDeep ∧ Limit.depth < tree.height) ∨
      (tokenize text = .error .tooManyTokens ∧ Limit.tokens < tree.tokens.length) := by
  rcases tokenize_of_isText htext hlength with ⟨-, hdepth, hcount⟩ | herror | herror
  · omega
  · exact .inl herror
  · exact .inr herror

theorem tokenize_eq_error_of_not_isText {text : Bytes}
    (h : (¬ ∃ tree, IsText text tree) ∨ Limit.jsonLength ≤ text.length) :
    ∃ fault, tokenize text = .error fault := by
  cases hfound : tokenize text with
  | error fault => exact ⟨fault, rfl⟩
  | ok found =>
    obtain ⟨hlength, tree, htext, -⟩ := isText_of_tokenize hfound
    rcases h with h | h
    · exact absurd ⟨tree, htext⟩ h
    · omega

theorem tokenize_recognizes (text : Bytes) :
    (∀ found, tokenize text = .ok found ↔
      text.length < 65535 ∧ ∃ tree, IsText text tree ∧ tree.height ≤ 24 ∧
        tree.tokens.length ≤ 768 ∧ found = tree.tokens) ∧
    (∀ tree, IsText text tree → text.length < 65535 →
      24 < tree.height ∨ 768 < tree.tokens.length →
      (tokenize text = .error .nestedTooDeep ∧ 24 < tree.height) ∨
        (tokenize text = .error .tooManyTokens ∧ 768 < tree.tokens.length)) ∧
    ((¬ ∃ tree, IsText text tree) ∨ 65535 ≤ text.length →
      ∃ fault, tokenize text = .error fault) := by
  refine ⟨fun found => tokenize_eq_ok_iff, ?_, tokenize_eq_error_of_not_isText⟩
  intro tree htext hlength hexceeds
  exact tokenize_eq_error_of_exceeds htext hlength hexceeds

theorem grammar_nested (n pos : Nat) :
    ∃ tree, Grammar .value pos
        (List.replicate (n + 1) Byte.openBracket ++ List.replicate (n + 1) Byte.closeBracket) [tree] ∧
      tree.height = n + 1 ∧ tree.tokens.length = n + 1 := by
  induction n generalizing pos with
  | zero => exact ⟨_, .empty .array pos [] Blanks.nil, rfl, rfl⟩
  | succ n ih =>
    obtain ⟨tree, htree, hheight, hcount⟩ := ih (pos + 1)
    have helement := Grammar.element (pos + 1) [] _ [] _ Blanks.nil htree Blanks.nil
    rw [List.nil_append, List.append_nil] at helement
    have hvalue := Grammar.filled .array pos _ _ (.one _ _ _ _ helement)
    rw [List.replicate_succ, List.replicate_succ' (n := n + 1), List.cons_append,
      ← List.append_assoc]
    refine ⟨_, hvalue, ?_, ?_⟩
    · simp [Token.closed, Token.isContainer, Container.kind, hheight, Nat.add_comm]
    · simp [hcount]

theorem tokenize_recognizes_array :
    tokenize (ascii "[ 1 ]") = .ok [.closed .array 0 5, .closed .primitive 2 3] ∧
      tokenize (List.replicate 25 Byte.openBracket ++ List.replicate 25 Byte.closeBracket) =
        .error .nestedTooDeep ∧
      ∃ fault, tokenize (List.replicate 65535 Byte.openBracket) = .error fault := by
  refine ⟨?_, ?_, ?_⟩
  · have hone : Grammar .value 2 [49] [.leaf .primitive 2 3] :=
      .primitive 2 [49] (.mk 49 [] (by decide) (by simp))
    have hblank : Blanks [32] := by
      intro c hc
      rw [List.mem_singleton] at hc
      rw [hc]
      decide
    have helement := Grammar.element 1 [32] [49] [32] _ hblank hone hblank
    have harray := Grammar.filled .array 0 _ _ (.one _ _ _ _ helement)
    have htext := Grammar.element 0 [] _ [] _ Blanks.nil harray Blanks.nil
    exact ((tokenize_recognizes _).1 _).2 ⟨by decide, _, htext, by decide, by decide, rfl⟩
  · obtain ⟨tree, htree, hheight, hcount⟩ := grammar_nested 24 0
    have htext := Grammar.element 0 [] _ [] _ Blanks.nil htree Blanks.nil
    rw [List.nil_append, List.append_nil] at htext
    rcases (tokenize_recognizes _).2.1 tree htext (by decide) (.inl (by omega)) with h | h
    · exact h.1
    · omega
  · exact (tokenize_recognizes _).2.2 (.inr (by rw [List.length_replicate]))

end ClearSign.Json
