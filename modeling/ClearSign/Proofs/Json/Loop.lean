import ClearSign.Proofs.Json.Iteration

/-!
This module contains the loop over a whole text: which states it comes through, that all of them are
consistent, and that it ends. Each state is the one that the scanner is in behind the same bytes,
and the end is what the scanner says about the text.
-/

namespace ClearSign.Json

open Halt

namespace Scanner

inductive Passes (text : Bytes) : Scanner → Prop where
  | start : text.length < Limit.jsonLength → Passes text {}
  | next (s t : Scanner) (c : UInt8) (rest : Bytes) : Passes text s →
      text.drop s.pos = c :: rest → s.iterate c rest = .ok t → Passes text t

inductive Ends (text : Bytes) : Except Halt (List Token) → Prop where
  | tooLong : Limit.jsonLength ≤ text.length → Ends text (refuse .valueOutOfRange)
  | stopped (s : Scanner) (c : UInt8) (rest : Bytes) (halt : Halt) : Passes text s →
      text.drop s.pos = c :: rest → s.iterate c rest = .error halt → Ends text (.error halt)
  | finished (s : Scanner) : Passes text s → text.drop s.pos = [] →
      Ends text (refusing s.finish)

theorem Follows.of_ok {s t : Scanner} {rest : Bytes} (h : s.Follows rest outcome)
    (ht : outcome = .ok t) :
    ∃ piece after, rest = piece ++ after ∧ piece ≠ [] ∧ t.mode = .between ∧
      t.pos = s.pos + piece.length ∧
      ∀ more, more <+: after → s.read (piece ++ more) = t.read more := by
  cases h with
  | next u piece after hrest hne hmode hpos hread =>
    cases ht
    exact ⟨piece, after, hrest, hne, hmode, hpos, hread⟩
  | refused => contradiction

theorem Follows.of_error {s : Scanner} {rest : Bytes} (h : s.Follows rest outcome)
    (hhalt : outcome = .error halt) :
    ∃ fault, halt = .refused fault ∧ s.read rest >>= finish = .error fault := by
  cases h with
  | next => contradiction
  | refused fault hread =>
    cases hhalt
    exact ⟨fault, rfl, hread⟩

theorem follows_iterate {s : Scanner} {rest : Bytes} (h : s.Settled text) (hsteady : s.Steady)
    (hlength : text.length + rest.length + 1 < Limit.jsonLength) :
    s.Follows (c :: rest) (s.iterate c rest) := by
  by_cases hone : s.rootDone ∨ c ≠ Byte.quote ∧ Byte.startsPrimitive c = false
  · exact follows_of_step h hsteady (by omega) rest hone
  · rw [not_or, Bool.not_eq_true] at hone
    obtain ⟨hroot, hc⟩ := hone
    by_cases hquote : c = Byte.quote
    · rw [hquote]
      exact follows_string h hlength hroot
    · apply follows_primitive h hlength hroot
      rw [← Bool.not_eq_false]
      exact fun hprimitive => hc ⟨hquote, hprimitive⟩

structure Stands (s : Scanner) (text : Bytes) : Prop where
  length_lt : text.length < Limit.jsonLength
  mode : s.mode = .between
  pos_le : s.pos ≤ text.length
  read_eq : ∀ more, more <+: text.drop s.pos → read {} (text.take s.pos ++ more) = s.read more

theorem stands_start {text : Bytes} (h : text.length < Limit.jsonLength) : Stands {} text :=
  ⟨h, rfl, Nat.zero_le _, fun _ _ => rfl⟩

namespace Stands

variable {s t : Scanner} {text rest : Bytes}

theorem read_take (h : s.Stands text) : read {} (text.take s.pos) = .ok s := by
  have hread := h.read_eq [] List.nil_prefix
  rwa [List.append_nil, read_nil h.mode] at hread

theorem tokenize_eq (h : s.Stands text) : tokenize text = s.read (text.drop s.pos) >>= finish := by
  rw [tokenize_eq_read_bind h.length_lt, ← h.read_eq _ (List.prefix_refl _), List.take_append_drop]

theorem length_take_lt (h : s.Stands text) : (text.take s.pos).length < Limit.jsonLength :=
  Nat.lt_of_le_of_lt (List.length_take_le' _ _) h.length_lt

theorem consistent (h : s.Stands text) : s.Consistent (text.take s.pos) := by
  obtain ⟨hsettled, hsteady⟩ := settled_of_read h.length_take_lt h.read_take h.mode
  exact hsettled.consistent hsteady h.length_take_lt

theorem follows (h : s.Stands text) (hdrop : text.drop s.pos = c :: rest) :
    s.Follows (c :: rest) (s.iterate c rest) := by
  obtain ⟨hsettled, hsteady⟩ := settled_of_read h.length_take_lt h.read_take h.mode
  apply follows_iterate hsettled hsteady
  have hlength := congrArg List.length (List.take_append_drop s.pos text)
  rw [hdrop, List.length_append, List.length_cons] at hlength
  have htext := h.length_lt
  omega

theorem next (h : s.Stands text) (hdrop : text.drop s.pos = c :: rest)
    (ht : s.iterate c rest = .ok t) : t.Stands text ∧ s.pos < t.pos := by
  obtain ⟨piece, after, hrest, hne, hmode, hpos, hread⟩ := (h.follows hdrop).of_ok ht
  rw [hrest] at hdrop
  have htake : text.take t.pos = text.take s.pos ++ piece := by
    rw [hpos, List.take_add, hdrop, List.take_left]
  have hafter : text.drop t.pos = after := by
    rw [hpos, ← List.drop_drop, hdrop, List.drop_left]
  refine ⟨⟨h.length_lt, hmode, ?_, ?_⟩, ?_⟩
  · have hlength := congrArg List.length hdrop
    rw [List.length_drop, List.length_append] at hlength
    have hle := h.pos_le
    omega
  · intro more hmore
    rw [hafter] at hmore
    rw [htake, List.append_assoc, h.read_eq, hread more hmore]
    rw [hdrop]
    exact (List.prefix_append_right_inj piece).2 hmore
  · rw [hpos]
    exact Nat.lt_add_of_pos_right (List.length_pos_iff.2 hne)

end Stands

theorem Passes.stands {s : Scanner} (h : Passes text s) : s.Stands text := by
  induction h with
  | start hlength => exact stands_start hlength
  | next s t c rest _ hdrop ht ih => exact (ih.next hdrop ht).1

theorem Ends.eq (h : Ends text outcome) : outcome = refusing (tokenize text) := by
  cases h with
  | tooLong hlength => rw [tokenize, if_pos hlength, refusing_error]
  | stopped s c rest halt hs hdrop hhalt =>
    obtain ⟨fault, rfl, hread⟩ := (hs.stands.follows hdrop).of_error hhalt
    rw [hs.stands.tokenize_eq, hdrop, hread, refusing_error]
    rfl
  | finished s hs hdrop => rw [hs.stands.tokenize_eq, hdrop, read_nil hs.stands.mode, ok_bind]

theorem Passes.exists_ends {s : Scanner} (h : Passes text s) : ∃ outcome, Ends text outcome := by
  -- Less of the text is left after each iteration, so that there is a last one.
  cases hdrop : text.drop s.pos with
  | nil => exact ⟨_, .finished s h hdrop⟩
  | cons c rest =>
    cases ht : s.iterate c rest with
    | error halt => exact ⟨_, .stopped s c rest halt h hdrop ht⟩
    | ok t =>
      have hnext := h.stands.next hdrop ht
      have hle := hnext.1.pos_le
      exact (Passes.next s t c rest h hdrop ht).exists_ends
termination_by text.length - s.pos

theorem exists_ends (text : Bytes) : ∃ outcome, Ends text outcome := by
  by_cases hlength : text.length < Limit.jsonLength
  · exact (Passes.start hlength).exists_ends
  · exact ⟨_, .tooLong (Nat.le_of_not_lt hlength)⟩

theorem loop_is_consistent (text : Bytes) :
    (∀ s, Passes text s →
      read {} (text.take s.pos) = .ok s ∧ s.Consistent (text.take s.pos) ∧
        ∀ c rest, text.drop s.pos = c :: rest →
          (∀ breach, s.iterate c rest ≠ .error (.breached breach)) ∧
            ∀ t, s.iterate c rest = .ok t → s.pos < t.pos ∧ t.pos ≤ text.length) ∧
      ∀ outcome, Ends text outcome ↔ outcome = refusing (tokenize text) := by
  constructor
  · intro s hs
    refine ⟨hs.stands.read_take, hs.stands.consistent, ?_⟩
    intro c rest hdrop
    constructor
    · intro breach hbreach
      obtain ⟨fault, hfault, -⟩ := (hs.stands.follows hdrop).of_error hbreach
      contradiction
    · intro t ht
      obtain ⟨hnext, hpos⟩ := hs.stands.next hdrop ht
      exact ⟨hpos, hnext.pos_le⟩
  · intro outcome
    constructor
    · exact Ends.eq
    · rintro rfl
      obtain ⟨outcome, hends⟩ := exists_ends text
      rwa [← hends.eq]

theorem loop_is_consistent_behind_key :
    let text := ascii "[\x7b\"k\":"
    let s : Scanner :=
      { pos := 5
        expect := .colon
        depth := 2
        tokens := [.closed .string 3 4, .opened .object 1, .opened .array 0] }
    Passes text s ∧ s.Consistent (text.take 5) ∧ text.drop 5 = [Byte.colon] ∧
      (∀ breach, s.iterate Byte.colon [] ≠ .error (.breached breach)) ∧
        Ends text (refuse .incompleteJson) := by
  intro text s
  have hbracket : Passes text
      { pos := 1, expect := .firstValue, depth := 1, tokens := [.opened .array 0] } :=
    .next {} _ Byte.openBracket (ascii "\x7b\"k\":") (.start (by decide)) rfl rfl
  have hbrace : Passes text
      { pos := 2
        expect := .firstKey
        depth := 2
        tokens := [.opened .object 1, .opened .array 0] } :=
    .next _ _ Byte.openBrace (ascii "\"k\":") hbracket rfl rfl
  have hkey : Passes text s := .next _ _ Byte.quote (ascii "k\":") hbrace rfl rfl
  obtain ⟨hall, hends⟩ := loop_is_consistent text
  obtain ⟨-, hconsistent, hiterate⟩ := hall s hkey
  exact ⟨hkey, hconsistent, rfl, (hiterate Byte.colon [] rfl).1, (hends _).2 rfl⟩

end Scanner

end ClearSign.Json
