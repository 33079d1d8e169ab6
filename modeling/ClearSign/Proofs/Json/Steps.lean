import ClearSign.Proofs.Json.Grammar
import ClearSign.Proofs.Outcome
import Mathlib.Data.FinEnum

/-!
This module contains what the scanner does with a single token, or with a run of blanks, that it
takes without a fault.
-/

namespace ClearSign.Json

namespace Byte

theorem isBlank_iff (c : UInt8) : isBlank c ↔ c ∈ ascii " \t\r\n" := by
  revert c
  decide +kernel

theorem isEscapable_iff (c : UInt8) : isEscapable c ↔ c ∈ ascii "\"\\/bfnrt" := by
  revert c
  decide +kernel

theorem isHexDigit_iff (c : UInt8) : isHexDigit c ↔ c ∈ ascii "0123456789abcdefABCDEF" := by
  revert c
  decide +kernel

theorem startsPrimitive_iff (c : UInt8) : startsPrimitive c ↔ c ∈ ascii "-0123456789tfn" := by
  revert c
  decide +kernel

theorem inPrimitive_iff (c : UInt8) :
    (endsPrimitive c = false ∧ isPrintable c) ↔
      33 ≤ c ∧ c ≤ 126 ∧ c ∉ ascii ",:]\x7d[\x7b\"" := by
  revert c
  decide +kernel

theorem endsPrimitive_of_isBlank {c : UInt8} (h : isBlank c) : endsPrimitive c := by
  simp [endsPrimitive, h]

theorem not_special_of_startsPrimitive {c : UInt8} (h : startsPrimitive c) :
    isBlank c = false ∧ c ≠ openBrace ∧ c ≠ openBracket ∧ c ≠ closeBrace ∧ c ≠ closeBracket ∧
      c ≠ quote ∧ c ≠ colon ∧ c ≠ comma := by
  revert c
  decide +kernel

theorem endsPrimitive_closing (container : Container) : endsPrimitive container.closing := by
  cases container <;> rfl

theorem ne_codePoint_of_isEscapable {c : UInt8} (h : isEscapable c) : c ≠ codePoint := by
  revert c
  decide +kernel

end Byte

theorem Blanks.isBlank {text : Bytes} (h : Blanks text) : ∀ c ∈ text, Byte.isBlank c := by
  intro c hc
  rw [Byte.isBlank_iff]
  exact h c hc

namespace Scanner

def advance (s : Scanner) (n : Nat) : Scanner :=
  { s with pos := s.pos + n }

@[simp]
theorem advance_advance (s : Scanner) (m n : Nat) : (s.advance m).advance n = s.advance (m + n) := by
  simp [advance, Nat.add_assoc]

@[simp]
theorem mode_advance (s : Scanner) (n : Nat) : (s.advance n).mode = s.mode := rfl

@[simp]
theorem pos_advance (s : Scanner) (n : Nat) : (s.advance n).pos = s.pos + n := rfl

@[simp]
theorem depth_advance (s : Scanner) (n : Nat) : (s.advance n).depth = s.depth := rfl

@[simp]
theorem tokens_advance (s : Scanner) (n : Nat) : (s.advance n).tokens = s.tokens := rfl

def settle (s : Scanner) : Except Fault Scanner :=
  match s.mode with
  | .primitive start => s.closePrimitive start
  | .between | .string _ | .escape _ | .codePoint _ _ => .ok s

def read (s : Scanner) (text : Bytes) : Except Fault Scanner := do
  let s ← text.foldlM step s
  s.settle

theorem settle_of_between {s : Scanner} (h : s.mode = .between) : s.settle = .ok s := by
  simp [settle, h]

theorem step_eq_settle_bind {c : UInt8} (s : Scanner) (h : Byte.endsPrimitive c) :
    s.step c = s.settle >>= (·.step c) := by
  unfold settle
  split
  · next start hmode =>
    simp only [step, take, hmode, h, if_true, closePrimitive, bind_assoc]
    cases s.push _ with
    | error fault => rfl
    | ok s => rfl
  all_goals rfl

theorem read_cons (s : Scanner) (c : UInt8) (text : Bytes) :
    s.read (c :: text) = s.step c >>= (·.read text) := by
  simp [read]

theorem read_append_of_foldlM {s t : Scanner} {first : Bytes} (h : first.foldlM step s = .ok t)
    (second : Bytes) : s.read (first ++ second) = t.read second := by
  unfold read
  rw [List.foldlM_append, h]
  rfl

theorem read_append {c : UInt8} (s : Scanner) (first second : Bytes) (h : Byte.endsPrimitive c) :
    s.read (first ++ c :: second) = s.read first >>= (·.read (c :: second)) := by
  unfold read
  rw [List.foldlM_append, bind_assoc, bind_assoc]
  congr
  funext t
  simp only [List.foldlM_cons]
  rw [step_eq_settle_bind t h]
  simp only [bind_assoc]

theorem mode_of_closePrimitive {s t : Scanner} (h : s.closePrimitive start = .ok t) :
    t.mode = .between := by
  obtain ⟨u, -, hu⟩ := bind_eq_ok.1 h
  cases hu
  rfl

theorem finish_eq_settle_bind (s : Scanner) : s.finish = s.settle >>= finish := by
  unfold settle
  split
  · next start hmode =>
    unfold finish
    rw [hmode]
    dsimp only
    cases hclose : s.closePrimitive start with
    | error fault => rfl
    | ok t =>
      rw [ok_bind, ok_bind, mode_of_closePrimitive hclose]
      rfl
  all_goals rfl

theorem foldlM_blanks {text : Bytes} (h : Blanks text) (s : Scanner) (hmode : s.mode = .between) :
    text.foldlM step s = .ok (s.advance text.length) := by
  induction text generalizing s with
  | nil => rfl
  | cons c text ih =>
    have hc : Byte.isBlank c := h.isBlank c (by simp)
    have hstep : s.step c = .ok (s.advance 1) := by
      simp [step, take, hmode, between, hc, advance]
    rw [List.foldlM_cons, hstep, ok_bind, ih]
    · rw [advance_advance, List.length_cons, Nat.add_comm]
    · intro b hb
      apply h
      simp [hb]
    · exact hmode

theorem foldlM_piece {piece : Bytes} (h : Piece piece) (s : Scanner)
    (hmode : s.mode = .string start) :
    piece.foldlM step s = .ok (s.advance piece.length) := by
  rcases s with ⟨pos, mode, expect, depth, rootDone, tokens⟩
  dsimp only at hmode
  subst hmode
  have hbackslash : Byte.backslash ≠ Byte.quote := by decide
  cases h with
  | plain c hquote hplain =>
    simp [step, take, hquote, hplain, advance]
  | escape c hc =>
    rw [← Byte.isEscapable_iff] at hc
    have hne := Byte.ne_codePoint_of_isEscapable hc
    simp [step, take, hc, hne, hbackslash, advance]
  | codePoint digits hlength hdigits =>
    have hhex : ∀ c ∈ digits, Byte.isHexDigit c := by
      intro c hc
      rw [Byte.isHexDigit_iff]
      exact hdigits c hc
    match digits, hlength with
    | [a, b, c, d], _ =>
      simp only [List.mem_cons, List.not_mem_nil, or_false, forall_eq_or_imp, forall_eq] at hhex
      simp [step, take, hbackslash, hhex, advance]

theorem foldlM_contents {text : Bytes} (h : Contents text) (s : Scanner)
    (hmode : s.mode = .string start) :
    text.foldlM step s = .ok (s.advance text.length) := by
  induction h with
  | nil => rfl
  | snoc text piece htext hpiece ih =>
    rw [List.foldlM_append, ih, ok_bind, foldlM_piece hpiece (s.advance text.length) hmode]
    rw [advance_advance, List.length_append]

def expectsKey (s : Scanner) : Bool :=
  s.expect == .firstKey || s.expect == .key

theorem expectsValue_iff (s : Scanner) :
    s.expectsValue ↔ s.expect = .value ∨ s.expect = .firstValue := by
  simp [expectsValue]

theorem expectsKey_iff (s : Scanner) :
    s.expectsKey ↔ s.expect = .firstKey ∨ s.expect = .key := by
  simp [expectsKey]

theorem closeString_eq {s : Scanner} {next : Expect}
    (hnext : (s.expectsValue ∧ next = .separator) ∨ (s.expectsKey ∧ next = .colon)) (start : Nat) :
    s.closeString start =
      if s.tokens.length < Limit.tokens then
        .ok
          { s with
            mode := .between
            expect := next
            rootDone := s.depth == 0
            tokens := .closed .string start s.pos :: s.tokens }
      else .error .tooManyTokens := by
  unfold closeString push
  rcases hnext with ⟨hexpect, rfl⟩ | ⟨hexpect, rfl⟩
  · rw [expectsValue_iff] at hexpect
    rcases hexpect with hexpect | hexpect
    all_goals
      rw [hexpect]
      split <;> rfl
  · rw [expectsKey_iff] at hexpect
    rcases hexpect with hexpect | hexpect
    all_goals
      rw [hexpect]
      split <;> rfl

theorem foldlM_quoted {text : Bytes} (next : Expect) (h : Contents text) (s : Scanner)
    (hmode : s.mode = .between) (hroot : s.rootDone = false)
    (hnext : (s.expectsValue ∧ next = .separator) ∨ (s.expectsKey ∧ next = .colon)) :
    (quoted text).foldlM step s =
      if s.tokens.length < Limit.tokens then
        .ok
          { s with
            pos := s.pos + text.length + 2
            mode := .between
            expect := next
            rootDone := s.depth == 0
            tokens := .closed .string (s.pos + 1) (s.pos + 1 + text.length) :: s.tokens }
      else .error .tooManyTokens := by
  let inside : Scanner := { s.advance 1 with mode := .string (s.pos + 1) }
  have hopening : s.step Byte.quote = .ok inside := by
    simp [step, take, hmode, between, hroot, Byte.isBlank, Byte.quote, Byte.openBrace,
      Byte.openBracket, Byte.closeBrace, Byte.closeBracket, advance, inside]
  have hclosing : (inside.advance text.length).step Byte.quote =
      (inside.advance text.length).closeString (s.pos + 1) >>= fun t => .ok (t.advance 1) := by
    simp only [step, take, mode_advance, inside, beq_self_eq_true, if_true]
    rfl
  have hclose := closeString_eq (s := inside.advance text.length) hnext (s.pos + 1)
  have htokens : (inside.advance text.length).tokens.length = s.tokens.length := rfl
  have hpos : s.pos + 1 + text.length + 1 = s.pos + text.length + 2 := by omega
  unfold quoted
  rw [List.append_assoc, List.singleton_append, List.foldlM_cons, hopening, ok_bind]
  rw [List.foldlM_append, foldlM_contents h inside rfl, ok_bind]
  rw [List.foldlM_cons, hclosing, hclose, htokens]
  split
  · simp [advance, inside, hpos]
  · rfl

theorem foldlM_inPrimitive {text : Bytes}
    (h : ∀ c ∈ text, Byte.endsPrimitive c = false ∧ Byte.isPrintable c) (s : Scanner)
    (hmode : s.mode = .primitive start) :
    text.foldlM step s = .ok (s.advance text.length) := by
  induction text generalizing s with
  | nil => rfl
  | cons c text ih =>
    have hc := h c (by simp)
    have hstep : s.step c = .ok (s.advance 1) := by
      simp [step, take, hmode, hc, advance]
    rw [List.foldlM_cons, hstep, ok_bind, ih]
    · rw [advance_advance, List.length_cons, Nat.add_comm]
    · intro b hb
      apply h
      simp [hb]
    · exact hmode

theorem read_primitive {text : Bytes} (h : Primitive text) (s : Scanner)
    (hmode : s.mode = .between) (hroot : s.rootDone = false) (hvalue : s.expectsValue) :
    s.read text =
      if s.tokens.length < Limit.tokens then
        .ok
          { s.advance text.length with
            mode := .between
            expect := .separator
            rootDone := s.depth == 0
            tokens := .closed .primitive s.pos (s.pos + text.length) :: s.tokens }
      else .error .tooManyTokens := by
  cases h with
  | mk c text hc htext =>
    rw [← Byte.startsPrimitive_iff] at hc
    have hother := Byte.not_special_of_startsPrimitive hc
    have hstep : s.step c = .ok { s.advance 1 with mode := .primitive s.pos } := by
      simp [step, take, hmode, between, hroot, hother, hc, hvalue, advance]
    have hrest : ∀ c ∈ text, Byte.endsPrimitive c = false ∧ Byte.isPrintable c := by
      intro c hc
      rw [Byte.inPrimitive_iff]
      exact htext c hc
    rw [read_cons, hstep, ok_bind]
    unfold read
    rw [foldlM_inPrimitive hrest { s.advance 1 with mode := .primitive s.pos } rfl, ok_bind]
    simp only [settle, advance, closePrimitive, push, List.length_cons]
    have : s.pos + 1 + text.length = s.pos + (text.length + 1) := by omega
    split
    · next h => simp [h, this]
    · next h => simp [h]

end Scanner

def Container.first : Container → Expect
  | .array => .firstValue
  | .object => .firstKey

def Container.next : Container → Expect
  | .array => .value
  | .object => .key

namespace Scanner

theorem step_opening (container : Container) (s : Scanner) (hmode : s.mode = .between)
    (hroot : s.rootDone = false) (hvalue : s.expectsValue) :
    s.step container.opening =
      if Limit.depth < s.depth + 1 then .error .nestedTooDeep
      else if s.tokens.length < Limit.tokens then
        .ok
          { s.advance 1 with
            depth := s.depth + 1
            expect := container.first
            tokens := .opened container.kind s.pos :: s.tokens }
      else .error .tooManyTokens := by
  have hbetween : s.between container.opening =
      s.openContainer container.kind container.first := by
    cases container <;>
      simp [between, hroot, Container.opening, Container.kind, Container.first, Byte.isBlank,
        Byte.openBrace, Byte.openBracket]
  simp only [step, take, hmode, hbetween, openContainer, push, hvalue, Bool.not_true,
    Bool.false_eq_true, if_false, advance]
  split
  · rfl
  · split
    · rfl
    · rfl

theorem closeInnermost_append {done : List Token} (h : ∀ token ∈ done, token.isOpen = false)
    (kind : Token.Kind) (start stop : Nat) (outer : List Token) :
    closeInnermost stop (done ++ .opened kind start :: outer) =
      done ++ .closed kind start stop :: outer := by
  induction done with
  | nil => rfl
  | cons token done ih =>
    have htoken := h token (by simp)
    have hdone := ih (fun token htoken => h token (by simp [htoken]))
    simp [closeInnermost, htoken, hdone]

theorem find?_isOpen_append {done : List Token} (h : ∀ token ∈ done, token.isOpen = false)
    (outer : List Token) : (done ++ outer).find? Token.isOpen = outer.find? Token.isOpen := by
  have : done.find? Token.isOpen = none := by
    rw [List.find?_eq_none]
    intro token htoken
    simp [h token htoken]
  rw [List.find?_append, this, Option.none_or]

theorem step_closing (container : Container) (s : Scanner) (hmode : s.mode = .between)
    (hroot : s.rootDone = false) (hexpect : s.expect = .separator ∨ s.expect = container.first)
    (htokens : s.tokens = done ++ .opened container.kind start :: outer)
    (hdone : ∀ token ∈ done, token.isOpen = false) :
    s.step container.closing =
      .ok
        { s.advance 1 with
          depth := s.depth - 1
          expect := .separator
          rootDone := s.depth - 1 == 0
          tokens := done ++ .closed container.kind start (s.pos + 1) :: outer } := by
  have hbetween : s.between container.closing =
      s.closeContainer container.kind container.first := by
    cases container <;>
      simp [between, hroot, Container.closing, Container.kind, Container.first, Byte.isBlank,
        Byte.openBrace, Byte.openBracket, Byte.closeBrace, Byte.closeBracket]
  have hinnermost : s.innermost? = some (.opened container.kind start) := by
    rw [innermost?, htokens, find?_isOpen_append hdone]
    rfl
  have hallowed : (s.expect != .separator && s.expect != container.first) = false := by
    rcases hexpect with h | h <;> simp [h]
  simp only [step, take, hmode, hbetween, closeContainer, hallowed, hinnermost, htokens,
    closeInnermost_append hdone]
  simp [Token.opened, advance, hmode]

theorem step_comma (container : Container) (s : Scanner) (token : Token)
    (hmode : s.mode = .between) (hroot : s.rootDone = false) (hexpect : s.expect = .separator)
    (hinnermost : s.innermost? = some token) (hkind : token.kind = container.kind) :
    s.step Byte.comma = .ok { s.advance 1 with expect := container.next } := by
  have hbetween : s.between Byte.comma = s.separate := by
    simp [between, hroot, Byte.isBlank, Byte.openBrace, Byte.openBracket, Byte.closeBrace,
      Byte.closeBracket, Byte.quote, Byte.colon, Byte.comma]
  have hnext : (if token.kind = .object then Expect.key else .value) = container.next := by
    rw [hkind]
    cases container <;> rfl
  simp [step, take, hmode, hbetween, separate, hexpect, hinnermost, hnext, advance]

theorem step_colon (s : Scanner) (hmode : s.mode = .between) (hroot : s.rootDone = false)
    (hexpect : s.expect = .colon) :
    s.step Byte.colon = .ok { s.advance 1 with expect := .value } := by
  simp [step, take, hmode, between, hroot, hexpect, advance, Byte.isBlank, Byte.openBrace,
    Byte.openBracket, Byte.closeBrace, Byte.closeBracket, Byte.quote, Byte.colon]

end Scanner

end ClearSign.Json
