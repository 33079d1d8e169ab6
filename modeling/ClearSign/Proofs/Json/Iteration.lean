import ClearSign.Proofs.Json.Consistency
import ClearSign.Proofs.Json.Extent

/-!
This module contains the scanner as a loop that takes a whole token at a time, with a check of
everything that it relies on, and the proof that no check ever fails and that the loop comes to the
same end as the scanner that takes one byte at a time.
-/

namespace ClearSign.Json

/--
What the loop relies on never to happen.
-/
inductive Breach where
  -- One is taken away from zero.
  | belowZero
  -- A position does not fit into the word that it is kept in.
  | lostBits
  -- A token that is complete ends with the mark of one that is open.
  | marked
  -- A container is to be closed or to go on while none is open.
  | nothingOpen
  deriving DecidableEq, Repr

inductive Halt where
  | refused (fault : Fault)
  | breached (breach : Breach)
  deriving DecidableEq, Repr

namespace Halt

def refuse (fault : Fault) : Except Halt α :=
  .error (.refused fault)

def refusing (x : Except Fault α) : Except Halt α :=
  x.mapError refused

def predecessor : Nat → Except Halt Nat
  | 0 => .error (.breached .belowZero)
  | n + 1 => .ok n

def checkWord (n : Nat) : Except Halt Unit :=
  if n < UInt16.size then .ok () else .error (.breached .lostBits)

def checkStop (n : Nat) : Except Halt Unit := do
  checkWord n
  if UInt16.ofNat n = Token.openMark then .error (.breached .marked) else .ok ()

@[simp]
theorem refusing_ok (a : α) : refusing (.ok a) = .ok a := rfl

@[simp]
theorem refusing_error (fault : Fault) : refusing (.error fault : Except Fault α) = refuse fault := rfl

theorem refusing_bind (x : Except Fault α) (f : α → Except Fault β) :
    refusing (x >>= f) = refusing x >>= fun a => refusing (f a) := by
  cases x with
  | error fault => rfl
  | ok a => rfl

theorem checkWord_of_lt (h : n < Limit.jsonLength) : checkWord n = .ok () := by
  have hsize : UInt16.size = Limit.jsonLength + 1 := rfl
  rw [checkWord, if_pos (by omega)]

theorem checkStop_of_lt (h : n < Limit.jsonLength) : checkStop n = .ok () := by
  have hwithin : (Token.closed .primitive 0 n).Within 0 n :=
    ⟨.primitive, 0, n, rfl, Nat.le_refl _, Nat.zero_le _, Nat.le_refl _⟩
  have hopen := hwithin.isOpen_eq_false h
  rw [checkStop, checkWord_of_lt h, ok_bind, if_neg]
  simpa [Token.isOpen, Token.closed] using hopen

end Halt

open Halt

namespace Scanner

def enter (s : Scanner) (kind : Token.Kind) (first : Expect) : Except Halt Scanner :=
  if !s.expectsValue then refuse .badCharacters
  else if s.depth + 1 > Limit.depth then refuse .nestedTooDeep
  else do
    checkWord s.pos
    let s ← refusing (s.push (.opened kind s.pos))
    return { s with depth := s.depth + 1, expect := first }

def leave (s : Scanner) (kind : Token.Kind) (first : Expect) : Except Halt Scanner :=
  if s.expect != .separator && s.expect != first then refuse .badCharacters
  else match s.innermost? with
    | none => .error (.breached .nothingOpen)
    | some container =>
      if container.kind != kind then refuse .badCharacters
      else do
        checkStop (s.pos + 1)
        let depth ← predecessor s.depth
        return { s with
          tokens := closeInnermost (s.pos + 1) s.tokens
          depth
          expect := .separator
          rootDone := depth == 0 }

def takeString (s : Scanner) (rest : Bytes) : Except Halt Scanner := do
  -- A string that does not end is incomplete, even where no string may stand.
  let stop ← refusing (stringEnd (s.pos + 1) rest)
  let expect ← match s.expect with
    | .value | .firstValue => pure Expect.separator
    | .key | .firstKey => pure Expect.colon
    | .colon | .separator => refuse .badCharacters
  checkWord (s.pos + 1)
  checkStop stop
  let s ← refusing (s.push (.closed .string (s.pos + 1) stop))
  return { s with pos := stop, expect, rootDone := s.depth == 0 }

def takeComma (s : Scanner) : Except Halt Scanner :=
  if s.expect != .separator then refuse .badCharacters
  else match s.innermost? with
    | none => .error (.breached .nothingOpen)
    | some container =>
      .ok { s with expect := if container.kind == .object then .key else .value }

def takePrimitive (s : Scanner) (text : Bytes) : Except Halt Scanner :=
  if !s.expectsValue then refuse .badCharacters
  else do
    let stop ← refusing (primitiveEnd s.pos text)
    checkWord s.pos
    checkStop stop
    let s ← refusing (s.push (.closed .primitive s.pos stop))
    let pos ← predecessor stop
    return { s with pos, expect := .separator, rootDone := s.depth == 0 }

def takeWhole (s : Scanner) (c : UInt8) (rest : Bytes) : Except Halt Scanner :=
  if Byte.isBlank c then .ok s
  else if s.rootDone then refuse .badCharacters
  else if c == Byte.openBrace then s.enter .object .firstKey
  else if c == Byte.openBracket then s.enter .array .firstValue
  else if c == Byte.closeBrace then s.leave .object .firstKey
  else if c == Byte.closeBracket then s.leave .array .firstValue
  else if c == Byte.quote then s.takeString rest
  else if c == Byte.colon then
    if s.expect == .colon then .ok { s with expect := .value } else refuse .badCharacters
  else if c == Byte.comma then s.takeComma
  else if Byte.startsPrimitive c then s.takePrimitive (c :: rest)
  else refuse .badCharacters

def iterate (s : Scanner) (c : UInt8) (rest : Bytes) : Except Halt Scanner := do
  let s ← s.takeWhole c rest
  return { s with pos := s.pos + 1 }

inductive Follows (s : Scanner) (rest : Bytes) : Except Halt Scanner → Prop where
  | next (t : Scanner) (piece after : Bytes) : rest = piece ++ after → piece ≠ [] →
      t.mode = .between → t.pos = s.pos + piece.length →
      (∀ more, more <+: after → s.read (piece ++ more) = t.read more) → Follows s rest (.ok t)
  | refused (fault : Fault) : s.read rest >>= finish = .error fault →
      Follows s rest (refuse fault)

theorem Follows.of_foldlM {s t : Scanner} {piece : Bytes} (after : Bytes) (hne : piece ≠ [])
    (hmode : t.mode = .between) (hpos : t.pos = s.pos + piece.length)
    (h : piece.foldlM step s = .ok t) : s.Follows (piece ++ after) (.ok t) := by
  refine .next t piece after rfl hne hmode hpos ?_
  intro more _
  exact read_append_of_foldlM h more

theorem Follows.of_foldlM_error {s : Scanner} {piece : Bytes} (after : Bytes)
    (h : piece.foldlM step s = .error fault) : s.Follows (piece ++ after) (refuse fault) := by
  apply Follows.refused
  apply finish_of_foldlM_error
  rw [List.foldlM_append, h]
  rfl

theorem Follows.of_step {s t : Scanner} (after : Bytes) (hmode : t.mode = .between)
    (hpos : t.pos = s.pos + 1) (h : s.step c = .ok t) : s.Follows (c :: after) (.ok t) := by
  have hfold : [c].foldlM step s = .ok t := by
    rw [List.foldlM_cons, h]
    rfl
  exact .of_foldlM after (List.cons_ne_nil c []) hmode hpos hfold

theorem Follows.of_step_error {s : Scanner} (after : Bytes) (h : s.step c = .error fault) :
    s.Follows (c :: after) (refuse fault) := by
  have hfold : [c].foldlM step s = .error fault := by
    rw [List.foldlM_cons, h]
    rfl
  exact .of_foldlM_error after hfold

theorem enter_eq {s : Scanner} (hpos : s.pos < Limit.jsonLength) (kind : Token.Kind)
    (first : Expect) : s.enter kind first = refusing (s.openContainer kind first) := by
  unfold enter openContainer
  split
  · rfl
  · split
    · rfl
    · rw [checkWord_of_lt hpos, ok_bind, refusing_bind]
      rfl

theorem leave_eq {s : Scanner} (h : s.Settled text) (hsteady : s.Steady)
    (hlength : text.length + 1 < Limit.jsonLength) (hroot : s.rootDone = false)
    (kind : Token.Kind) (hfirst : first ≠ .value) :
    s.leave kind first = refusing (s.closeContainer kind first) := by
  unfold leave closeContainer
  split
  · rfl
  · next hexpect =>
    have hvalue : s.expect ≠ .value := by
      intro hvalue
      rw [hvalue] at hexpect
      simp [Ne.symm hfirst] at hexpect
    obtain ⟨hdepth, token, htoken⟩ := h.exists_innermost hsteady (by omega) hroot hvalue
    obtain ⟨depth, hsucc⟩ := Nat.exists_eq_succ_of_ne_zero hdepth
    rw [htoken, hsucc]
    dsimp only
    split
    · rfl
    · rw [checkStop_of_lt (by rw [h.pos]; exact hlength)]
      rfl

theorem takeComma_eq {s : Scanner} (h : s.Settled text) (hsteady : s.Steady)
    (hlength : text.length < Limit.jsonLength) (hroot : s.rootDone = false) :
    s.takeComma = refusing s.separate := by
  unfold takeComma separate
  split
  · rfl
  · next hexpect =>
    have hvalue : s.expect ≠ .value := by
      intro hvalue
      simp [hvalue] at hexpect
    obtain ⟨-, token, htoken⟩ := h.exists_innermost hsteady hlength hroot hvalue
    rw [htoken]
    rfl

theorem takeWhole_eq {s : Scanner} (h : s.Settled text) (hsteady : s.Steady)
    (hlength : text.length + 1 < Limit.jsonLength) (rest : Bytes)
    (hc : s.rootDone ∨ c ≠ Byte.quote ∧ Byte.startsPrimitive c = false) :
    s.takeWhole c rest = refusing (s.between c) := by
  have hpos : s.pos < Limit.jsonLength := by
    rw [h.pos]
    omega
  unfold takeWhole between
  by_cases hblank : Byte.isBlank c
  · rw [if_pos hblank, if_pos hblank, refusing_ok]
  rw [if_neg hblank, if_neg hblank]
  by_cases hroot : s.rootDone
  · rw [if_pos hroot, if_pos hroot, refusing_error]
  rw [if_neg hroot, if_neg hroot]
  obtain ⟨hquote, hprimitive⟩ := hc.resolve_left hroot
  rw [Bool.not_eq_true] at hroot
  split
  · exact enter_eq hpos _ _
  split
  · exact enter_eq hpos _ _
  split
  · exact leave_eq h hsteady hlength hroot _ nofun
  split
  · exact leave_eq h hsteady hlength hroot _ nofun
  split
  · next heq => exact absurd (eq_of_beq heq) hquote
  split
  · split
    · rfl
    · rfl
  split
  · exact takeComma_eq h hsteady (by omega) hroot
  · simp only [hprimitive, Bool.false_eq_true, if_false]
    rfl

theorem mode_of_step {s t : Scanner} (hmode : s.mode = .between)
    (hc : s.rootDone ∨ c ≠ Byte.quote ∧ Byte.startsPrimitive c = false) (ht : s.step c = .ok t) :
    t.mode = .between := by
  obtain ⟨u, hu, hreturn⟩ := bind_eq_ok.1 ht
  cases hreturn
  simp only [take, hmode] at hu
  cases hblank : Byte.isBlank c with
  | true =>
    simp only [between, hblank, if_true] at hu
    cases hu
    exact hmode
  | false =>
    have hroot := rootDone_of_between hu hblank
    obtain ⟨hquote, hprimitive⟩ := hc.resolve_left (by simp [hroot])
    apply (mode_of_between (between_of_ok hu) hmode hquote).1.resolve_right
    simp [hprimitive]

theorem follows_of_step {s : Scanner} (h : s.Settled text) (hsteady : s.Steady)
    (hlength : text.length + 1 < Limit.jsonLength) (rest : Bytes)
    (hc : s.rootDone ∨ c ≠ Byte.quote ∧ Byte.startsPrimitive c = false) :
    s.Follows (c :: rest) (s.iterate c rest) := by
  have hiterate : s.iterate c rest = refusing (s.step c) := by
    simp only [iterate, step, take, h.mode, takeWhole_eq h hsteady hlength rest hc, refusing_bind]
    rfl
  rw [hiterate]
  cases hstep : s.step c with
  | error fault => exact .of_step_error rest hstep
  | ok t =>
    have htracked := tracked_of_step h.tracked (by omega) hstep
    apply Follows.of_step rest (mode_of_step h.mode hc hstep) _ hstep
    rw [htracked.pos, h.pos, List.length_append, List.length_singleton]

theorem takeString_eq {s : Scanner} {rest : Bytes} {next : Expect}
    (hend : stringEnd (s.pos + 1) rest = .ok stop) (hpos : s.pos + 1 < Limit.jsonLength)
    (hstop : stop < Limit.jsonLength)
    (hnext : (s.expectsValue ∧ next = .separator) ∨ (s.expectsKey ∧ next = .colon)) :
    s.takeString rest =
      if s.tokens.length < Limit.tokens then
        .ok
          { s with
            pos := stop
            expect := next
            rootDone := s.depth == 0
            tokens := .closed .string (s.pos + 1) stop :: s.tokens }
      else refuse .tooManyTokens := by
  rw [takeString, hend, refusing_ok, ok_bind, checkWord_of_lt hpos, checkStop_of_lt hstop, push]
  rcases hnext with ⟨hexpect, rfl⟩ | ⟨hexpect, rfl⟩
  · rw [expectsValue_iff] at hexpect
    rcases hexpect with hexpect | hexpect
    all_goals
      rw [hexpect]
      split <;> rfl
  · rw [expectsKey_iff] at hexpect
    rcases hexpect with hexpect | hexpect
    all_goals
      rw [hexpect]
      split <;> rfl

theorem takeString_of_blocked {s : Scanner} {rest : Bytes}
    (hend : stringEnd (s.pos + 1) rest = .ok stop) (hblocked : s.Blocked) :
    s.takeString rest = refuse .badCharacters := by
  rw [takeString, hend]
  rcases hblocked with hexpect | hexpect
  all_goals
    rw [hexpect]
    rfl

theorem step_quote {s : Scanner} (hmode : s.mode = .between) (hroot : s.rootDone = false) :
    s.step Byte.quote = .ok { s.advance 1 with mode := .string (s.pos + 1) } := by
  simp [step, take, hmode, between, hroot, Byte.isBlank, Byte.quote, Byte.openBrace,
    Byte.openBracket, Byte.closeBrace, Byte.closeBracket, advance]

theorem foldlM_quoted_of_blocked {s : Scanner} {text : Bytes} (h : Contents text)
    (hmode : s.mode = .between) (hroot : s.rootDone = false) (hblocked : s.Blocked) :
    (quoted text).foldlM step s = .error .badCharacters := by
  let inside : Scanner := { s.advance 1 with mode := .string (s.pos + 1) }
  have hclosing : (inside.advance text.length).step Byte.quote = .error .badCharacters := by
    simp only [step, take, mode_advance, inside, beq_self_eq_true, if_true, closeString]
    rcases hblocked with hexpect | hexpect
    all_goals
      simp only [advance, hexpect]
      rfl
  rw [quoted, List.append_assoc, List.singleton_append, List.foldlM_cons, step_quote hmode hroot,
    ok_bind, List.foldlM_append, foldlM_contents h inside rfl, ok_bind, List.foldlM_cons, hclosing]
  rfl

theorem expects_or_blocked (s : Scanner) :
    (∃ next, (s.expectsValue ∧ next = Expect.separator) ∨ (s.expectsKey ∧ next = .colon)) ∨
      s.Blocked := by
  cases hexpect : s.expect with
  | value | firstValue => exact .inl ⟨.separator, .inl ⟨by simp [expectsValue, hexpect], rfl⟩⟩
  | key | firstKey => exact .inl ⟨.colon, .inr ⟨by simp [expectsKey, hexpect], rfl⟩⟩
  | separator => exact .inr (.inl hexpect)
  | colon => exact .inr (.inr hexpect)

theorem iterate_quote {s : Scanner} (hroot : s.rootDone = false) (rest : Bytes) :
    s.iterate Byte.quote rest =
      s.takeString rest >>= fun t => .ok { t with pos := t.pos + 1 } := by
  simp only [iterate, takeWhole, hroot]
  rfl

theorem follows_string {s : Scanner} {rest : Bytes} (h : s.Settled text)
    (hlength : text.length + rest.length + 1 < Limit.jsonLength) (hroot : s.rootDone = false) :
    s.Follows (Byte.quote :: rest) (s.iterate Byte.quote rest) := by
  rw [iterate_quote hroot]
  cases hend : stringEnd (s.pos + 1) rest with
  | error fault =>
    have hstring : s.takeString rest = refuse fault := by
      rw [takeString, hend]
      rfl
    rw [hstring]
    apply Follows.refused
    rw [read_cons, step_quote h.mode hroot, ok_bind]
    exact finish_of_stringEnd hend rfl
  | ok stop =>
    obtain ⟨content, after, rfl, hcontent, rfl⟩ := contents_of_stringEnd hend
    have htext : Byte.quote :: (content ++ Byte.quote :: after) = quoted content ++ after := by
      simp [quoted]
    rw [htext]
    -- The scanner judges whether a string may stand here at its closing quote.
    rcases s.expects_or_blocked with ⟨next, hnext⟩ | hblocked
    · simp only [List.length_append, List.length_cons] at hlength
      have hquoted := foldlM_quoted next hcontent s h.mode hroot hnext
      rw [takeString_eq hend (by rw [h.pos]; omega) (by rw [h.pos]; omega) hnext]
      split
      · next hroom =>
        have hpos : s.pos + content.length + 2 = s.pos + 1 + content.length + 1 := by omega
        rw [if_pos hroom, hpos] at hquoted
        rw [ok_bind, h.mode]
        refine .of_foldlM after (by simp [quoted]) rfl ?_ hquoted
        simp only [quoted, List.length_append, List.length_singleton]
        omega
      · next hroom =>
        rw [if_neg hroom] at hquoted
        exact .of_foldlM_error after hquoted
    · rw [takeString_of_blocked hend hblocked]
      exact .of_foldlM_error after (foldlM_quoted_of_blocked hcontent h.mode hroot hblocked)

theorem iterate_primitive {s : Scanner} (hroot : s.rootDone = false) (hc : Byte.startsPrimitive c)
    (rest : Bytes) :
    s.iterate c rest = s.takePrimitive (c :: rest) >>= fun t => .ok { t with pos := t.pos + 1 } := by
  have hother := Byte.not_special_of_startsPrimitive hc
  simp only [iterate, takeWhole, hroot, hc, hother, beq_iff_eq, Bool.false_eq_true, if_false,
    if_true]
  rfl

theorem between_primitive {s : Scanner} (hroot : s.rootDone = false) (hc : Byte.startsPrimitive c) :
    s.between c =
      if s.expectsValue then .ok { s with mode := .primitive s.pos } else .error .badCharacters := by
  have hother := Byte.not_special_of_startsPrimitive hc
  simp only [between, hroot, hc, hother, beq_iff_eq, Bool.false_eq_true, if_false, if_true]

theorem takePrimitive_eq {s : Scanner} {text : Bytes} {last : Nat} (hvalue : s.expectsValue)
    (hend : primitiveEnd s.pos text = .ok (last + 1)) (hstart : s.pos < Limit.jsonLength)
    (hstop : last + 1 < Limit.jsonLength) :
    s.takePrimitive text =
      if s.tokens.length < Limit.tokens then
        .ok
          { s with
            pos := last
            expect := .separator
            rootDone := s.depth == 0
            tokens := .closed .primitive s.pos (last + 1) :: s.tokens }
      else refuse .tooManyTokens := by
  rw [takePrimitive, hvalue, if_neg (by decide), hend, refusing_ok, ok_bind, checkWord_of_lt hstart,
    checkStop_of_lt hstop, push]
  split <;> rfl

theorem read_append_of_ends {s t : Scanner} {first more : Bytes} (h : s.read first = .ok t)
    (hmode : t.mode = .between) (hends : ∀ c ∈ more.head?, Byte.endsPrimitive c) :
    s.read (first ++ more) = t.read more := by
  cases more with
  | nil => rw [List.append_nil, h, read_nil hmode]
  | cons c more => rw [read_append s first more (hends c rfl), h, ok_bind]

theorem read_append_error {s : Scanner} {first more : Bytes} (h : s.read first = .error fault)
    (hends : ∀ c ∈ more.head?, Byte.endsPrimitive c) : s.read (first ++ more) = .error fault := by
  cases more with
  | nil => rw [List.append_nil, h]
  | cons c more =>
    rw [read_append s first more (hends c rfl), h]
    rfl

theorem finish_of_primitiveEnd {s : Scanner} {rest : Bytes} (hmode : s.mode = .between)
    (hroot : s.rootDone = false) (hc : Byte.startsPrimitive c) (hvalue : s.expectsValue)
    (hend : primitiveEnd s.pos (c :: rest) = .error fault) :
    s.read (c :: rest) >>= finish = .error fault := by
  obtain ⟨hends, hprintable⟩ := Byte.inPrimitive_of_startsPrimitive hc
  have hstep : s.step c = .ok { s.advance 1 with mode := .primitive s.pos } := by
    simp only [step, take, hmode, between_primitive hroot hc, hvalue, if_true]
    rfl
  simp only [primitiveEnd, hends, hprintable, Bool.false_eq_true, if_false, if_true] at hend
  rw [read_cons, hstep, ok_bind]
  exact finish_of_foldlM_error (foldlM_of_primitiveEnd hend rfl)

theorem follows_primitive {s : Scanner} {rest : Bytes} (h : s.Settled text)
    (hlength : text.length + rest.length + 1 < Limit.jsonLength) (hroot : s.rootDone = false)
    (hc : Byte.startsPrimitive c) : s.Follows (c :: rest) (s.iterate c rest) := by
  rw [iterate_primitive hroot hc]
  cases hvalue : s.expectsValue with
  | false =>
    have hstep : s.step c = .error .badCharacters := by
      simp only [step, take, h.mode, between_primitive hroot hc, hvalue]
      rfl
    have hprimitive : s.takePrimitive (c :: rest) = refuse .badCharacters := by
      rw [takePrimitive, hvalue]
      rfl
    rw [hprimitive]
    exact .of_step_error rest hstep
  | true =>
    cases hend : primitiveEnd s.pos (c :: rest) with
    | error fault =>
      have hprimitive : s.takePrimitive (c :: rest) = refuse fault := by
        rw [takePrimitive, hvalue, hend]
        rfl
      rw [hprimitive]
      exact .refused fault (finish_of_primitiveEnd h.mode hroot hc hvalue hend)
    | ok stop =>
      obtain ⟨content, after, htext, rfl, hprimitive, hafter⟩ := primitive_of_primitiveEnd hc hend
      have hne := mt List.length_eq_zero_iff.1 hprimitive.ne_nil
      obtain ⟨n, hn⟩ := Nat.exists_eq_add_one_of_ne_zero hne
      have hread := read_primitive hprimitive s h.mode hroot hvalue
      have hcontent := congrArg List.length htext
      rw [List.length_cons, List.length_append, hn] at hcontent
      rw [hn, ← Nat.add_assoc] at hend
      rw [takePrimitive_eq hvalue hend (by rw [h.pos]; omega) (by rw [h.pos]; omega), htext]
      split
      · next hroom =>
        rw [if_pos hroom, hn] at hread
        rw [ok_bind, h.mode]
        -- The scanner sees only by the next byte that the primitive is over.
        refine .next _ content after rfl hprimitive.ne_nil rfl (by rw [hn]; rfl) ?_
        intro more hmore
        apply read_append_of_ends hread rfl
        obtain ⟨suffix, rfl⟩ := hmore
        cases more with
        | nil => simp
        | cons b more => exact hafter
      · next hroom =>
        rw [if_neg hroom] at hread
        apply Follows.refused
        rw [read_append_error hread hafter]
        rfl

end Scanner

end ClearSign.Json
