import ClearSign.Proofs.Json.Progress

/-!
This module contains the proof that the scanner accepts nothing but texts of the grammar.
-/

namespace ClearSign.Json

inductive Partial : Mode → (pos : Nat) → Bytes → Prop where
  | between (pos : Nat) : Partial .between pos []
  | string (pos : Nat) (text : Bytes) : Contents text →
      Partial (.string (pos + 1)) pos ([Byte.quote] ++ text)
  | escape (pos : Nat) (text : Bytes) : Contents text →
      Partial (.escape (pos + 1)) pos ([Byte.quote] ++ text ++ [Byte.backslash])
  | codePoint (pos left : Nat) (text digits : Bytes) : Contents text →
      (∀ c ∈ digits, c ∈ ascii "0123456789abcdefABCDEF") → digits.length + left = 3 →
      Partial (.codePoint (pos + 1) left) pos
        ([Byte.quote] ++ text ++ [Byte.backslash, Byte.codePoint] ++ digits)
  | primitive (pos : Nat) (text : Bytes) : Primitive text → Partial (.primitive pos) pos text

namespace Scanner

structure Settled (s : Scanner) (text : Bytes) : Prop where
  mode : s.mode = .between
  pos : s.pos = text.length
  reads : ∃ container, Reads container text s.expect s.depth s.tokens

structure Tracked (s : Scanner) (text : Bytes) : Prop where
  pos : s.pos = text.length
  reads : ∃ container before part, text = before ++ part ∧
    Reads container before s.expect s.depth s.tokens ∧ Partial s.mode before.length part ∧
    (∀ start, s.mode = .primitive start → s.expectsValue)

theorem Settled.tracked {s : Scanner} (h : s.Settled text) : s.Tracked text := by
  obtain ⟨hmode, hpos, container, hreads⟩ := h
  refine ⟨hpos, container, text, [], by simp, hreads, ?_, ?_⟩
  · rw [hmode]
    exact .between _
  · intro start hstart
    rw [hmode] at hstart
    cases hstart

theorem push_eq_ok {s t : Scanner} :
    s.push token = .ok t ↔
      s.tokens.length < Limit.tokens ∧ t = { s with tokens := token :: s.tokens } := by
  unfold push
  split
  · next h => simp [h, eq_comm]
  · next h => simp [h]

theorem settled_of_openContainer {s t : Scanner} (container : Container) (h : s.Settled text)
    (ht : s.openContainer container.kind container.first = .ok t) :
    (t.advance 1).Settled (text ++ [container.opening]) := by
  obtain ⟨hmode, hpos, outer, hreads⟩ := h
  unfold openContainer at ht
  split at ht
  · contradiction
  · next hvalue =>
    split at ht
    · contradiction
    · obtain ⟨u, hu, hreturn⟩ := bind_eq_ok.1 ht
      obtain ⟨-, rfl⟩ := push_eq_ok.1 hu
      cases hreturn
      simp only [Bool.not_eq_true', Bool.not_eq_false] at hvalue
      rw [expectsValue_iff] at hvalue
      refine ⟨hmode, ?_, some container, ?_⟩
      · simp [advance, hpos]
      · dsimp only [advance]
        rw [hpos]
        exact hreads.snoc_open hvalue container

theorem settled_of_closeContainer {s t : Scanner} (container : Container) (h : s.Settled text)
    (hlength : text.length < Limit.jsonLength)
    (ht : s.closeContainer container.kind container.first = .ok t) :
    (t.advance 1).Settled (text ++ [container.closing]) := by
  obtain ⟨hmode, hpos, innermost, hreads⟩ := h
  have hfind := hreads.find?_isOpen hlength
  unfold closeContainer innermost? at ht
  split at ht
  · contradiction
  · next hexpect =>
    split at ht
    · contradiction
    · next token htoken =>
      split at ht
      · contradiction
      · next hkind =>
        cases ht
        simp only [bne_iff_ne, ne_eq, Decidable.not_not] at hkind
        -- the token that was found has the kind of the innermost container, so this is the one
        have hinnermost : innermost = some container := by
          rw [htoken, Option.map_some, hkind] at hfind
          cases innermost with
          | none => simp at hfind
          | some c => cases c <;> cases container <;> simp [Container.kind] at hfind ⊢
        have hallowed : s.expect = .separator ∨ s.expect = container.first := by
          simp only [Bool.and_eq_true, bne_iff_ne, ne_eq, not_and_or, not_not] at hexpect
          exact hexpect
        subst hinnermost
        obtain ⟨outer, hclosed⟩ := hreads.snoc_close hallowed hlength
        refine ⟨hmode, ?_, outer, ?_⟩
        · simp [advance, hpos]
        · dsimp only [advance]
          rw [hpos]
          exact hclosed

theorem settled_of_separate {s t : Scanner} (h : s.Settled text)
    (hlength : text.length < Limit.jsonLength) (ht : s.separate = .ok t) :
    (t.advance 1).Settled (text ++ [Byte.comma]) := by
  obtain ⟨hmode, hpos, innermost, hreads⟩ := h
  have hfind := hreads.find?_isOpen hlength
  unfold separate innermost? at ht
  split at ht
  · contradiction
  · next hexpect =>
    split at ht
    · contradiction
    · next token htoken =>
      cases ht
      simp only [bne_iff_ne, ne_eq, Decidable.not_not] at hexpect
      rw [htoken, Option.map_some] at hfind
      cases innermost with
      | none => simp at hfind
      | some container =>
        rw [hexpect] at hreads
        refine ⟨hmode, ?_, some container, ?_⟩
        · simp [advance, hpos]
        · have hnext : (if token.kind == .object then Expect.key else .value) = container.next := by
            rw [Option.map_some, Option.some_inj] at hfind
            rw [hfind]
            cases container <;> rfl
          dsimp only [advance]
          rw [hnext]
          exact hreads.snoc_comma

theorem settled_of_closePrimitive {s t : Scanner} (h : s.Tracked text)
    (hmode : s.mode = .primitive start) (ht : s.closePrimitive start = .ok t) : t.Settled text := by
  obtain ⟨hpos, container, before, part, rfl, hreads, hpart, hvalue⟩ := h
  have hvalue := (expectsValue_iff s).1 (hvalue start hmode)
  obtain ⟨u, hu, hreturn⟩ := bind_eq_ok.1 ht
  obtain ⟨-, rfl⟩ := push_eq_ok.1 hu
  cases hreturn
  rw [hmode] at hpart
  cases hpart with
  | primitive _ _ hprimitive =>
    refine ⟨rfl, hpos, container, ?_⟩
    have hsnoc := hreads.snoc_value hvalue (.primitive _ _ hprimitive)
    rw [← List.length_append, ← hpos] at hsnoc
    simpa [Tree.leaf] using hsnoc

theorem closeString_eq_ok {s t : Scanner} (h : s.closeString start = .ok t) :
    ∃ next, ((s.expectsValue ∧ next = .separator) ∨ (s.expectsKey ∧ next = .colon)) ∧
      t = { s with
        mode := .between
        expect := next
        rootDone := s.depth == 0
        tokens := .closed .string start s.pos :: s.tokens } := by
  have hexpects : s.expectsValue ∨ s.expectsKey := by
    unfold closeString at h
    rw [expectsValue_iff, expectsKey_iff]
    cases hexpect : s.expect with
    | value => exact .inl (.inl rfl)
    | firstValue => exact .inl (.inr rfl)
    | key => exact .inr (.inr rfl)
    | firstKey => exact .inr (.inl rfl)
    | colon =>
      rw [hexpect] at h
      contradiction
    | separator =>
      rw [hexpect] at h
      contradiction
  have hclose : ∀ {next}, (s.expectsValue ∧ next = .separator) ∨ (s.expectsKey ∧ next = .colon) →
      t = { s with
        mode := .between
        expect := next
        rootDone := s.depth == 0
        tokens := .closed .string start s.pos :: s.tokens } := by
    intro next hnext
    rw [closeString_eq hnext] at h
    split at h
    · cases h
      rfl
    · contradiction
  rcases hexpects with hvalue | hkey
  · exact ⟨.separator, .inl ⟨hvalue, rfl⟩, hclose (.inl ⟨hvalue, rfl⟩)⟩
  · exact ⟨.colon, .inr ⟨hkey, rfl⟩, hclose (.inr ⟨hkey, rfl⟩)⟩

theorem settled_of_closeString {s t : Scanner} (h : s.Tracked text) (hmode : s.mode = .string start)
    (ht : s.closeString start = .ok t) : (t.advance 1).Settled (text ++ [Byte.quote]) := by
  obtain ⟨hpos, container, before, part, rfl, hreads, hpart, -⟩ := h
  rw [hmode] at hpart
  cases hpart with
  | string _ label hlabel =>
    have hquoted : before ++ ([Byte.quote] ++ label) ++ [Byte.quote] = before ++ quoted label := by
      simp [quoted]
    have hstop : s.pos = before.length + 1 + label.length := by
      rw [hpos]
      simp only [List.length_append, List.length_singleton]
      omega
    have hlength : s.pos + 1 = (before ++ quoted label).length := by
      rw [hpos, ← hquoted]
      simp only [List.length_append, List.length_singleton]
    rw [hquoted]
    obtain ⟨next, hnext, rfl⟩ := closeString_eq_ok ht
    refine ⟨rfl, hlength, container, ?_⟩
    rcases hnext with ⟨hvalue, rfl⟩ | ⟨hkey, rfl⟩
    · have hstring := Grammar.string before.length label hlabel
      have hsnoc := hreads.snoc_value ((expectsValue_iff s).1 hvalue) hstring
      rw [← hstop] at hsnoc
      simpa [Tree.leaf, advance] using hsnoc
    · have hsnoc := hreads.snoc_key ((expectsKey_iff s).1 hkey) hlabel
      rwa [← hstop] at hsnoc

theorem tracked_of_startsPrimitive {s : Scanner} (h : s.Settled text) (hc : Byte.startsPrimitive c)
    (hvalue : s.expectsValue) :
    (({ s with mode := .primitive s.pos } : Scanner).advance 1).Tracked (text ++ [c]) := by
  obtain ⟨hmode, hpos, container, hreads⟩ := h
  refine ⟨by simp [hpos], container, text, [c], rfl, hreads, ?_, ?_⟩
  · dsimp only [advance]
    rw [hpos]
    rw [Byte.startsPrimitive_iff] at hc
    exact .primitive _ _ (.mk c [] hc (by simp))
  · intro start _
    exact hvalue

inductive Between (s : Scanner) : UInt8 → Scanner → Prop where
  | blank (c : UInt8) : Byte.isBlank c → Between s c s
  | opening (container : Container) (t : Scanner) :
      s.openContainer container.kind container.first = .ok t → Between s container.opening t
  | closing (container : Container) (t : Scanner) :
      s.closeContainer container.kind container.first = .ok t → Between s container.closing t
  | quote : Between s Byte.quote { s with mode := .string (s.pos + 1) }
  | colon : s.expect = .colon → Between s Byte.colon { s with expect := .value }
  | comma (t : Scanner) : s.separate = .ok t → Between s Byte.comma t
  | primitive (c : UInt8) : Byte.startsPrimitive c → s.expectsValue →
      Between s c { s with mode := .primitive s.pos }

theorem between_of_ok {s t : Scanner} (h : s.between c = .ok t) : s.Between c t := by
  unfold between at h
  by_cases hblank : Byte.isBlank c
  · rw [if_pos hblank] at h
    cases h
    exact .blank c hblank
  rw [if_neg hblank] at h
  by_cases hroot : s.rootDone
  · rw [if_pos hroot] at h
    contradiction
  rw [if_neg hroot] at h
  by_cases hc : c == Byte.openBrace
  · rw [if_pos hc] at h
    rw [eq_of_beq hc]
    exact .opening .object t h
  rw [if_neg hc] at h
  by_cases hc : c == Byte.openBracket
  · rw [if_pos hc] at h
    rw [eq_of_beq hc]
    exact .opening .array t h
  rw [if_neg hc] at h
  by_cases hc : c == Byte.closeBrace
  · rw [if_pos hc] at h
    rw [eq_of_beq hc]
    exact .closing .object t h
  rw [if_neg hc] at h
  by_cases hc : c == Byte.closeBracket
  · rw [if_pos hc] at h
    rw [eq_of_beq hc]
    exact .closing .array t h
  rw [if_neg hc] at h
  by_cases hc : c == Byte.quote
  · rw [if_pos hc] at h
    rw [eq_of_beq hc]
    cases h
    exact .quote
  rw [if_neg hc] at h
  by_cases hc : c == Byte.colon
  · rw [if_pos hc] at h
    rw [eq_of_beq hc]
    split at h
    · next hexpect =>
      cases h
      exact .colon (eq_of_beq hexpect)
    · contradiction
  rw [if_neg hc] at h
  by_cases hc : c == Byte.comma
  · rw [if_pos hc] at h
    rw [eq_of_beq hc]
    exact .comma t h
  rw [if_neg hc] at h
  by_cases hc : Byte.startsPrimitive c
  · rw [if_pos hc] at h
    split at h
    · next hvalue =>
      cases h
      exact .primitive c hc hvalue
    · contradiction
  rw [if_neg hc] at h
  contradiction

theorem tracked_of_between {s t : Scanner} (h : s.Settled text)
    (hlength : text.length < Limit.jsonLength) (ht : s.between c = .ok t) :
    (t.advance 1).Tracked (text ++ [c]) := by
  obtain ⟨hmode, hpos, container, hreads⟩ := id h
  cases between_of_ok ht with
  | blank c hc => exact Settled.tracked ⟨hmode, by simp [hpos], container, hreads.snoc_blank hc⟩
  | opening container t ht => exact (settled_of_openContainer container h ht).tracked
  | closing container t ht => exact (settled_of_closeContainer container h hlength ht).tracked
  | quote =>
    refine ⟨by simp [hpos], container, text, [Byte.quote], rfl, hreads, ?_, by simp⟩
    dsimp only [advance]
    rw [hpos]
    exact .string _ [] .nil
  | colon hexpect =>
    rw [hexpect] at hreads
    exact Settled.tracked ⟨hmode, by simp [hpos], container, hreads.snoc_colon⟩
  | comma t ht => exact (settled_of_separate h hlength ht).tracked
  | primitive c hc hvalue => exact tracked_of_startsPrimitive h hc hvalue

theorem Tracked.within {s : Scanner} (h : s.Tracked text) (inner : Mode)
    (hpart : ∀ pos part, Partial s.mode pos part → Partial inner pos (part ++ [c]))
    (hprimitive : ∀ start, inner = .primitive start → s.mode = .primitive start) :
    (({ s with mode := inner } : Scanner).advance 1).Tracked (text ++ [c]) := by
  obtain ⟨hpos, container, before, part, rfl, hreads, hbefore, hvalue⟩ := h
  refine ⟨by simp [hpos, Nat.add_assoc], container, before, part ++ [c], by simp, hreads,
    hpart _ _ hbefore, ?_⟩
  intro start hstart
  exact hvalue start (hprimitive start hstart)

theorem tracked_of_string {s t : Scanner} (h : s.Tracked text) (hmode : s.mode = .string start)
    (hu : s.take c = .ok t) : (t.advance 1).Tracked (text ++ [c]) := by
  simp only [take, hmode] at hu
  split at hu
  · next hc =>
    rw [beq_iff_eq] at hc
    rw [hc]
    exact (settled_of_closeString h hmode hu).tracked
  · next hquote =>
    rw [beq_iff_eq] at hquote
    split at hu
    · next hc =>
      rw [beq_iff_eq] at hc
      cases hu
      apply h.within
      · intro pos part hpart
        rw [hmode] at hpart
        cases hpart with
        | string _ label hlabel =>
          rw [hc]
          exact .escape pos label hlabel
      · simp
    · next hplain =>
      rw [beq_iff_eq] at hplain
      cases hu
      apply h.within
      · intro pos part hpart
        rw [hmode] at hpart ⊢
        cases hpart with
        | string _ label hlabel =>
          rw [List.append_assoc]
          exact .string pos _ (.snoc _ _ hlabel (.plain c hquote hplain))
      · simp

theorem tracked_of_escape {s t : Scanner} (h : s.Tracked text) (hmode : s.mode = .escape start)
    (hu : s.take c = .ok t) : (t.advance 1).Tracked (text ++ [c]) := by
  simp only [take, hmode] at hu
  split at hu
  · next hc =>
    rw [beq_iff_eq] at hc
    cases hu
    apply h.within
    · intro pos part hpart
      rw [hmode] at hpart
      cases hpart with
      | escape _ label hlabel =>
        have hcodePoint := Partial.codePoint pos 3 label [] hlabel (by simp) rfl
        rw [hc]
        simpa using hcodePoint
    · simp
  · split at hu
    · next hc =>
      rw [Byte.isEscapable_iff] at hc
      cases hu
      apply h.within
      · intro pos part hpart
        rw [hmode] at hpart
        cases hpart with
        | escape _ label hlabel =>
          have hstring := Partial.string pos _ (.snoc _ _ hlabel (.escape c hc))
          simpa using hstring
      · simp
    · contradiction

theorem tracked_of_codePoint {s t : Scanner} (h : s.Tracked text)
    (hmode : s.mode = .codePoint start left) (hu : s.take c = .ok t) :
    (t.advance 1).Tracked (text ++ [c]) := by
  simp only [take, hmode] at hu
  split at hu
  · next hc =>
    rw [Byte.isHexDigit_iff] at hc
    have hsnoc : ∀ {digits : Bytes}, (∀ b ∈ digits, b ∈ ascii "0123456789abcdefABCDEF") →
        ∀ b ∈ digits ++ [c], b ∈ ascii "0123456789abcdefABCDEF" := by
      intro digits hdigits b hb
      rw [List.mem_append, List.mem_singleton] at hb
      rcases hb with hb | rfl
      · exact hdigits b hb
      · exact hc
    split at hu
    · cases hu
      apply h.within
      · intro pos part hpart
        rw [hmode] at hpart
        cases hpart with
        | codePoint _ _ label digits hlabel hdigits hlength =>
          have hpiece := Piece.codePoint (digits ++ [c]) (by simpa using hlength) (hsnoc hdigits)
          have hstring := Partial.string pos _ (.snoc _ _ hlabel hpiece)
          simpa using hstring
      · simp
    · cases hu
      apply h.within
      · intro pos part hpart
        rw [hmode] at hpart
        cases hpart with
        | codePoint _ left label digits hlabel hdigits hlength =>
          rw [List.append_assoc]
          apply Partial.codePoint _ _ _ _ hlabel (hsnoc hdigits)
          rw [List.length_append, List.length_singleton]
          omega
      · simp
  · contradiction

theorem tracked_of_primitive {s t : Scanner} (h : s.Tracked text)
    (hlength : text.length < Limit.jsonLength) (hmode : s.mode = .primitive start)
    (hu : s.take c = .ok t) : (t.advance 1).Tracked (text ++ [c]) := by
  simp only [take, hmode] at hu
  split at hu
  -- the byte behind a primitive is taken again, between two tokens
  · obtain ⟨u, hclose, hbetween⟩ := bind_eq_ok.1 hu
    exact tracked_of_between (settled_of_closePrimitive h hmode hclose) hlength hbetween
  · next hends =>
    split at hu
    · next hprintable =>
      have hc := (Byte.inPrimitive_iff c).1 ⟨by simpa using hends, hprintable⟩
      cases hu
      apply h.within s.mode
      · intro pos part hpart
        rw [hmode] at hpart ⊢
        cases hpart with
        | primitive _ _ hprimitive =>
          exact .primitive _ _ (hprimitive.snoc hc)
      · simp
    · contradiction

theorem Tracked.settled {s : Scanner} (h : s.Tracked text) (hmode : s.mode = .between) :
    s.Settled text := by
  obtain ⟨hpos, container, before, part, rfl, hreads, hpart, -⟩ := h
  rw [hmode] at hpart
  cases hpart with
  | between =>
    refine ⟨hmode, hpos, container, ?_⟩
    rw [List.append_nil]
    exact hreads

theorem tracked_of_step {s t : Scanner} (h : s.Tracked text)
    (hlength : text.length < Limit.jsonLength) (ht : s.step c = .ok t) : t.Tracked (text ++ [c]) := by
  obtain ⟨u, hu, hreturn⟩ := bind_eq_ok.1 ht
  cases hreturn
  cases hmode : s.mode with
  | between =>
    simp only [take, hmode] at hu
    exact tracked_of_between (h.settled hmode) hlength hu
  | string start => exact tracked_of_string h hmode hu
  | escape start => exact tracked_of_escape h hmode hu
  | codePoint start left => exact tracked_of_codePoint h hmode hu
  | primitive start => exact tracked_of_primitive h hlength hmode hu

theorem tracked_of_foldlM {s t : Scanner} {more : Bytes} (h : s.Tracked text)
    (hlength : text.length + more.length < Limit.jsonLength) (ht : more.foldlM step s = .ok t) :
    t.Tracked (text ++ more) := by
  induction more generalizing s text with
  | nil =>
    cases ht
    rwa [List.append_nil]
  | cons c more ih =>
    rw [List.foldlM_cons] at ht
    obtain ⟨u, hu, hrest⟩ := bind_eq_ok.1 ht
    rw [List.length_cons] at hlength
    have htracked := ih (tracked_of_step h (by omega) hu)
      (by rw [List.length_append, List.length_singleton]; omega) hrest
    rwa [List.append_assoc, List.singleton_append] at htracked

theorem tracked_start : Tracked {} [] := by
  apply Settled.tracked
  refine ⟨rfl, rfl, none, ?_⟩
  have hstart := Reads.outermost [] .value [] (.start 0 [] Blanks.nil)
  simpa using hstart

theorem Settled.isText {s : Scanner} (h : s.Settled text) (hdepth : s.depth = 0)
    (htokens : s.tokens ≠ []) : ∃ tree, IsText text tree ∧ s.tokens.reverse = tree.tokens := by
  rcases s with ⟨pos, mode, expect, depth, rootDone, tokens⟩
  obtain ⟨hmode, hpos, container, hreads⟩ := h
  cases hreads with
  | inside => cases hdepth
  | outermost _ _ trees hprogress =>
    cases hprogress with
    | start => simp at htokens
    | done _ _ _ helement =>
      obtain ⟨tree, rfl⟩ := helement.eq_singleton (.inr rfl)
      exact ⟨tree, helement, by simp⟩

theorem finish_eq_ok {s : Scanner} {found : List Token} (hmode : s.mode = .between)
    (h : s.finish = .ok found) : s.depth = 0 ∧ s.tokens ≠ [] ∧ found = s.tokens.reverse := by
  simp only [finish, hmode] at h
  obtain ⟨t, ht, h⟩ := bind_eq_ok.1 h
  cases ht
  split at h
  · contradiction
  · next hempty =>
    split at h
    · contradiction
    · next hdepth =>
      cases h
      refine ⟨by simpa using hdepth, by simpa using hempty, rfl⟩

theorem isText_of_finish {s : Scanner} {found : List Token} (h : s.Tracked text)
    (hfinish : s.finish = .ok found) : ∃ tree, IsText text tree ∧ found = tree.tokens := by
  -- a primitive may be the last thing in a text, and then nothing has ended it yet
  have hsettled : ∃ t, Settled t text ∧ t.finish = .ok found := by
    cases hmode : s.mode with
    | between => exact ⟨s, h.settled hmode, hfinish⟩
    | primitive start =>
      rw [finish_eq_settle_bind] at hfinish
      obtain ⟨t, hsettle, hfinish⟩ := bind_eq_ok.1 hfinish
      simp only [settle, hmode] at hsettle
      exact ⟨t, settled_of_closePrimitive h hmode hsettle, hfinish⟩
    | string start =>
      simp only [finish, hmode] at hfinish
      cases hfinish
    | escape start =>
      simp only [finish, hmode] at hfinish
      cases hfinish
    | codePoint start left =>
      simp only [finish, hmode] at hfinish
      cases hfinish
  obtain ⟨t, ht, hfinish⟩ := hsettled
  obtain ⟨hdepth, htokens, rfl⟩ := finish_eq_ok ht.mode hfinish
  exact ht.isText hdepth htokens

end Scanner

theorem isText_of_tokenize {text : Bytes} {found : List Token} (h : tokenize text = .ok found) :
    text.length < Limit.jsonLength ∧ ∃ tree, IsText text tree ∧ found = tree.tokens := by
  unfold tokenize at h
  split at h
  · contradiction
  · next hlength =>
    obtain ⟨s, hfold, hfinish⟩ := bind_eq_ok.1 h
    have hlength : text.length < Limit.jsonLength := by omega
    have htracked := Scanner.tracked_of_foldlM Scanner.tracked_start (by simpa using hlength) hfold
    rw [List.nil_append] at htracked
    exact ⟨hlength, Scanner.isText_of_finish htracked hfinish⟩

end ClearSign.Json
