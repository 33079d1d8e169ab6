import ClearSign.Proofs.Json.Quotes
import ClearSign.Proofs.Json.Recognition

/-!
This module contains what the scanner tells of the inside of a container: which strings it is cut
into, what stands around them, and that it cannot go on behind its end.
-/

namespace ClearSign.Json

def Byte.startsValue (c : UInt8) : Bool :=
  startsPrimitive c || c == openBracket || c == openBrace

theorem Byte.startsValue_of_isBlank {c : UInt8} (h : isBlank c) : startsValue c = false := by
  revert c
  decide +kernel

namespace Scanner

def Outside (s : Scanner) : Prop :=
  s.mode = .between ∨ ∃ start, s.mode = .primitive start

inductive Inside (s : Scanner) : (escaped : Bool) → Prop where
  | string (start : Nat) : s.mode = .string start → Inside s false
  | escape (start : Nat) : s.mode = .escape start → Inside s true
  | codePoint (start left : Nat) : s.mode = .codePoint start left → Inside s false

def Blocked (s : Scanner) : Prop :=
  s.expect = .separator ∨ s.expect = .colon

def Accepts (s : Scanner) (text : Bytes) : Prop :=
  ∃ t, text.foldlM step s = .ok t ∧ t.mode = .between

theorem accepts_append {s : Scanner} (h : s.Accepts (first ++ second)) :
    ∃ t, first.foldlM step s = .ok t ∧ t.Accepts second := by
  obtain ⟨u, hu, hmode⟩ := h
  rw [List.foldlM_append, bind_eq_ok] at hu
  obtain ⟨t, ht, hrest⟩ := hu
  exact ⟨t, ht, u, hrest, hmode⟩

theorem accepts_cons {s : Scanner} (h : s.Accepts (c :: text)) :
    ∃ t, s.step c = .ok t ∧ t.Accepts text := by
  obtain ⟨u, hu, hmode⟩ := h
  rw [List.foldlM_cons, bind_eq_ok] at hu
  obtain ⟨t, ht, hrest⟩ := hu
  exact ⟨t, ht, u, hrest, hmode⟩

theorem not_blocked_of_expectsValue {s : Scanner} (h : s.expectsValue) : ¬ s.Blocked := by
  rw [expectsValue_iff] at h
  rintro (hexpect | hexpect)
  · simp [hexpect] at h
  · simp [hexpect] at h

theorem not_blocked_of_expectsKey {s : Scanner} (h : s.expectsKey) : ¬ s.Blocked := by
  rw [expectsKey_iff] at h
  rintro (hexpect | hexpect)
  · simp [hexpect] at h
  · simp [hexpect] at h

theorem openContainer_eq_ok {s t : Scanner} {expect : Expect}
    (h : s.openContainer kind expect = .ok t) :
    t.mode = s.mode ∧ s.expectsValue := by
  unfold openContainer at h
  split at h
  · contradiction
  next hvalue =>
  split at h
  · contradiction
  obtain ⟨u, hu, hreturn⟩ := bind_eq_ok.1 h
  obtain ⟨-, rfl⟩ := push_eq_ok.1 hu
  cases hreturn
  exact ⟨rfl, by simpa using hvalue⟩

theorem mode_of_closeContainer {s t : Scanner} (h : s.closeContainer kind first = .ok t) :
    t.mode = s.mode := by
  unfold closeContainer at h
  split at h
  · contradiction
  split at h
  · contradiction
  split at h
  · contradiction
  cases h
  rfl

theorem mode_of_separate {s t : Scanner} (h : s.separate = .ok t) : t.mode = s.mode := by
  unfold separate at h
  split at h
  · contradiction
  split at h
  · contradiction
  cases h
  rfl

theorem mode_of_between {s t : Scanner} (h : s.Between c t) (hmode : s.mode = .between)
    (hc : c ≠ Byte.quote) :
    (t.mode = .between ∨ Byte.startsPrimitive c ∧ ∃ start, t.mode = .primitive start) ∧
      c ≠ Byte.backslash := by
  cases h with
  | blank c hblank =>
    refine ⟨.inl hmode, ?_⟩
    rintro rfl
    contradiction
  | opening container t ht =>
    refine ⟨.inl ((openContainer_eq_ok ht).1.trans hmode), ?_⟩
    cases container <;> decide
  | closing container t ht =>
    refine ⟨.inl ((mode_of_closeContainer ht).trans hmode), ?_⟩
    cases container <;> decide
  | quote => contradiction
  | colon => exact ⟨.inl hmode, by decide⟩
  | comma t ht => exact ⟨.inl ((mode_of_separate ht).trans hmode), by decide⟩
  | primitive c hstarts =>
    refine ⟨.inr ⟨hstarts, _, rfl⟩, ?_⟩
    rintro rfl
    contradiction

theorem step_of_outside {s t : Scanner} (h : s.Outside) (ht : s.step c = .ok t) :
    (∃ u v, u.mode = .between ∧ u.Between c v ∧ t = v.advance 1 ∧
      (u = s ∨ Byte.endsPrimitive c ∧ u.expect = .separator)) ∨
    ((∃ start, s.mode = .primitive start) ∧ Byte.endsPrimitive c = false ∧ t = s.advance 1) := by
  obtain ⟨v, hv, hreturn⟩ := bind_eq_ok.1 ht
  cases hreturn
  rcases h with hmode | ⟨start, hmode⟩
  · simp only [take, hmode] at hv
    exact .inl ⟨s, v, hmode, between_of_ok hv, rfl, .inl rfl⟩
  · simp only [take, hmode] at hv
    split at hv
    · next hends =>
      obtain ⟨u, hu, hbetween⟩ := bind_eq_ok.1 hv
      obtain ⟨w, -, hw⟩ := bind_eq_ok.1 hu
      cases hw
      exact .inl ⟨_, v, rfl, between_of_ok hbetween, rfl, .inr ⟨hends, rfl⟩⟩
    · next hends =>
      split at hv
      · cases hv
        exact .inr ⟨⟨start, hmode⟩, by simpa using hends, rfl⟩
      · contradiction

theorem outside_of_step {s t : Scanner} (h : s.Outside) (ht : s.step c = .ok t)
    (hc : c ≠ Byte.quote) :
    t.Outside ∧ (c = Byte.backslash → ∃ start, t.mode = .primitive start) := by
  rcases step_of_outside h ht with ⟨u, v, hmode, hbetween, rfl, -⟩ | ⟨hprimitive, -, rfl⟩
  · obtain ⟨houtside, hbackslash⟩ := mode_of_between hbetween hmode hc
    exact ⟨houtside.imp_right And.right, fun heq => absurd heq hbackslash⟩
  · exact ⟨.inr hprimitive, fun _ => hprimitive⟩

theorem outside_of_foldlM {s t : Scanner} (h : s.Outside) (hquote : Byte.quote ∉ text)
    (ht : text.foldlM step s = .ok t) (escaped : Bool)
    (hescaped : escaped → ∃ start, s.mode = .primitive start) :
    t.Outside ∧ (escapes escaped text → ∃ start, t.mode = .primitive start) := by
  induction text generalizing s escaped with
  | nil =>
    cases ht
    exact ⟨h, hescaped⟩
  | cons c text ih =>
    rw [List.mem_cons, not_or] at hquote
    rw [List.foldlM_cons] at ht
    obtain ⟨u, hu, hrest⟩ := bind_eq_ok.1 ht
    obtain ⟨houtside, hbackslash⟩ := outside_of_step h hu (Ne.symm hquote.1)
    rw [escapes_cons]
    apply ih houtside hquote.2 hrest
    simpa using hbackslash

theorem inside_of_quote {s t : Scanner} (h : s.Outside) (ht : s.step Byte.quote = .ok t) :
    t.Inside false ∧ ((∃ start, s.mode = .primitive start) ∨ s.Blocked → t.Blocked) := by
  rcases step_of_outside h ht with ⟨u, v, hmode, hbetween, rfl, hu⟩ | ⟨-, hends, -⟩
  · have hv : v = { u with mode := .string (u.pos + 1) } := by
      generalize hc : Byte.quote = c at hbetween
      cases hbetween with
      | quote => rfl
      | opening container => cases container <;> contradiction
      | closing container => cases container <;> contradiction
      | colon | comma => contradiction
      | blank | primitive =>
        subst hc
        contradiction
    subst hv
    refine ⟨.string _ rfl, ?_⟩
    rcases hu with rfl | ⟨-, hexpect⟩
    · rintro (⟨start, hprimitive⟩ | hblocked)
      · rw [hmode] at hprimitive
        contradiction
      · exact hblocked
    · intro _
      exact .inl hexpect
  · contradiction

theorem step_of_inside {s t : Scanner} (h : s.Inside escaped) (ht : s.step c = .ok t) :
    (c = Byte.quote ∧ ¬ s.Blocked ∧ t.mode = .between ∧ t.Blocked) ∨
      ((c = Byte.quote → escaped) ∧ t.expect = s.expect ∧
        ∃ next, t.Inside next ∧ (next → c = Byte.backslash)) := by
  obtain ⟨v, hv, hreturn⟩ := bind_eq_ok.1 ht
  cases hreturn
  cases h with
  | string start hmode =>
    simp only [take, hmode] at hv
    split at hv
    · next hc =>
      obtain ⟨next, hnext, rfl⟩ := closeString_eq_ok hv
      left
      rcases hnext with ⟨hvalue, rfl⟩ | ⟨hkey, rfl⟩
      · exact ⟨eq_of_beq hc, not_blocked_of_expectsValue hvalue, rfl, .inl rfl⟩
      · exact ⟨eq_of_beq hc, not_blocked_of_expectsKey hkey, rfl, .inr rfl⟩
    · next hquote =>
      right
      refine ⟨fun hc => absurd (beq_iff_eq.2 hc) hquote, ?_⟩
      split at hv
      · next hc =>
        cases hv
        exact ⟨rfl, true, .escape start rfl, fun _ => eq_of_beq hc⟩
      · cases hv
        exact ⟨rfl, false, .string start hmode, by simp⟩
  | escape start hmode =>
    right
    refine ⟨fun _ => rfl, ?_⟩
    simp only [take, hmode] at hv
    split at hv
    · cases hv
      exact ⟨rfl, false, .codePoint start 3 rfl, by simp⟩
    · split at hv
      · cases hv
        exact ⟨rfl, false, .string start rfl, by simp⟩
      · contradiction
  | codePoint start left hmode =>
    right
    simp only [take, hmode] at hv
    split at hv
    · next hdigit =>
      refine ⟨?_, ?_⟩
      · rintro rfl
        contradiction
      · split at hv
        · cases hv
          exact ⟨rfl, false, .string start rfl, by simp⟩
        · next left =>
          cases hv
          exact ⟨rfl, false, .codePoint start left rfl, by simp⟩
    · contradiction

theorem outside_or_inside (s : Scanner) : s.Outside ∨ ∃ escaped, s.Inside escaped := by
  cases hmode : s.mode with
  | between => exact .inl (.inl hmode)
  | primitive start => exact .inl (.inr ⟨start, hmode⟩)
  | string start => exact .inr ⟨false, .string start hmode⟩
  | escape start => exact .inr ⟨true, .escape start hmode⟩
  | codePoint start left => exact .inr ⟨false, .codePoint start left hmode⟩

theorem settle_of_inside {s : Scanner} (h : s.Inside escaped) : s.settle = .ok s := by
  cases h with
  | string start hmode => simp [settle, hmode]
  | escape start hmode => simp [settle, hmode]
  | codePoint start left hmode => simp [settle, hmode]

theorem mode_of_closing {s t : Scanner} (container : Container)
    (ht : s.step container.closing = .ok t) : t.mode = .between ∨ ∃ escaped, t.Inside escaped := by
  rcases outside_or_inside s with houtside | ⟨escaped, hinside⟩
  · rcases step_of_outside houtside ht with ⟨u, v, hmode, hbetween, rfl, -⟩ | ⟨-, hends, -⟩
    · left
      have hquote : container.closing ≠ Byte.quote := by cases container <;> decide
      apply (mode_of_between hbetween hmode hquote).1.resolve_right
      cases container <;> simp [Container.closing, Byte.startsPrimitive, Byte.closeBracket,
        Byte.closeBrace]
    · rw [Byte.endsPrimitive_closing] at hends
      contradiction
  · rcases step_of_inside hinside ht with ⟨-, -, hmode, -⟩ | ⟨-, -, next, hnext, -⟩
    · exact .inl hmode
    · exact .inr ⟨next, hnext⟩

theorem not_outside_of_inside {s : Scanner} (h : s.Inside escaped) : s.mode ≠ .between := by
  cases h with
  | string start hmode => simp [hmode]
  | escape start hmode => simp [hmode]
  | codePoint start left hmode => simp [hmode]

theorem not_accepts_of_blocked {s : Scanner} (h : s.Inside escaped) (hblocked : s.Blocked)
    (text : Bytes) : ¬ s.Accepts text := by
  induction text generalizing s escaped with
  | nil =>
    rintro ⟨t, ht, hmode⟩
    cases ht
    exact not_outside_of_inside h hmode
  | cons c text ih =>
    intro haccepts
    obtain ⟨t, ht, hrest⟩ := accepts_cons haccepts
    rcases step_of_inside h ht with ⟨-, hallowed, -⟩ | ⟨-, hexpect, next, hinside, -⟩
    · exact hallowed hblocked
    · apply ih hinside _ hrest
      rwa [Blocked, hexpect]

theorem exists_end_of_string {s : Scanner} (h : s.Inside escaped) (haccepts : s.Accepts text) :
    ∃ (content rest : Bytes) (t : Scanner), text = content ++ Byte.quote :: rest ∧
      guarded escaped content ∧ t.mode = .between ∧ t.Blocked ∧ t.Accepts rest := by
  induction text generalizing s escaped with
  | nil =>
    obtain ⟨t, ht, hmode⟩ := haccepts
    cases ht
    exact absurd hmode (not_outside_of_inside h)
  | cons c text ih =>
    obtain ⟨t, ht, hrest⟩ := accepts_cons haccepts
    rcases step_of_inside h ht with ⟨rfl, -, hmode, hblocked⟩ | ⟨hquote, -, next, hinside, hnext⟩
    · exact ⟨[], text, t, rfl, rfl, hmode, hblocked, hrest⟩
    · obtain ⟨content, rest, u, rfl, hguarded, hu⟩ := ih hinside hrest
      refine ⟨c :: content, rest, u, rfl, ?_, hu⟩
      rw [guarded, Bool.and_eq_true]
      constructor
      · by_cases hc : c = Byte.quote
        · simp [hquote hc]
        · simp [hc]
      · cases next with
        | false => exact guarded_mono hguarded _
        | true =>
          rw [hnext rfl]
          exact hguarded

theorem escapes_eq_false_of_accepts {s : Scanner} {before after : Bytes} (h : s.Outside)
    (hquote : Byte.quote ∉ before) (haccepts : s.Accepts (before ++ Byte.quote :: after)) :
    escapes false before = false := by
  obtain ⟨t, ht, hrest⟩ := accepts_append haccepts
  obtain ⟨u, hu, hafter⟩ := accepts_cons hrest
  obtain ⟨houtside, hprimitive⟩ := outside_of_foldlM h hquote ht false (by simp)
  obtain ⟨hinside, hblocked⟩ := inside_of_quote houtside hu
  rw [← Bool.not_eq_true]
  intro hescapes
  exact not_accepts_of_blocked hinside (hblocked (.inl (hprimitive hescapes))) _ hafter

theorem mode_of_blank {s t : Scanner} (h : s.Outside) (hc : Byte.isBlank c)
    (ht : s.step c = .ok t) :
    t.mode = .between ∧ ((∃ start, s.mode = .primitive start) → t.Blocked) := by
  rcases step_of_outside h ht with ⟨u, v, hmode, hbetween, rfl, hu⟩ | ⟨-, hends, -⟩
  · have hv : v = u := by
      cases hbetween with
      | blank => rfl
      | opening container => cases container <;> contradiction
      | closing container => cases container <;> contradiction
      | quote | colon | comma => contradiction
      | primitive c hstarts =>
        rw [(Byte.not_special_of_startsPrimitive hstarts).1] at hc
        contradiction
    subst hv
    refine ⟨hmode, ?_⟩
    rintro ⟨start, hprimitive⟩
    rcases hu with rfl | ⟨-, hexpect⟩
    · rw [hmode] at hprimitive
      contradiction
    · exact .inl hexpect
  · rw [Byte.endsPrimitive_of_isBlank hc] at hends
    contradiction

theorem primitive_of_step {s t : Scanner} (h : s.Outside) (hc : Byte.endsPrimitive c = false)
    (ht : s.step c = .ok t) :
    (∃ start, t.mode = .primitive start) ∧ (s.mode = .between → Byte.startsPrimitive c) := by
  rcases step_of_outside h ht with ⟨u, v, hmode, hbetween, rfl, hu⟩ | ⟨⟨start, hmode⟩, -, rfl⟩
  · cases hbetween with
    | blank c hblank =>
      rw [Byte.endsPrimitive_of_isBlank hblank] at hc
      contradiction
    | opening container => cases container <;> contradiction
    | closing container => cases container <;> contradiction
    | quote | colon | comma => contradiction
    | primitive c hstarts => exact ⟨⟨_, rfl⟩, fun _ => hstarts⟩
  · refine ⟨⟨start, hmode⟩, ?_⟩
    intro hbetween
    rw [hmode] at hbetween
    contradiction

theorem primitive_of_word {s t : Scanner} (h : s.Outside) (hne : text ≠ [])
    (hword : ∀ c ∈ text, Byte.endsPrimitive c = false) (ht : text.foldlM step s = .ok t) :
    ∃ start, t.mode = .primitive start := by
  induction text generalizing s with
  | nil => contradiction
  | cons c text ih =>
    rw [List.forall_mem_cons] at hword
    rw [List.foldlM_cons] at ht
    obtain ⟨u, hu, hrest⟩ := bind_eq_ok.1 ht
    obtain ⟨hprimitive, -⟩ := primitive_of_step h hword.1 hu
    cases text with
    | nil =>
      cases hrest
      exact hprimitive
    | cons b text => exact ih (.inr hprimitive) (by simp) hword.2 hrest

theorem not_accepts_word_quote {s : Scanner} (h : s.Outside) (hne : word ≠ [])
    (hword : ∀ c ∈ word, Byte.endsPrimitive c = false) (hblank : Byte.isBlank c) (text : Bytes) :
    ¬ s.Accepts (word ++ c :: Byte.quote :: text) := by
  intro haccepts
  obtain ⟨t, ht, hrest⟩ := accepts_append haccepts
  obtain ⟨u, hu, hrest⟩ := accepts_cons hrest
  obtain ⟨v, hv, hrest⟩ := accepts_cons hrest
  have hprimitive := primitive_of_word h hne hword ht
  obtain ⟨hmode, hblocked⟩ := mode_of_blank (.inr hprimitive) hblank hu
  obtain ⟨hinside, hstuck⟩ := inside_of_quote (.inl hmode) hv
  exact not_accepts_of_blocked hinside (hstuck (.inr (hblocked hprimitive))) _ hrest

theorem not_accepts_blank_letter {s : Scanner} (h : s.Outside) (hblank : Byte.isBlank b)
    (hends : Byte.endsPrimitive c = false) (hstarts : Byte.startsPrimitive c = false)
    (text : Bytes) : ¬ s.Accepts (b :: c :: text) := by
  intro haccepts
  obtain ⟨t, ht, hrest⟩ := accepts_cons haccepts
  obtain ⟨u, hu, -⟩ := accepts_cons hrest
  obtain ⟨hmode, -⟩ := mode_of_blank h hblank ht
  have hbegins := (primitive_of_step (.inl hmode) hends hu).2 hmode
  rw [hstarts] at hbegins
  contradiction

theorem isBlank_of_rootDone {s t : Scanner} {text : Bytes} (hmode : s.mode = .between)
    (hroot : s.rootDone) (ht : text.foldlM step s = .ok t) : ∀ c ∈ text, Byte.isBlank c := by
  induction text generalizing s with
  | nil => simp
  | cons c text ih =>
    rw [List.foldlM_cons] at ht
    obtain ⟨u, hu, hrest⟩ := bind_eq_ok.1 ht
    obtain ⟨v, hv, hreturn⟩ := bind_eq_ok.1 hu
    cases hreturn
    simp only [take, hmode, between, hroot, if_true] at hv
    split at hv
    · next hblank =>
      cases hv
      rw [List.forall_mem_cons]
      exact ⟨hblank, ih (s := s.advance 1) hmode hroot hrest⟩
    · contradiction

theorem head_of_blocked {s : Scanner} (hmode : s.mode = .between) (hblocked : s.Blocked)
    (haccepts : s.Accepts (c :: text)) : c ≠ Byte.quote ∧ Byte.startsValue c = false := by
  obtain ⟨t, ht, hrest⟩ := accepts_cons haccepts
  have hquote : c ≠ Byte.quote := by
    rintro rfl
    obtain ⟨hinside, hstuck⟩ := inside_of_quote (.inl hmode) ht
    exact not_accepts_of_blocked hinside (hstuck (.inr hblocked)) _ hrest
  refine ⟨hquote, ?_⟩
  rcases step_of_outside (.inl hmode) ht with
    ⟨u, v, -, hbetween, -, hu⟩ | ⟨⟨start, hprimitive⟩, -, -⟩
  · have hstuck : u.Blocked := by
      rcases hu with rfl | ⟨-, hexpect⟩
      · exact hblocked
      · exact .inl hexpect
    cases hbetween with
    | blank c hblank => exact Byte.startsValue_of_isBlank hblank
    | opening container v hopen =>
      exact absurd hstuck (not_blocked_of_expectsValue (openContainer_eq_ok hopen).2)
    | closing container => cases container <;> rfl
    | quote => contradiction
    | colon | comma => rfl
    | primitive c hstarts hvalue => exact absurd hstuck (not_blocked_of_expectsValue hvalue)
  · rw [hmode] at hprimitive
    contradiction

end Scanner

structure Enclosed (text : Bytes) : Prop where
  ends : ∃ (container : Container) (inside : Bytes),
    text = [container.opening] ++ inside ++ [container.closing]
  scanned : ∃ t, text.foldlM Scanner.step {} = .ok t ∧ t.mode = .between ∧ t.rootDone

namespace Enclosed

theorem outside_start : Scanner.Outside {} := .inl rfl

theorem of_tokenize {inside : Bytes} (container : Container)
    (htokens : tokenize ([container.opening] ++ inside ++ [container.closing]) = .ok found) :
    Enclosed ([container.opening] ++ inside ++ [container.closing]) := by
  refine ⟨⟨container, inside, rfl⟩, ?_⟩
  obtain ⟨hlength, tree, htext, -⟩ := isText_of_tokenize htokens
  have hreaches := Scanner.reaches_of_grammar htext {} ⟨rfl, rfl, rfl⟩ rfl (Nat.zero_le _)
    (by simpa using hlength)
  rw [tokenize_eq_read_bind hlength] at htokens
  cases hreaches with
  | done hread =>
    obtain ⟨s, hs, hsettle⟩ := bind_eq_ok.1 hread
    have hmode : s.mode = .between := by
      have hlast := hs
      rw [List.foldlM_append] at hlast
      obtain ⟨u, -, hstep⟩ := bind_eq_ok.1 hlast
      obtain ⟨t, ht, hdone⟩ := bind_eq_ok.1 hstep
      cases hdone
      rcases Scanner.mode_of_closing container ht with hmode | ⟨escaped, hinside⟩
      · exact hmode
      · rw [Scanner.settle_of_inside hinside] at hsettle
        cases hsettle
        contradiction
    rw [Scanner.settle_of_between hmode] at hsettle
    cases hsettle
    exact ⟨_, hs, hmode, rfl⟩
  | tooDeep hread =>
    rw [hread] at htokens
    contradiction
  | tooMany hread =>
    rw [hread] at htokens
    contradiction

theorem accepts (h : Enclosed text) : Scanner.Accepts {} text := by
  obtain ⟨t, ht, hmode, -⟩ := h.scanned
  exact ⟨t, ht, hmode⟩

theorem getLast? (h : Enclosed text) :
    ∃ container : Container, text.getLast? = some container.closing := by
  obtain ⟨container, inside, rfl⟩ := h.ends
  exact ⟨container, List.getLast?_concat⟩

theorem head? (h : Enclosed text) :
    ∃ container : Container, text.head? = some container.opening := by
  obtain ⟨container, inside, rfl⟩ := h.ends
  exact ⟨container, by simp⟩

theorem eq_nil_of_append (h : Enclosed text) (hlonger : Enclosed (text ++ more)) : more = [] := by
  obtain ⟨t, ht, hmode, hroot⟩ := h.scanned
  obtain ⟨u, hu, -⟩ := hlonger.scanned
  rw [List.foldlM_append, ht] at hu
  have hblank := Scanner.isBlank_of_rootDone hmode hroot hu
  obtain ⟨container, hlast⟩ := hlonger.getLast?
  rcases List.eq_nil_or_concat more with hnil | ⟨front, c, rfl⟩
  · exact hnil
  · rw [List.concat_eq_append] at hlast hblank
    rw [← List.append_assoc, List.getLast?_concat, Option.some_inj] at hlast
    have hc := hblank c (by simp)
    rw [hlast] at hc
    cases container <;> contradiction

theorem outside_of_guarded (h : Enclosed (text ++ more)) (hguarded : guarded false text) :
    ∃ s, text.foldlM Scanner.step {} = .ok s ∧ s.Outside ∧ s.Accepts more := by
  obtain ⟨s, hs, hmore⟩ := Scanner.accepts_append h.accepts
  refine ⟨s, hs, ?_, hmore⟩
  by_cases hquote : Byte.quote ∈ text
  · obtain ⟨before, after, rfl, hbefore⟩ := List.eq_append_cons_of_mem hquote
    have haccepts := h.accepts
    rw [List.append_assoc, List.cons_append] at haccepts
    have hescapes := Scanner.escapes_eq_false_of_accepts outside_start hbefore haccepts
    rw [guarded_append, hescapes] at hguarded
    simp [guarded] at hguarded
  · exact (Scanner.outside_of_foldlM outside_start hquote hs false (by simp)).1

end Enclosed

end ClearSign.Json
