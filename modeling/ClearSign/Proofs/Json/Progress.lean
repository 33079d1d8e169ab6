import ClearSign.Proofs.Json.Steps

/-!
This module contains what is known of a text of which only the front was read: how much there is of
every container that is still open, from the outermost one inwards.
-/

namespace ClearSign.Json

theorem Blanks.snoc {blank : Bytes} {c : UInt8} (h : Blanks blank) (hc : Byte.isBlank c) :
    Blanks (blank ++ [c]) := by
  intro b hb
  rw [List.mem_append, List.mem_singleton] at hb
  rcases hb with hb | hb
  · exact h b hb
  · rw [hb, ← Byte.isBlank_iff]
    exact hc

theorem Blanks.nil : Blanks [] := by
  intro c hc
  cases hc

theorem Primitive.snoc {text : Bytes} {c : UInt8} (h : Primitive text)
    (hc : 33 ≤ c ∧ c ≤ 126 ∧ c ∉ ascii ",:]\x7d[\x7b\"") : Primitive (text ++ [c]) := by
  cases h with
  | mk first text hfirst htext =>
    rw [List.cons_append]
    apply Primitive.mk first _ hfirst
    intro b hb
    rw [List.mem_append, List.mem_singleton] at hb
    rcases hb with hb | rfl
    · exact htext b hb
    · exact hc

theorem Grammar.snoc_blank {part : Part} (h : Grammar part pos text trees) (hpart : part ≠ .value)
    (hc : Byte.isBlank c) : Grammar part pos (text ++ [c]) trees := by
  induction h with
  | string => contradiction
  | primitive => contradiction
  | empty => contradiction
  | filled => contradiction
  | element pos before text after trees hbefore hvalue hafter ih =>
    rw [List.append_assoc]
    exact .element pos before text _ trees hbefore hvalue (hafter.snoc hc)
  | member pos before key gap text trees hbefore hkey hgap hvalue ih =>
    rw [List.append_assoc]
    exact .member pos before key gap _ trees hbefore hkey hgap (ih (by simp))
  | one container pos text trees hentry ih =>
    apply Grammar.one
    apply ih
    cases container <;> simp [Container.entry]
  | more container pos text next trees nextTrees hentries hentry ih ihNext =>
    rw [List.append_assoc]
    apply Grammar.more _ _ _ _ _ _ hentries
    apply ihNext
    cases container <;> simp [Container.entry]

theorem Grammar.eq_singleton {part : Part} (h : Grammar part pos text trees)
    (hpart : part = .value ∨ part = .element) : ∃ tree, trees = [tree] := by
  induction h with
  | string => exact ⟨_, rfl⟩
  | primitive => exact ⟨_, rfl⟩
  | empty => exact ⟨_, rfl⟩
  | filled => exact ⟨_, rfl⟩
  | element _ _ _ _ _ _ _ _ ih => exact ih (.inl rfl)
  | member => simp at hpart
  | one => simp at hpart
  | more => simp at hpart

theorem Grammar.prepend_blank {blank text : Bytes} (hblank : Blanks blank)
    (h : Grammar .value (pos + blank.length) text trees) :
    Grammar .element pos (blank ++ text) trees := by
  have helement := Grammar.element pos blank text [] trees hblank h Blanks.nil
  rwa [List.append_nil] at helement

inductive Progress : Option Container → Expect → (pos : Nat) → Bytes → Forest → Prop where
  | start (pos : Nat) (blank : Bytes) : Blanks blank → Progress none .value pos blank []
  | done (pos : Nat) (text : Bytes) (trees : Forest) : Grammar .element pos text trees →
      Progress none .separator pos text trees
  | first (container : Container) (pos : Nat) (blank : Bytes) : Blanks blank →
      Progress (some container) container.first pos blank []
  | entries (container : Container) (pos : Nat) (text : Bytes) (trees : Forest) :
      Grammar (.entries container) pos text trees →
      Progress (some container) .separator pos text trees
  | next (container : Container) (pos : Nat) (text blank : Bytes) (trees : Forest) :
      Grammar (.entries container) pos text trees → Blanks blank →
      Progress (some container) container.next pos (text ++ [Byte.comma] ++ blank) trees
  | key (expect : Expect) (pos : Nat) (text key gap : Bytes) (trees : Forest) :
      Progress (some .object) expect pos text trees → expect = .firstKey ∨ expect = .key →
      Contents key → Blanks gap →
      Progress (some .object) .colon pos (text ++ quoted key ++ gap)
        (trees ++ [.leaf .string (pos + text.length + 1) (pos + text.length + 1 + key.length)])
  | colon (pos : Nat) (text blank : Bytes) (trees : Forest) :
      Progress (some .object) .colon pos text trees → Blanks blank →
      Progress (some .object) .value pos (text ++ [Byte.colon] ++ blank) trees

namespace Progress

theorem snoc_blank (h : Progress container expect pos text trees) (hc : Byte.isBlank c) :
    Progress container expect pos (text ++ [c]) trees := by
  cases h with
  | start _ blank hblank => exact .start _ _ (hblank.snoc hc)
  | done _ text trees htext => exact .done _ _ _ (htext.snoc_blank (by simp) hc)
  | first container _ blank hblank => exact .first _ _ _ (hblank.snoc hc)
  | entries container _ text trees htext => exact .entries _ _ _ _ (htext.snoc_blank (by simp) hc)
  | next container _ text blank trees htext hblank =>
    rw [List.append_assoc]
    exact .next _ _ _ _ _ htext (hblank.snoc hc)
  | key expect _ text key gap trees htext hexpect hkey hgap =>
    rw [List.append_assoc]
    exact .key _ _ _ _ _ _ htext hexpect hkey (hgap.snoc hc)
  | colon _ text blank trees htext hblank =>
    rw [List.append_assoc]
    exact .colon _ _ _ _ htext (hblank.snoc hc)

theorem within (h : Progress container expect pos text trees) :
    ∀ token ∈ trees.tokens, token.Within pos (pos + text.length) := by
  induction h with
  | start pos blank hblank => simp
  | done pos text trees htext => exact htext.within
  | first container pos blank hblank => simp
  | entries container pos text trees htext => exact htext.within
  | next container pos text blank trees htext hblank =>
    intro token htoken
    apply (htext.within token htoken).mono
    · omega
    · simp only [List.length_append]
      omega
  | key expect pos text key gap trees htext hexpect hkey hgap ih =>
    intro token htoken
    rw [Forest.tokens_append, List.mem_append] at htoken
    rcases htoken with htoken | htoken
    · apply (ih token htoken).mono
      · omega
      · simp only [List.length_append]
        omega
    · simp only [Tree.leaf, Forest.tokens_cons, Tree.tokens_node, Forest.tokens_nil,
        List.append_nil, List.mem_singleton] at htoken
      refine ⟨_, _, _, htoken, by omega, by omega, ?_⟩
      simp only [quoted, List.length_append, List.length_singleton]
      omega
  | colon pos text blank trees htext hblank ih =>
    intro token htoken
    apply (ih token htoken).mono
    · omega
    · simp only [List.length_append]
      omega

theorem isOpen_eq_false (h : Progress container expect pos text trees)
    (hlength : pos + text.length < Limit.jsonLength) :
    ∀ token ∈ trees.tokens.reverse, token.isOpen = false := by
  intro token htoken
  rw [List.mem_reverse] at htoken
  exact (h.within token htoken).isOpen_eq_false hlength

theorem key_cases (h : Progress (some .object) expect pos text trees)
    (hexpect : expect = .firstKey ∨ expect = .key) :
    (Blanks text ∧ trees = []) ∨
      ∃ members blank, text = members ++ [Byte.comma] ++ blank ∧
        Grammar (.entries .object) pos members trees ∧ Blanks blank := by
  cases h with
  | first container _ blank hblank => exact .inl ⟨hblank, rfl⟩
  | next container _ text blank trees htext hblank => exact .inr ⟨text, blank, rfl, htext, hblank⟩
  | entries => simp at hexpect
  | key => simp at hexpect
  | colon => simp at hexpect

theorem snoc_member {label gap value : Bytes}
    (h : Progress (some .object) expect pos text trees)
    (hexpect : expect = .firstKey ∨ expect = .key) (hkey : Contents label) (hgap : Blanks gap)
    (hvalue : Grammar .element (pos + text.length + label.length + gap.length + 3) value values) :
    Grammar (.entries .object) pos (text ++ quoted label ++ gap ++ [Byte.colon] ++ value)
      (trees ++ .leaf .string (pos + text.length + 1) (pos + text.length + 1 + label.length) ::
        values) := by
  -- only now it is known whether this is the first member or one behind a comma
  rcases h.key_cases hexpect with ⟨hblank, rfl⟩ | ⟨members, blank, rfl, hmembers, hblank⟩
  · apply Grammar.one
    exact .member _ _ _ _ _ _ hblank hkey hgap hvalue
  · have hlength : pos + (members ++ [Byte.comma] ++ blank).length =
        pos + members.length + 1 + blank.length := by
      simp only [List.length_append, List.length_singleton]
      omega
    rw [hlength] at hvalue ⊢
    have hmember := Grammar.member _ blank label gap value values hblank hkey hgap hvalue
    have hmore := Grammar.more .object pos members _ trees _ hmembers hmember
    simpa only [List.append_assoc] using hmore

theorem snoc_value {value : Bytes} (h : Progress container expect pos text trees)
    (hexpect : expect = .value ∨ expect = .firstValue)
    (hvalue : Grammar .value (pos + text.length) value values) :
    Progress container .separator pos (text ++ value) (trees ++ values) := by
  cases h with
  | start _ blank hblank => exact .done _ _ _ (.prepend_blank hblank hvalue)
  | done => simp at hexpect
  | first container _ blank hblank =>
    cases container with
    | array => exact .entries _ _ _ _ (.one _ _ _ _ (.prepend_blank hblank hvalue))
    | object => simp [Container.first] at hexpect
  | entries => simp at hexpect
  | next container _ text blank trees htext hblank =>
    cases container with
    | array =>
      have hlength : pos + (text ++ [Byte.comma] ++ blank).length =
          pos + text.length + 1 + blank.length := by
        simp only [List.length_append, List.length_singleton]
        omega
      rw [hlength] at hvalue
      rw [List.append_assoc]
      exact .entries _ _ _ _ (.more _ _ _ _ _ _ htext (.prepend_blank hblank hvalue))
    | object => simp [Container.next] at hexpect
  | key => simp at hexpect
  | colon _ text blank trees htext hblank =>
    cases htext with
    | key expect _ text label gap trees htext hexpect' hkey hgap =>
      have hlength : pos + (text ++ quoted label ++ gap ++ [Byte.colon] ++ blank).length =
          pos + text.length + label.length + gap.length + 3 + blank.length := by
        simp only [List.length_append, List.length_singleton, quoted]
        omega
      rw [hlength] at hvalue
      have hmember := htext.snoc_member hexpect' hkey hgap (.prepend_blank hblank hvalue)
      rw [List.append_assoc, List.append_assoc]
      exact .entries _ _ _ _ (by simpa only [List.append_assoc, List.singleton_append] using hmember)

theorem entries_of_separator (h : Progress (some container) expect pos text trees)
    (hexpect : expect = .separator) : Grammar (.entries container) pos text trees := by
  cases h with
  | first => cases container <;> cases hexpect
  | entries _ _ _ _ hentries => exact hentries
  | next => cases container <;> cases hexpect
  | key => cases hexpect
  | colon => cases hexpect

theorem blanks_of_first (h : Progress (some container) expect pos text trees)
    (hexpect : expect = container.first) : Blanks text ∧ trees = [] := by
  cases h with
  | first _ _ _ hblank => exact ⟨hblank, rfl⟩
  | entries => cases container <;> cases hexpect
  | next => cases container <;> cases hexpect
  | key => cases hexpect
  | colon => cases hexpect

theorem closed (h : Progress (some container) expect (pos + 1) text trees)
    (hexpect : expect = .separator ∨ expect = container.first) :
    Grammar .value pos ([container.opening] ++ text ++ [container.closing])
      [.node (.closed container.kind pos (pos + text.length + 2)) trees] := by
  rcases hexpect with hexpect | hexpect
  · exact .filled _ _ _ _ (h.entries_of_separator hexpect)
  · obtain ⟨hblank, rfl⟩ := h.blanks_of_first hexpect
    exact .empty _ _ _ hblank

end Progress

inductive Reads : Option Container → Bytes → Expect → (depth : Nat) → List Token → Prop where
  | outermost (text : Bytes) (expect : Expect) (trees : Forest) : Progress none expect 0 text trees →
      Reads none text expect 0 trees.tokens.reverse
  | inside (outer : Option Container) (container : Container) (before text : Bytes)
      (expect inner : Expect) (depth : Nat) (tokens : List Token) (trees : Forest) :
      Reads outer before expect depth tokens → expect = .value ∨ expect = .firstValue →
      Progress (some container) inner (before.length + 1) text trees →
      Reads (some container) (before ++ [container.opening] ++ text) inner (depth + 1)
        (trees.tokens.reverse ++ .opened container.kind before.length :: tokens)

namespace Reads

theorem extend (h : Reads container text expect depth tokens) (more : Bytes) (new : Forest)
    (expect' : Expect)
    (hmore : ∀ pos inner trees, pos + inner.length = text.length →
      Progress container expect pos inner trees →
      Progress container expect' pos (inner ++ more) (trees ++ new)) :
    Reads container (text ++ more) expect' depth (new.tokens.reverse ++ tokens) := by
  cases h with
  | outermost text expect trees hprogress =>
    rw [← List.reverse_append, ← Forest.tokens_append]
    exact .outermost _ _ _ (hmore _ _ _ (Nat.zero_add _) hprogress)
  | inside outer container before text expect inner depth tokens trees hbefore hexpect hprogress =>
    rw [← List.append_assoc _ trees.tokens.reverse, ← List.reverse_append,
      ← Forest.tokens_append, List.append_assoc _ text]
    apply Reads.inside _ _ _ _ _ _ _ _ _ hbefore hexpect
    apply hmore _ _ _ _ hprogress
    simp only [List.length_append, List.length_singleton]

theorem snoc_blank (h : Reads container text expect depth tokens) (hc : Byte.isBlank c) :
    Reads container (text ++ [c]) expect depth tokens := by
  apply h.extend _ []
  intro pos inner trees _ hprogress
  rw [List.append_nil]
  exact hprogress.snoc_blank hc

theorem snoc_value {value : Bytes} {tree : Tree} (h : Reads container text expect depth tokens)
    (hexpect : expect = .value ∨ expect = .firstValue)
    (hvalue : Grammar .value text.length value [tree]) :
    Reads container (text ++ value) .separator depth (tree.tokens.reverse ++ tokens) := by
  have hextend := h.extend value [tree] .separator
  rw [Forest.tokens_cons, Forest.tokens_nil, List.append_nil] at hextend
  apply hextend
  intro pos inner trees hlength hprogress
  rw [← hlength] at hvalue
  exact hprogress.snoc_value hexpect hvalue

theorem snoc_open (h : Reads container text expect depth tokens)
    (hexpect : expect = .value ∨ expect = .firstValue) (opened : Container) :
    Reads (some opened) (text ++ [opened.opening]) opened.first (depth + 1)
      (.opened opened.kind text.length :: tokens) := by
  have hinside := Reads.inside container opened text [] expect opened.first depth tokens [] h hexpect
    (.first opened _ [] Blanks.nil)
  rwa [List.append_nil] at hinside

theorem container_of_expectsKey (h : Reads container text expect depth tokens)
    (hexpect : expect = .firstKey ∨ expect = .key ∨ expect = .colon) : container = some .object := by
  have hprogress : ∀ {pos inner trees}, Progress container expect pos inner trees →
      container = some .object := by
    intro pos inner trees hprogress
    cases hprogress with
    | start => simp at hexpect
    | done => simp at hexpect
    | first container => cases container <;> simp [Container.first] at hexpect ⊢
    | entries => simp at hexpect
    | next container => cases container <;> simp [Container.next] at hexpect ⊢
    | key => rfl
    | colon => simp at hexpect
  cases h with
  | outermost _ _ _ h => exact hprogress h
  | inside _ _ _ _ _ _ _ _ _ _ _ h => exact hprogress h

theorem snoc_key {label : Bytes} (h : Reads container text expect depth tokens)
    (hexpect : expect = .firstKey ∨ expect = .key) (hlabel : Contents label) :
    Reads container (text ++ quoted label) .colon depth
      (.closed .string (text.length + 1) (text.length + 1 + label.length) :: tokens) := by
  have hobject : container = some .object := by
    apply h.container_of_expectsKey
    rcases hexpect with h | h <;> simp [h]
  subst hobject
  have hextend := h.extend (quoted label)
    [.leaf .string (text.length + 1) (text.length + 1 + label.length)] .colon
  apply hextend
  intro pos inner trees hlength hprogress
  rw [← hlength]
  have hkey := Progress.key expect pos inner label [] trees hprogress hexpect hlabel Blanks.nil
  rwa [List.append_nil] at hkey

theorem snoc_colon (h : Reads container text .colon depth tokens) :
    Reads container (text ++ [Byte.colon]) .value depth tokens := by
  have hobject : container = some .object := h.container_of_expectsKey (by simp)
  subst hobject
  apply h.extend _ []
  intro pos inner trees _ hprogress
  have hcolon := Progress.colon pos inner [] trees hprogress Blanks.nil
  rwa [List.append_nil, ← List.append_nil trees] at hcolon

theorem snoc_comma (h : Reads (some container) text .separator depth tokens) :
    Reads (some container) (text ++ [Byte.comma]) container.next depth tokens := by
  apply h.extend _ []
  intro pos inner trees _ hprogress
  have hentries := hprogress.entries_of_separator rfl
  have hnext := Progress.next container pos inner [] trees hentries Blanks.nil
  rwa [List.append_nil, ← List.append_nil trees] at hnext

theorem snoc_close (h : Reads (some container) text expect depth tokens)
    (hexpect : expect = .separator ∨ expect = container.first)
    (hlength : text.length < Limit.jsonLength) :
    ∃ outer, Reads outer (text ++ [container.closing]) .separator (depth - 1)
      (Scanner.closeInnermost (text.length + 1) tokens) := by
  cases h with
  | inside outer _ before inner _ _ depth tokens trees houter houterExpect hprogress =>
    -- a container that is closed is a value of the container around it
    refine ⟨outer, ?_⟩
    simp only [List.length_append, List.length_singleton] at hlength
    have hvalue := houter.snoc_value houterExpect (hprogress.closed hexpect)
    have hstop : (before ++ [container.opening] ++ inner).length + 1 =
        before.length + inner.length + 2 := by
      simp only [List.length_append, List.length_singleton]
      omega
    rw [Scanner.closeInnermost_append (hprogress.isOpen_eq_false hlength), hstop,
      Nat.add_sub_cancel]
    simpa using hvalue

theorem find?_isOpen (h : Reads container text expect depth tokens)
    (hlength : text.length < Limit.jsonLength) :
    (tokens.find? Token.isOpen).map Token.kind = container.map Container.kind := by
  cases h with
  | outermost _ _ trees hprogress =>
    have hclosed := hprogress.isOpen_eq_false (by omega)
    rw [← List.append_nil trees.tokens.reverse, Scanner.find?_isOpen_append hclosed]
    rfl
  | inside outer container before inner outerExpect _ depth tokens trees houter hexpect hprogress =>
    simp only [List.length_append, List.length_singleton] at hlength
    rw [Scanner.find?_isOpen_append (hprogress.isOpen_eq_false hlength)]
    rfl

end Reads

end ClearSign.Json
