import ClearSign.Proofs.Json.Steps

/-!
This module contains the proof that the scanner gets through every text of the grammar, with the
tokens of its tree, unless the text exceeds a limit.
-/

namespace ClearSign.Json

namespace Scanner

def Ready (s : Scanner) : Part → Prop
  | .value | .element => s.mode = .between ∧ s.rootDone = false ∧ s.expectsValue
  | .member => s.mode = .between ∧ s.rootDone = false ∧ s.expectsKey ∧ 0 < s.depth
  | .entries container =>
    s.mode = .between ∧ s.rootDone = false ∧
      (s.expect = container.first ∨ s.expect = container.next) ∧ 0 < s.depth ∧
      ∃ token, s.innermost? = some token ∧ token.kind = container.kind

def after (s : Scanner) (text : Bytes) (trees : Forest) : Scanner :=
  { s.advance text.length with
    mode := .between
    expect := .separator
    rootDone := s.depth == 0
    tokens := trees.tokens.reverse ++ s.tokens }

inductive Reaches (s : Scanner) (text : Bytes) (trees : Forest) : Prop where
  | done : s.read text = .ok (s.after text trees) → s.depth + trees.height ≤ Limit.depth →
      s.tokens.length + trees.tokens.length ≤ Limit.tokens → Reaches s text trees
  | tooDeep : s.read text = .error .nestedTooDeep → Limit.depth < s.depth + trees.height →
      Reaches s text trees
  | tooMany : s.read text = .error .tooManyTokens →
      Limit.tokens < s.tokens.length + trees.tokens.length → Reaches s text trees

theorem read_nil {s : Scanner} (h : s.mode = .between) : s.read [] = .ok s := by
  simp [read, settle, h]

theorem Reaches.of_read_eq {s t : Scanner} (h : t.Reaches rest treesRest)
    (hread : s.read text = t.read rest) (hafter : t.after rest treesRest = s.after text trees)
    (hdepth : s.depth + trees.height ≤ Limit.depth ↔ t.depth + treesRest.height ≤ Limit.depth)
    (htokens : s.tokens.length + trees.tokens.length = t.tokens.length + treesRest.tokens.length) :
    s.Reaches text trees := by
  cases h with
  | done h hdeep hmany =>
    apply Reaches.done
    · rw [hread, h, hafter]
    · exact hdepth.2 hdeep
    · omega
  | tooDeep h hdeep =>
    apply Reaches.tooDeep
    · rw [hread, h]
    · omega
  | tooMany h hmany =>
    apply Reaches.tooMany
    · rw [hread, h]
    · omega

theorem Reaches.of_bind {s t : Scanner} {next : Scanner → Except Fault Scanner}
    (h : t.Reaches front treesFront) (hread : s.read text = t.read front >>= next)
    (hdepth : t.depth + treesFront.height ≤ s.depth + trees.height)
    (htokens : t.tokens.length + treesFront.tokens.length ≤ s.tokens.length + trees.tokens.length)
    (hrest : t.depth + treesFront.height ≤ Limit.depth →
      t.tokens.length + treesFront.tokens.length ≤ Limit.tokens →
      s.read text = next (t.after front treesFront) → s.Reaches text trees) :
    s.Reaches text trees := by
  cases h with
  | done h hdeep hmany =>
    apply hrest hdeep hmany
    rw [hread, h, ok_bind]
  | tooDeep h hdeep =>
    apply Reaches.tooDeep
    · rw [hread, h, error_bind]
    · omega
  | tooMany h hmany =>
    apply Reaches.tooMany
    · rw [hread, h, error_bind]
    · omega

theorem Reaches.append_blanks {s : Scanner} (h : s.Reaches text trees) (hblank : Blanks blank) :
    s.Reaches (text ++ blank) trees := by
  cases blank with
  | nil =>
    rw [List.append_nil]
    exact h
  | cons c blank =>
    have hends : Byte.endsPrimitive c := by
      apply Byte.endsPrimitive_of_isBlank
      exact hblank.isBlank c (by simp)
    apply h.of_bind (read_append s text blank hends)
    · exact Nat.le_refl _
    · exact Nat.le_refl _
    · intro hdepth htokens hread
      apply Reaches.done _ hdepth htokens
      rw [hread]
      unfold read
      rw [foldlM_blanks hblank _ rfl, ok_bind, settle_of_between rfl]
      simp [after, advance, Nat.add_assoc]

theorem Reaches.prepend_blanks {s : Scanner} (h : (s.advance before.length).Reaches text trees)
    (hmode : s.mode = .between) (hbefore : Blanks before) : s.Reaches (before ++ text) trees := by
  apply h.of_read_eq
  · exact read_append_of_foldlM (foldlM_blanks hbefore s hmode) text
  · simp [after, advance, Nat.add_assoc]
  · rfl
  · rfl

theorem reaches_string {s : Scanner} (h : Contents text) (hready : s.Ready .value)
    (hdepth : s.depth ≤ Limit.depth) :
    s.Reaches (quoted text) [.leaf .string (s.pos + 1) (s.pos + 1 + text.length)] := by
  obtain ⟨hmode, hroot, hvalue⟩ := hready
  have hquoted := foldlM_quoted .separator h s hmode hroot (.inl ⟨hvalue, rfl⟩)
  by_cases hroom : s.tokens.length < Limit.tokens
  · apply Reaches.done
    · unfold read
      rw [hquoted, if_pos hroom, ok_bind, settle_of_between rfl]
      simp [after, advance, quoted, Tree.leaf]
      omega
    · simpa [Tree.leaf, Token.closed, Token.isContainer] using hdepth
    · simpa [Tree.leaf, Nat.succ_le_iff] using hroom
  · apply Reaches.tooMany
    · unfold read
      rw [hquoted, if_neg hroom, error_bind]
    · simp [Tree.leaf]
      omega

theorem reaches_primitive {s : Scanner} (h : Primitive text) (hready : s.Ready .value)
    (hdepth : s.depth ≤ Limit.depth) :
    s.Reaches text [.leaf .primitive s.pos (s.pos + text.length)] := by
  obtain ⟨hmode, hroot, hvalue⟩ := hready
  have hread := read_primitive h s hmode hroot hvalue
  by_cases hroom : s.tokens.length < Limit.tokens
  · apply Reaches.done
    · rw [hread, if_pos hroom]
      simp [after, Tree.leaf]
    · simpa [Tree.leaf, Token.closed, Token.isContainer] using hdepth
    · simpa [Tree.leaf, Nat.succ_le_iff] using hroom
  · apply Reaches.tooMany
    · rw [hread, if_neg hroom]
    · simp [Tree.leaf]
      omega

def entered (s : Scanner) (container : Container) : Scanner :=
  { s.advance 1 with
    depth := s.depth + 1
    expect := container.first
    tokens := .opened container.kind s.pos :: s.tokens }

theorem ready_entered {s : Scanner} (container : Container) (hready : s.Ready .value) :
    (s.entered container).Ready (.entries container) := by
  obtain ⟨hmode, hroot, hvalue⟩ := hready
  refine ⟨hmode, hroot, .inl rfl, Nat.succ_pos _, .opened container.kind s.pos, ?_, rfl⟩
  simp [innermost?, entered, Token.opened, Token.isOpen]

theorem height_container (container : Container) (start stop : Nat) (trees : Forest) :
    Forest.height [.node (.closed container.kind start stop) trees] = trees.height + 1 := by
  cases container <;> simp [Token.closed, Token.isContainer, Container.kind, Nat.add_comm]

theorem reaches_opening {s : Scanner} (container : Container) (hready : s.Ready .value)
    (hinside : s.depth + 1 ≤ Limit.depth → s.tokens.length < Limit.tokens →
      s.read ([container.opening] ++ text) = (s.entered container).read text →
      s.Reaches ([container.opening] ++ text) [.node (.closed container.kind start stop) trees]) :
    s.Reaches ([container.opening] ++ text) [.node (.closed container.kind start stop) trees] := by
  have hread : s.read ([container.opening] ++ text) =
      s.step container.opening >>= (·.read text) := by
    rw [List.singleton_append, read_cons]
  obtain ⟨hmode, hroot, hvalue⟩ := hready
  rw [step_opening container s hmode hroot hvalue] at hread
  by_cases hdeep : Limit.depth < s.depth + 1
  · apply Reaches.tooDeep
    · rw [hread, if_pos hdeep, error_bind]
    · rw [height_container]
      omega
  · rw [if_neg hdeep] at hread
    by_cases hroom : s.tokens.length < Limit.tokens
    · apply hinside
      · omega
      · exact hroom
      · rw [hread, if_pos hroom]
        rfl
    · apply Reaches.tooMany
      · rw [hread, if_neg hroom, error_bind]
      · simp
        omega

theorem read_closing {s t : Scanner} {container : Container} (text : Bytes) {trees : Forest}
    (hclosed : ∀ token ∈ trees.tokens, token.isOpen = false)
    (hmode : t.mode = .between) (hroot : t.rootDone = false)
    (hexpect : t.expect = .separator ∨ t.expect = container.first)
    (hdepth : t.depth = s.depth + 1) (hpos : t.pos = s.pos + 1 + text.length)
    (htokens : t.tokens = trees.tokens.reverse ++ .opened container.kind s.pos :: s.tokens) :
    t.read [container.closing] =
      .ok (s.after ([container.opening] ++ text ++ [container.closing])
        [.node (.closed container.kind s.pos (s.pos + text.length + 2)) trees]) := by
  have hclosed' : ∀ token ∈ trees.tokens.reverse, token.isOpen = false := by
    intro token htoken
    rw [List.mem_reverse] at htoken
    exact hclosed token htoken
  have hstop : s.pos + 1 + text.length + 1 = s.pos + text.length + 2 := by omega
  rw [read_cons, step_closing container t hmode hroot hexpect htokens hclosed', ok_bind]
  dsimp only
  rw [read_nil (by exact hmode)]
  simp [after, advance, hmode, hdepth, hpos, hstop]
  omega

theorem reaches_empty {s : Scanner} (container : Container) (h : Blanks blank)
    (hready : s.Ready .value) :
    s.Reaches ([container.opening] ++ blank ++ [container.closing])
      [.node (.closed container.kind s.pos (s.pos + blank.length + 2)) []] := by
  rw [List.append_assoc]
  apply reaches_opening container hready
  intro hdeep hroom hread
  obtain ⟨hmode, hroot, -⟩ := hready
  apply Reaches.done
  · rw [hread, read_append_of_foldlM (foldlM_blanks h (s.entered container) hmode)]
    rw [← List.append_assoc]
    apply read_closing
    · simp
    · exact hmode
    · exact hroot
    · exact .inr rfl
    · rfl
    · rfl
    · simp [entered, advance]
  · rw [height_container]
    simpa using hdeep
  · simpa [Nat.succ_le_iff] using hroom

theorem reaches_filled {s : Scanner} (container : Container)
    (hclosed : ∀ token ∈ trees.tokens, token.isOpen = false)
    (hready : s.Ready .value)
    (hinside : s.depth + 1 ≤ Limit.depth → (s.entered container).Reaches text trees) :
    s.Reaches ([container.opening] ++ text ++ [container.closing])
      [.node (.closed container.kind s.pos (s.pos + text.length + 2)) trees] := by
  rw [List.append_assoc]
  apply reaches_opening container hready
  intro hdeep hroom hread
  rw [read_append (s.entered container) text [] (Byte.endsPrimitive_closing container)] at hread
  apply (hinside hdeep).of_bind hread
  · rw [height_container]
    simp only [entered]
    omega
  · simp [entered]
    omega
  · intro hdepth htokens hclosing
    apply Reaches.done
    · rw [hclosing, ← List.append_assoc]
      apply read_closing
      · exact hclosed
      · rfl
      · rfl
      · exact .inl rfl
      · rfl
      · rfl
      · rfl
    · rw [height_container]
      simp only [entered] at hdepth
      omega
    · simp [entered] at htokens ⊢
      omega

def keyed (s : Scanner) (before key gap : Bytes) : Scanner :=
  { s.advance (before.length + key.length + gap.length + 3) with
    expect := .value
    tokens := .closed .string (s.pos + before.length + 1) (s.pos + before.length + 1 + key.length) ::
      s.tokens }

@[simp]
theorem depth_keyed (s : Scanner) (before key gap : Bytes) :
    (s.keyed before key gap).depth = s.depth := rfl

@[simp]
theorem length_tokens_keyed (s : Scanner) (before key gap : Bytes) :
    (s.keyed before key gap).tokens.length = s.tokens.length + 1 := rfl

theorem foldlM_key {s : Scanner} (hbefore : Blanks before) (hkey : Contents key)
    (hgap : Blanks gap) (hready : s.Ready .member) :
    (before ++ quoted key ++ gap ++ [Byte.colon]).foldlM step s =
      if s.tokens.length < Limit.tokens then .ok (s.keyed before key gap)
      else .error .tooManyTokens := by
  obtain ⟨hmode, hroot, hexpect, hdepth⟩ := hready
  rw [List.foldlM_append, List.foldlM_append, List.foldlM_append]
  rw [foldlM_blanks hbefore s hmode, ok_bind]
  rw [foldlM_quoted .colon hkey (s.advance before.length) hmode hroot
    (.inr ⟨hexpect, rfl⟩)]
  by_cases hroom : s.tokens.length < Limit.tokens
  · have hroot' : (s.depth == 0) = false := by
      rw [beq_eq_false_iff_ne]
      omega
    have hpos : s.pos + before.length + key.length + 2 + gap.length + 1 =
        s.pos + (before.length + key.length + gap.length + 3) := by
      omega
    rw [tokens_advance, if_pos hroom, if_pos hroom, ok_bind, foldlM_blanks hgap, ok_bind]
    · rw [List.foldlM_cons, step_colon, ok_bind]
      · simp [advance, keyed, hmode, hroot, hroot', hpos]
        rfl
      · rfl
      · exact hroot'
      · rfl
    · rfl
  · rw [tokens_advance, if_neg hroom, if_neg hroom, error_bind, error_bind]

theorem reaches_member {s : Scanner} (hbefore : Blanks before) (hkey : Contents key)
    (hgap : Blanks gap) (hready : s.Ready .member)
    (hvalue : (s.keyed before key gap).Reaches text trees) :
    s.Reaches (before ++ quoted key ++ gap ++ [Byte.colon] ++ text)
      (.leaf .string (s.pos + before.length + 1) (s.pos + before.length + 1 + key.length) ::
        trees) := by
  have hfold := foldlM_key hbefore hkey hgap hready
  by_cases hroom : s.tokens.length < Limit.tokens
  · rw [if_pos hroom] at hfold
    apply hvalue.of_read_eq (read_append_of_foldlM hfold text)
    · simp [after, keyed, advance, quoted, Tree.leaf]
      omega
    · simp [Tree.leaf, Token.closed, Token.isContainer]
    · simp [Tree.leaf]
      omega
  · rw [if_neg hroom] at hfold
    apply Reaches.tooMany
    · unfold read
      rw [List.foldlM_append, hfold]
      rfl
    · simp [Tree.leaf]
      omega

theorem reaches_more {s : Scanner} (container : Container) (h : s.Reaches text trees)
    (hclosed : ∀ token ∈ trees.tokens, token.isOpen = false)
    (hready : s.Ready (.entries container))
    (hnext : ({ (s.after text trees).advance 1 with expect := container.next } : Scanner).Reaches
      next nextTrees) :
    s.Reaches (text ++ [Byte.comma] ++ next) (trees ++ nextTrees) := by
  obtain ⟨hmode, hroot, hexpect, hinside, token, htoken, hkind⟩ := hready
  have hroot' : (s.depth == 0) = false := by
    rw [beq_eq_false_iff_ne]
    omega
  -- nothing that was read since the container was opened is still open
  have hinnermost : (s.after text trees).innermost? = some token := by
    unfold innermost? after
    dsimp only
    rw [find?_isOpen_append]
    · exact htoken
    · intro token htoken
      rw [List.mem_reverse] at htoken
      exact hclosed token htoken
  rw [List.append_assoc, List.singleton_append]
  apply h.of_bind (read_append s text next rfl)
  · rw [Forest.height_append]
    omega
  · rw [Forest.tokens_append, List.length_append]
    omega
  · intro hdepth htokens hread
    rw [read_cons, step_comma container _ token rfl hroot' rfl hinnermost hkind, ok_bind] at hread
    apply hnext.of_read_eq hread
    · simp [after, advance]
      omega
    · rw [Forest.height_append]
      simp only [after, advance]
      omega
    · rw [Forest.tokens_append, List.length_append]
      simp [after, advance]
      omega

theorem ready_keyed {s : Scanner} (before key gap : Bytes) (hready : s.Ready .member) :
    (s.keyed before key gap).Ready .element := by
  obtain ⟨hmode, hroot, -, -⟩ := hready
  exact ⟨hmode, hroot, rfl⟩

theorem ready_entry {s : Scanner} {container : Container}
    (hready : s.Ready (.entries container)) : s.Ready container.entry := by
  obtain ⟨hmode, hroot, hexpect, hdepth, -⟩ := hready
  cases container with
  | array =>
    refine ⟨hmode, hroot, ?_⟩
    rcases hexpect with h | h <;> simp [expectsValue, h, Container.first, Container.next]
  | object =>
    refine ⟨hmode, hroot, ?_, hdepth⟩
    rcases hexpect with h | h <;> simp [expectsKey, h, Container.first, Container.next]

theorem ready_next {s : Scanner} {container : Container} (text : Bytes) (trees : Forest)
    (hready : s.Ready (.entries container)) :
    ({ (s.after text trees).advance 1 with expect := container.next } : Scanner).Ready
      container.entry := by
  obtain ⟨-, -, -, hdepth, -⟩ := hready
  have hroot : (s.depth == 0) = false := by
    rw [beq_eq_false_iff_ne]
    omega
  cases container with
  | array => exact ⟨rfl, hroot, rfl⟩
  | object => exact ⟨rfl, hroot, rfl, hdepth⟩

theorem reaches_of_grammar {part : Part} {pos : Nat} (h : Grammar part pos text trees) (s : Scanner)
    (hready : s.Ready part) (hpos : s.pos = pos) (hdepth : s.depth ≤ Limit.depth)
    (hlength : pos + text.length < Limit.jsonLength) : s.Reaches text trees := by
  -- the positions of a derivation are those of the scanner, so each case only asks whether the next
  -- part may begin where the scanner stands
  induction h generalizing s with
  | string pos text hcontents =>
    subst hpos
    exact reaches_string hcontents hready hdepth
  | primitive pos text hprimitive =>
    subst hpos
    exact reaches_primitive hprimitive hready hdepth
  | empty container pos blank hblank =>
    subst hpos
    exact reaches_empty container hblank hready
  | filled container pos text trees htrees ih =>
    subst hpos
    simp only [List.length_append, List.length_singleton] at hlength
    apply reaches_filled container _ hready
    · intro hroom
      apply ih
      · exact ready_entered container hready
      · rfl
      · exact hroom
      · omega
    · intro token htoken
      exact (htrees.within token htoken).isOpen_eq_false (by omega)
  | element pos before text after trees hbefore hvalue hafter ih =>
    subst hpos
    simp only [List.length_append] at hlength
    apply Reaches.append_blanks _ hafter
    apply Reaches.prepend_blanks _ hready.1 hbefore
    apply ih
    · exact hready
    · rfl
    · exact hdepth
    · omega
  | member pos before key gap text trees hbefore hkey hgap hvalue ih =>
    subst hpos
    simp only [List.length_append, List.length_singleton, quoted] at hlength
    apply reaches_member hbefore hkey hgap hready
    apply ih
    · exact ready_keyed before key gap hready
    · simp [keyed, Nat.add_assoc]
    · exact hdepth
    · omega
  | one container pos text trees hentry ih => exact ih s (ready_entry hready) hpos hdepth hlength
  | more container pos text next trees nextTrees hentries hentry ih ihNext =>
    subst hpos
    simp only [List.length_append, List.length_singleton] at hlength
    have hclosed : ∀ token ∈ trees.tokens, token.isOpen = false := by
      intro token htoken
      exact (hentries.within token htoken).isOpen_eq_false (by omega)
    apply reaches_more container _ hclosed hready
    · apply ihNext
      · exact ready_next text trees hready
      · rfl
      · exact hdepth
      · omega
    · apply ih
      · exact hready
      · rfl
      · exact hdepth
      · omega

end Scanner

theorem tokenize_eq_read_bind {text : Bytes} (hlength : text.length < Limit.jsonLength) :
    tokenize text = Scanner.read {} text >>= Scanner.finish := by
  unfold tokenize Scanner.read
  rw [if_neg (by omega), bind_assoc]
  congr
  funext s
  exact s.finish_eq_settle_bind

theorem tokenize_of_isText {text : Bytes} {tree : Tree} (h : IsText text tree)
    (hlength : text.length < Limit.jsonLength) :
    (tokenize text = .ok tree.tokens ∧ tree.height ≤ Limit.depth ∧
        tree.tokens.length ≤ Limit.tokens) ∨
      (tokenize text = .error .nestedTooDeep ∧ Limit.depth < tree.height) ∨
      (tokenize text = .error .tooManyTokens ∧ Limit.tokens < tree.tokens.length) := by
  have hreaches := Scanner.reaches_of_grammar h {} ⟨rfl, rfl, rfl⟩ rfl (Nat.zero_le _)
    (by simpa using hlength)
  rw [tokenize_eq_read_bind hlength]
  cases hreaches with
  | done hread hdepth htokens =>
    left
    refine ⟨?_, by simpa using hdepth, by simpa using htokens⟩
    rw [hread, ok_bind]
    rcases tree with ⟨token, children⟩
    simp [Scanner.finish, Scanner.after, Scanner.advance]
    rfl
  | tooDeep hread hdepth =>
    right
    left
    rw [hread]
    exact ⟨rfl, by simpa using hdepth⟩
  | tooMany hread htokens =>
    right
    right
    rw [hread]
    exact ⟨rfl, by simpa using htokens⟩

end ClearSign.Json
