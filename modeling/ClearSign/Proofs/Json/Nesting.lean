import ClearSign.Proofs.Json.Soundness

/-!
This module contains which containers of a text are not closed, told from its brackets and quotes
alone, and the proof that these are the tokens that are open in what was read of the text.
-/

namespace ClearSign.Json

structure Unclosed where
  container : Container
  start : Nat
  deriving DecidableEq

def Unclosed.token (unclosed : Unclosed) : Token :=
  .opened unclosed.container.kind unclosed.start

structure Brackets where
  pos : Nat := 0
  quoting : Bool := false
  escaped : Bool := false
  unclosed : List Unclosed := []
  deriving DecidableEq

namespace Brackets

def advance (b : Brackets) (n : Nat) : Brackets :=
  { b with pos := b.pos + n }

def pair (b : Brackets) (c : UInt8) : List Unclosed :=
  if c == Byte.openBrace then ⟨.object, b.pos⟩ :: b.unclosed
  else if c == Byte.openBracket then ⟨.array, b.pos⟩ :: b.unclosed
  else if c == Byte.closeBrace || c == Byte.closeBracket then b.unclosed.tail
  else b.unclosed

def step (b : Brackets) (c : UInt8) : Brackets :=
  if b.escaped then { b.advance 1 with escaped := false }
  else if c == Byte.quote then { b.advance 1 with quoting := !b.quoting }
  else if b.quoting then { b.advance 1 with escaped := c == Byte.backslash }
  else { b.advance 1 with unclosed := b.pair c }

def run (b : Brackets) (text : Bytes) : Brackets :=
  text.foldl step b

def Plain (b : Brackets) : Prop :=
  b.quoting = false ∧ b.escaped = false

@[simp]
theorem advance_advance (b : Brackets) (m n : Nat) :
    (b.advance m).advance n = b.advance (m + n) := by
  simp [advance, Nat.add_assoc]

theorem run_append (b : Brackets) (first second : Bytes) :
    b.run (first ++ second) = (b.run first).run second :=
  List.foldl_append

theorem step_plain {b : Brackets} (hplain : b.Plain) (hc : c ≠ Byte.quote) :
    b.step c = { b.advance 1 with unclosed := b.pair c } := by
  simp [step, hplain.1, hplain.2, hc]

theorem step_opening {b : Brackets} (hplain : b.Plain) (container : Container) :
    b.step container.opening = { b.advance 1 with unclosed := ⟨container, b.pos⟩ :: b.unclosed } := by
  rw [step_plain hplain (by cases container <;> decide)]
  cases container <;> rfl

theorem step_closing {b : Brackets} (hplain : b.Plain) (container : Container) :
    b.step container.closing = { b.advance 1 with unclosed := b.unclosed.tail } := by
  rw [step_plain hplain (by cases container <;> decide)]
  cases container <;> rfl

theorem run_unescaped {b : Brackets} (hquoting : b.quoting) (hescaped : b.escaped = false)
    {text : Bytes} (h : ∀ c ∈ text, c ≠ Byte.quote ∧ c ≠ Byte.backslash) :
    b.run text = b.advance text.length := by
  induction text generalizing b with
  | nil => rfl
  | cons c text ih =>
    rw [List.forall_mem_cons] at h
    obtain ⟨⟨hquote, hbackslash⟩, htext⟩ := h
    have hstep : b.step c = b.advance 1 := by
      simp [step, advance, hquoting, hescaped, hquote, hbackslash]
    have hrest : (b.advance 1).run text = (b.advance 1).advance text.length :=
      ih hquoting hescaped htext
    rw [run, List.foldl_cons, hstep, ← run, hrest, advance_advance, List.length_cons, Nat.add_comm]

theorem run_piece {b : Brackets} (hquoting : b.quoting) (hescaped : b.escaped = false)
    (h : Piece piece) : b.run piece = b.advance piece.length := by
  have hescape (c : UInt8) : b.run [Byte.backslash, c] = b.advance 2 := by
    have hbackslash : Byte.backslash ≠ Byte.quote := by decide
    simp [run, step, advance, hquoting, hescaped, hbackslash]
  cases h with
  | plain c hquote hbackslash =>
    apply run_unescaped hquoting hescaped
    simp [hquote, hbackslash]
  | escape c hc => exact hescape c
  | codePoint digits hlength hdigits =>
    have hdigit : ∀ c ∈ ascii "0123456789abcdefABCDEF", c ≠ Byte.quote ∧ c ≠ Byte.backslash := by
      decide +kernel
    have hrest : (b.advance 2).run digits = (b.advance 2).advance digits.length :=
      run_unescaped (b := b.advance 2) hquoting hescaped fun c hc => hdigit c (hdigits c hc)
    have happend := b.run_append [Byte.backslash, Byte.codePoint] digits
    rw [hescape, hrest, advance_advance, Nat.add_comm] at happend
    exact happend

theorem run_contents {b : Brackets} (hquoting : b.quoting) (hescaped : b.escaped = false)
    (h : Contents text) : b.run text = b.advance text.length := by
  induction h with
  | nil => rfl
  | snoc text piece htext hpiece ih =>
    have hrest : (b.advance text.length).run piece = _ := run_piece hquoting hescaped hpiece
    rw [run_append, ih, hrest, advance_advance, List.length_append]

end Brackets

def Balanced (text : Bytes) : Prop :=
  ∀ b : Brackets, b.Plain → b.run text = b.advance text.length

def Byte.Inert (c : UInt8) : Prop :=
  c ≠ quote ∧ c ≠ openBrace ∧ c ≠ openBracket ∧ c ≠ closeBrace ∧ c ≠ closeBracket

instance (c : UInt8) : Decidable (Byte.Inert c) := by
  unfold Byte.Inert
  infer_instance

theorem Balanced.append (h : Balanced text) (h' : Balanced next) : Balanced (text ++ next) := by
  intro b hplain
  rw [b.run_append, h b hplain, h' (b.advance text.length) hplain, b.advance_advance,
    List.length_append]

theorem balanced_of_inert {text : Bytes} (h : ∀ c ∈ text, Byte.Inert c) : Balanced text := by
  induction text with
  | nil =>
    intro b _
    rfl
  | cons c text ih =>
    rw [List.forall_mem_cons] at h
    obtain ⟨⟨hquote, hbrace, hbracket, hcloseBrace, hcloseBracket⟩, htext⟩ := h
    have hfirst : Balanced [c] := by
      intro b hplain
      refine (b.step_plain hplain hquote).trans ?_
      simp [Brackets.pair, Brackets.advance, hbrace, hbracket, hcloseBrace, hcloseBracket]
    exact hfirst.append (ih htext)

theorem Blanks.balanced (h : Blanks blank) : Balanced blank := by
  have hinert : ∀ c ∈ ascii " \t\r\n", Byte.Inert c := by decide +kernel
  exact balanced_of_inert fun c hc => hinert c (h c hc)

theorem Primitive.balanced (h : Primitive text) : Balanced text := by
  apply balanced_of_inert
  cases h with
  | mk c text hc htext =>
    rw [List.forall_mem_cons]
    constructor
    · have hinert : ∀ c ∈ ascii "-0123456789tfn", Byte.Inert c := by decide +kernel
      exact hinert c hc
    · intro b hb
      have hmem := (htext b hb).2.2
      refine ⟨?_, ?_, ?_, ?_, ?_⟩
      all_goals
        rintro rfl
        exact hmem (by decide)

theorem Contents.balanced (h : Contents text) : Balanced (quoted text) := by
  intro b hplain
  let inside : Brackets := { b.advance 1 with quoting := true }
  have hopening : b.run [Byte.quote] = inside := by
    simp [Brackets.run, Brackets.step, hplain.1, hplain.2, inside]
  have hcontents : inside.run text = inside.advance text.length :=
    Brackets.run_contents rfl hplain.2 h
  have hclosing : (inside.advance text.length).run [Byte.quote] = b.advance (text.length + 2) := by
    simp [Brackets.run, Brackets.step, Brackets.advance, hplain.1, hplain.2, inside]
    omega
  rw [quoted, b.run_append, b.run_append, hopening, hcontents, hclosing]
  simp

theorem Balanced.run_inside (h : Balanced text) (container : Container) {b : Brackets}
    (hplain : b.Plain) :
    b.run ([container.opening] ++ text) =
      { b.advance (text.length + 1) with unclosed := ⟨container, b.pos⟩ :: b.unclosed } := by
  let inside : Brackets := { b.advance 1 with unclosed := ⟨container, b.pos⟩ :: b.unclosed }
  have hopening : b.run [container.opening] = inside := b.step_opening hplain container
  rw [b.run_append, hopening, h inside hplain]
  simp [Brackets.advance, inside]
  omega

theorem Balanced.container (h : Balanced text) (container : Container) :
    Balanced ([container.opening] ++ text ++ [container.closing]) := by
  intro b hplain
  rw [b.run_append, h.run_inside container hplain]
  refine (Brackets.step_closing (by exact hplain) container).trans ?_
  simp [Brackets.advance]
  omega

theorem Grammar.balanced {part : Part} {pos : Nat} (h : Grammar part pos text trees) :
    Balanced text := by
  induction h with
  | string pos text hcontents => exact hcontents.balanced
  | primitive pos text hprimitive => exact hprimitive.balanced
  | empty container pos blank hblank => exact hblank.balanced.container container
  | filled container pos text trees htrees ih => exact ih.container container
  | element pos before text after trees hbefore hvalue hafter ih =>
    exact (hbefore.balanced.append ih).append hafter.balanced
  | member pos before key gap text trees hbefore hkey hgap hvalue ih =>
    have hcolon : Balanced [Byte.colon] := balanced_of_inert (by decide +kernel)
    exact (((hbefore.balanced.append hkey.balanced).append hgap.balanced).append hcolon).append ih
  | one container pos text trees hentry ih => exact ih
  | more container pos text next trees nextTrees hentries hentry ih ihNext =>
    have hcomma : Balanced [Byte.comma] := balanced_of_inert (by decide +kernel)
    exact (ih.append hcomma).append ihNext

theorem Progress.balanced {container : Option Container} {pos : Nat}
    (h : Progress container expect pos text trees) : Balanced text := by
  induction h with
  | start pos blank hblank => exact hblank.balanced
  | done pos text trees htext => exact htext.balanced
  | first container pos blank hblank => exact hblank.balanced
  | entries container pos text trees htext => exact htext.balanced
  | next container pos text blank trees htext hblank =>
    have hcomma : Balanced [Byte.comma] := balanced_of_inert (by decide +kernel)
    exact (htext.balanced.append hcomma).append hblank.balanced
  | key expect pos text key gap trees htext hexpect hkey hgap ih =>
    exact (ih.append hkey.balanced).append hgap.balanced
  | colon pos text blank trees htext hblank ih =>
    have hcolon : Balanced [Byte.colon] := balanced_of_inert (by decide +kernel)
    exact (ih.append hcolon).append hblank.balanced

def unclosed (text : Bytes) : List Unclosed :=
  (Brackets.run {} text).unclosed

theorem filter_isOpen_append {done : List Token} (h : ∀ token ∈ done, token.isOpen = false)
    (outer : List Token) : (done ++ outer).filter Token.isOpen = outer.filter Token.isOpen := by
  have hdone : done.filter Token.isOpen = [] := by
    rw [List.filter_eq_nil_iff]
    intro token htoken
    simp [h token htoken]
  rw [List.filter_append, hdone, List.nil_append]

namespace Reads

theorem run_brackets {container : Option Container} {text : Bytes}
    (h : Reads container text expect depth tokens) :
    (Brackets.run {} text).Plain ∧ (Brackets.run {} text).pos = text.length ∧
      (unclosed text).length = depth ∧ (unclosed text).head?.map Unclosed.container = container := by
  unfold unclosed
  induction h with
  | outermost text expect trees hprogress =>
    rw [hprogress.balanced {} ⟨rfl, rfl⟩]
    exact ⟨⟨rfl, rfl⟩, Nat.zero_add _, rfl, rfl⟩
  | inside outer container before text expect inner depth tokens trees hbefore hexpect hprogress ih =>
    obtain ⟨hplain, hpos, hlength, -⟩ := ih
    rw [List.append_assoc, Brackets.run_append, hprogress.balanced.run_inside container hplain]
    refine ⟨hplain, ?_, ?_, rfl⟩
    · simp [Brackets.advance, hpos]
    · simp [hlength]

theorem filter_isOpen {container : Option Container} {text : Bytes}
    (h : Reads container text expect depth tokens) (hlength : text.length < Limit.jsonLength) :
    tokens.filter Token.isOpen = (unclosed text).map Unclosed.token := by
  induction h with
  | outermost text expect trees hprogress =>
    have hclosed := hprogress.isOpen_eq_false (by omega)
    rw [unclosed, hprogress.balanced {} ⟨rfl, rfl⟩, ← List.append_nil trees.tokens.reverse,
      filter_isOpen_append hclosed]
    rfl
  | inside outer container before text expect inner depth tokens trees hbefore hexpect hprogress ih =>
    simp only [List.length_append, List.length_singleton] at hlength
    obtain ⟨hplain, hpos, -⟩ := hbefore.run_brackets
    rw [filter_isOpen_append (hprogress.isOpen_eq_false (by omega)), List.filter_cons_of_pos rfl,
      ih (by omega), unclosed, unclosed, List.append_assoc, Brackets.run_append,
      hprogress.balanced.run_inside container hplain, hpos]
    rfl

end Reads

end ClearSign.Json
