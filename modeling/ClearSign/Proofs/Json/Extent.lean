import ClearSign.Proofs.Json.Truncation
import ClearSign.Proofs.Json.Value

/-!
This module contains where a string or a primitive ends, found in one go, and the proof that the
scanner ends it there, or fails with the same fault.
-/

namespace ClearSign.Json

def stringEnd : (pos : Nat) → (rest : Bytes) → Except Fault Nat
  | _, [] => .error .incompleteJson
  | pos, c :: rest =>
    if c == Byte.quote then .ok pos
    else if c != Byte.backslash then stringEnd (pos + 1) rest
    else match rest with
      | [] => .error .incompleteJson
      | c :: rest =>
        if c == Byte.codePoint then
          if !(rest.take 4).all Byte.isHexDigit then .error .badCharacters
          else match rest with
            | _ :: _ :: _ :: _ :: rest => stringEnd (pos + 6) rest
            | _ => .error .incompleteJson
        else if Byte.isEscapable c then stringEnd (pos + 2) rest
        else .error .badCharacters

def primitiveEnd : (pos : Nat) → (rest : Bytes) → Except Fault Nat
  | pos, [] => .ok pos
  | pos, c :: rest =>
    if Byte.endsPrimitive c then .ok pos
    else if Byte.isPrintable c then primitiveEnd (pos + 1) rest
    else .error .badCharacters

theorem exists_contents_of_piece {piece rest : Bytes} (hpiece : Piece piece)
    (h : ∃ content after, rest = content ++ Byte.quote :: after ∧ Contents content ∧
      stop = pos + piece.length + content.length) :
    ∃ content after, piece ++ rest = content ++ Byte.quote :: after ∧ Contents content ∧
      stop = pos + content.length := by
  obtain ⟨content, after, rfl, hcontent, rfl⟩ := h
  refine ⟨piece ++ content, after, by simp, contents_append (contents_of_piece hpiece) hcontent, ?_⟩
  rw [List.length_append, Nat.add_assoc]

theorem contents_of_stringEnd (h : stringEnd pos rest = .ok stop) :
    ∃ content after, rest = content ++ Byte.quote :: after ∧ Contents content ∧
      stop = pos + content.length := by
  fun_induction stringEnd pos rest with
  | case1 => contradiction
  | case2 pos c rest hquote =>
    cases h
    exact ⟨[], rest, by rw [eq_of_beq hquote]; rfl, .nil, rfl⟩
  | case3 pos c rest hquote hplain ih =>
    exact exists_contents_of_piece (.plain c (by simpa using hquote) (by simpa using hplain)) (ih h)
  | case4 => contradiction
  | case5 => contradiction
  | case6 pos b hquote hbackslash c hc digit₁ digit₂ digit₃ digit₄ rest hdigits ih =>
    obtain rfl : b = Byte.backslash := by simpa using hbackslash
    obtain rfl : c = Byte.codePoint := by simpa using hc
    refine exists_contents_of_piece (.codePoint [digit₁, digit₂, digit₃, digit₄] rfl ?_) (ih h)
    intro digit hdigit
    rw [← Byte.isHexDigit_iff]
    simp only [Bool.not_eq_true', Bool.not_eq_false, List.all_eq_true] at hdigits
    exact hdigits digit hdigit
  | case7 => contradiction
  | case8 pos b hquote hbackslash c rest hc hescapable ih =>
    obtain rfl : b = Byte.backslash := by simpa using hbackslash
    exact exists_contents_of_piece (.escape c ((Byte.isEscapable_iff c).1 hescapable)) (ih h)
  | case9 => contradiction

theorem Byte.inPrimitive_of_startsPrimitive {c : UInt8} (h : startsPrimitive c) :
    endsPrimitive c = false ∧ isPrintable c := by
  revert c
  decide +kernel

theorem content_of_primitiveEnd (h : primitiveEnd pos rest = .ok stop) :
    ∃ content after, rest = content ++ after ∧ stop = pos + content.length ∧
      (∀ c ∈ content, Byte.endsPrimitive c = false ∧ Byte.isPrintable c) ∧
      ∀ c ∈ after.head?, Byte.endsPrimitive c := by
  fun_induction primitiveEnd pos rest with
  | case1 pos =>
    cases h
    exact ⟨[], [], rfl, rfl, by simp, by simp⟩
  | case2 pos c rest hends =>
    cases h
    exact ⟨[], c :: rest, rfl, rfl, by simp, by simpa using hends⟩
  | case3 pos c rest hends hprintable ih =>
    obtain ⟨content, after, rfl, rfl, hcontent, hafter⟩ := ih h
    refine ⟨c :: content, after, rfl, ?_, ?_, hafter⟩
    · rw [List.length_cons, Nat.add_assoc, Nat.add_comm 1]
    · rw [List.forall_mem_cons]
      exact ⟨⟨by simpa using hends, hprintable⟩, hcontent⟩
  | case4 => contradiction

theorem primitive_of_primitiveEnd (hc : Byte.startsPrimitive c)
    (h : primitiveEnd pos (c :: rest) = .ok stop) :
    ∃ content after, c :: rest = content ++ after ∧ stop = pos + content.length ∧
      Primitive content ∧ ∀ c ∈ after.head?, Byte.endsPrimitive c := by
  obtain ⟨content, after, htext, hstop, hcontent, hafter⟩ := content_of_primitiveEnd h
  refine ⟨content, after, htext, hstop, ?_, hafter⟩
  cases content with
  | nil =>
    rw [List.nil_append] at htext
    have hends : Byte.endsPrimitive c := hafter c (by rw [← htext]; rfl)
    have hother := Byte.not_special_of_startsPrimitive hc
    simp [Byte.endsPrimitive, hother] at hends
  | cons b content =>
    obtain ⟨rfl, -⟩ := List.cons.inj htext
    rw [List.forall_mem_cons] at hcontent
    apply Primitive.mk c content ((Byte.startsPrimitive_iff c).1 hc)
    intro b hb
    exact (Byte.inPrimitive_iff b).1 (hcontent.2 b hb)

namespace Scanner

theorem foldlM_of_badDigits {s : Scanner} {rest : Bytes} (hmode : s.mode = .codePoint start left)
    (h : (rest.take (left + 1)).all Byte.isHexDigit = false) :
    rest.foldlM step s = .error .badCharacters := by
  induction rest generalizing s left with
  | nil => simp at h
  | cons c rest ih =>
    rw [List.foldlM_cons]
    cases hc : Byte.isHexDigit c with
    | false =>
      have hstep : s.step c = .error .badCharacters := by simp [step, take, hmode, hc]
      rw [hstep]
      rfl
    | true =>
      rw [List.take_succ_cons, List.all_cons, hc, Bool.true_and] at h
      cases left with
      | zero => simp at h
      | succ left =>
        have hstep : s.step c = .ok { s.advance 1 with mode := .codePoint start left } := by
          simp [step, take, hmode, hc, advance]
        rw [hstep, ok_bind]
        exact ih rfl h

theorem inside_of_fewDigits {s : Scanner} {rest : Bytes} (hmode : s.mode = .codePoint start left)
    (h : rest.all Byte.isHexDigit) (hlength : rest.length ≤ left) :
    ∃ t, rest.foldlM step s = .ok t ∧ t.Inside false := by
  induction rest generalizing s left with
  | nil => exact ⟨s, rfl, .codePoint start left hmode⟩
  | cons c rest ih =>
    rw [List.all_cons, Bool.and_eq_true] at h
    cases left with
    | zero => simp at hlength
    | succ left =>
      have hstep : s.step c = .ok { s.advance 1 with mode := .codePoint start left } := by
        simp [step, take, hmode, h.1, advance]
      rw [List.foldlM_cons, hstep, ok_bind]
      exact ih rfl h.2 (Nat.le_of_succ_le_succ hlength)

theorem finish_of_foldlM_inside {s t : Scanner} {rest : Bytes} (h : rest.foldlM step s = .ok t)
    (hinside : t.Inside escaped) : s.read rest >>= finish = .error .incompleteJson := by
  rw [read, h, ok_bind, settle_of_inside hinside, ok_bind, finish_of_inside hinside]

theorem finish_of_foldlM_error {s : Scanner} {rest : Bytes} (h : rest.foldlM step s = .error fault) :
    s.read rest >>= finish = .error fault := by
  rw [read, h]
  rfl

theorem finish_of_piece {s : Scanner} {piece rest : Bytes} (hpiece : Piece piece)
    (hmode : s.mode = .string start)
    (h : (s.advance piece.length).read rest >>= finish = .error fault) :
    s.read (piece ++ rest) >>= finish = .error fault := by
  rw [read_append_of_foldlM (foldlM_piece hpiece s hmode), h]

theorem foldlM_escape {s : Scanner} (hmode : s.mode = .string start) (rest : Bytes) :
    (Byte.backslash :: rest).foldlM step s =
      rest.foldlM step { s.advance 1 with mode := .escape start } := by
  have hquote : Byte.backslash ≠ Byte.quote := by decide
  simp [step, take, hmode, advance, hquote]

theorem foldlM_escapedCodePoint {s : Scanner} (hmode : s.mode = .escape start) (rest : Bytes) :
    (Byte.codePoint :: rest).foldlM step s =
      rest.foldlM step { s.advance 1 with mode := .codePoint start 3 } := by
  simp [step, take, hmode, advance]

theorem finish_of_stringEnd {s : Scanner} {pos : Nat} {rest : Bytes}
    (h : stringEnd pos rest = .error fault) (hmode : s.mode = .string start) :
    s.read rest >>= finish = .error fault := by
  fun_induction stringEnd pos rest generalizing s with
  | case1 =>
    cases h
    exact finish_of_foldlM_inside rfl (.string start hmode)
  | case2 => contradiction
  | case3 pos c rest hquote hplain ih =>
    exact finish_of_piece (.plain c (by simpa using hquote) (by simpa using hplain)) hmode
      (ih h hmode)
  | case4 pos b hquote hbackslash =>
    cases h
    obtain rfl : b = Byte.backslash := by simpa using hbackslash
    exact finish_of_foldlM_inside (foldlM_escape hmode []) (.escape start rfl)
  | case5 pos b hquote hbackslash c rest hc hdigits =>
    cases h
    obtain rfl : b = Byte.backslash := by simpa using hbackslash
    obtain rfl : c = Byte.codePoint := by simpa using hc
    apply finish_of_foldlM_error
    rw [foldlM_escape hmode, foldlM_escapedCodePoint rfl]
    exact foldlM_of_badDigits rfl (by simpa using hdigits)
  | case6 pos b hquote hbackslash c hc digit₁ digit₂ digit₃ digit₄ rest hdigits ih =>
    obtain rfl : b = Byte.backslash := by simpa using hbackslash
    obtain rfl : c = Byte.codePoint := by simpa using hc
    refine finish_of_piece (.codePoint [digit₁, digit₂, digit₃, digit₄] rfl ?_) hmode (ih h hmode)
    intro digit hdigit
    rw [← Byte.isHexDigit_iff]
    simp only [Bool.not_eq_true', Bool.not_eq_false, List.all_eq_true] at hdigits
    exact hdigits digit hdigit
  | case7 pos b hquote hbackslash c rest hc hdigits hshort =>
    cases h
    obtain rfl : b = Byte.backslash := by simpa using hbackslash
    obtain rfl : c = Byte.codePoint := by simpa using hc
    have hlength : rest.length ≤ 3 := by
      match rest with
      | [] | [_] | [_, _] | [_, _, _] => simp
      | digit₁ :: digit₂ :: digit₃ :: digit₄ :: rest => exact absurd rfl (hshort _ _ _ _ _)
    rw [List.take_of_length_le (by omega)] at hdigits
    obtain ⟨t, ht, hinside⟩ := inside_of_fewDigits
      (s := { (s.advance 1).advance 1 with mode := .codePoint start 3 }) rfl (by simpa using hdigits)
      hlength
    apply finish_of_foldlM_inside _ hinside
    rw [foldlM_escape hmode, foldlM_escapedCodePoint rfl]
    exact ht
  | case8 pos b hquote hbackslash c rest hc hescapable ih =>
    obtain rfl : b = Byte.backslash := by simpa using hbackslash
    exact finish_of_piece (.escape c ((Byte.isEscapable_iff c).1 hescapable)) hmode (ih h hmode)
  | case9 pos b hquote hbackslash c rest hc hescapable =>
    cases h
    obtain rfl : b = Byte.backslash := by simpa using hbackslash
    apply finish_of_foldlM_error
    have hstep : step { s.advance 1 with mode := .escape start } c = .error .badCharacters := by
      simp [step, take, hc, hescapable]
    rw [foldlM_escape hmode, List.foldlM_cons, hstep]
    rfl

theorem foldlM_of_primitiveEnd {s : Scanner} {pos : Nat} {rest : Bytes}
    (h : primitiveEnd pos rest = .error fault) (hmode : s.mode = .primitive start) :
    rest.foldlM step s = .error fault := by
  fun_induction primitiveEnd pos rest generalizing s with
  | case1 => contradiction
  | case2 => contradiction
  | case3 pos c rest hends hprintable ih =>
    have hstep : s.step c = .ok (s.advance 1) := by
      simp [step, take, hmode, hends, hprintable, advance]
    rw [List.foldlM_cons, hstep, ok_bind]
    exact ih h hmode
  | case4 pos c rest hends hprintable =>
    cases h
    have hstep : s.step c = .error .badCharacters := by
      simp [step, take, hmode, hends, hprintable]
    rw [List.foldlM_cons, hstep]
    rfl

end Scanner

end ClearSign.Json
