import ClearSign.Proofs.Json.Steps

/-!
This module contains where a quote can stand: only behind a backslash in a string, and nowhere in a
primitive. A text whose quotes are all behind backslashes ends at the first quote that is not.
-/

namespace ClearSign.Json

def guarded : (escaped : Bool) → Bytes → Bool
  | _, [] => true
  | escaped, c :: text => (escaped || c != Byte.quote) && guarded (c == Byte.backslash) text

def escapes (escaped : Bool) (text : Bytes) : Bool :=
  text.foldl (fun _ c => c == Byte.backslash) escaped

@[simp]
theorem escapes_nil (escaped : Bool) : escapes escaped [] = escaped := rfl

@[simp]
theorem escapes_cons (escaped : Bool) (c : UInt8) (text : Bytes) :
    escapes escaped (c :: text) = escapes (c == Byte.backslash) text := rfl

theorem escapes_snoc (escaped : Bool) (text : Bytes) (c : UInt8) :
    escapes escaped (text ++ [c]) = (c == Byte.backslash) := by
  rw [escapes, List.foldl_append]
  rfl

theorem escapes_of_getLast? (hlast : text.getLast? = some c) (hc : c ≠ Byte.backslash)
    (escaped : Bool) : escapes escaped text = false := by
  obtain ⟨front, rfl⟩ := List.getLast?_eq_some_iff.1 hlast
  rw [escapes_snoc]
  simpa using hc

theorem guarded_append (escaped : Bool) (first second : Bytes) :
    guarded escaped (first ++ second) =
      (guarded escaped first && guarded (escapes escaped first) second) := by
  induction first generalizing escaped with
  | nil => rfl
  | cons c first ih => rw [List.cons_append, guarded, guarded, ih, escapes_cons, Bool.and_assoc]

theorem guarded_of_quote_not_mem (h : Byte.quote ∉ text) (escaped : Bool) :
    guarded escaped text := by
  induction text generalizing escaped with
  | nil => rfl
  | cons c text ih =>
    rw [List.mem_cons, not_or] at h
    simp [guarded, ih h.2, Ne.symm h.1]

theorem guarded_mono (h : guarded false text) (escaped : Bool) : guarded escaped text := by
  cases text with
  | nil => rfl
  | cons c text =>
    simp only [guarded, Bool.false_or, Bool.and_eq_true] at h ⊢
    simp [h]

theorem guarded_cons_of_ne (h : guarded escaped (c :: text)) (hc : c ≠ Byte.quote) :
    guarded false (c :: text) := by
  simp only [guarded, Bool.and_eq_true] at h ⊢
  exact ⟨by simpa using hc, h.2⟩

theorem guarded_suffix (h : guarded false (first ++ c :: second)) (hc : c ≠ Byte.quote) :
    guarded false (c :: second) := by
  rw [guarded_append, Bool.and_eq_true] at h
  exact guarded_cons_of_ne h.2 hc

theorem eq_of_guarded {first second rest rest' : Bytes} (hfirst : guarded escaped first)
    (hquote : Byte.quote ∉ second) (hescapes : escapes escaped second = false)
    (h : first ++ Byte.quote :: rest = second ++ Byte.quote :: rest') :
    first = second ∧ rest = rest' := by
  induction second generalizing escaped first with
  | nil =>
    cases first with
    | nil => exact ⟨rfl, (List.cons.inj h).2⟩
    | cons c first =>
      obtain ⟨rfl, -⟩ := List.cons.inj h
      rw [escapes_nil] at hescapes
      simp [guarded, hescapes] at hfirst
  | cons b second ih =>
    rw [List.mem_cons, not_or] at hquote
    cases first with
    | nil => exact absurd (List.cons.inj h).1 hquote.1
    | cons c first =>
      obtain ⟨rfl, hrest⟩ := List.cons.inj h
      simp only [guarded, Bool.and_eq_true] at hfirst
      obtain ⟨rfl, hrest'⟩ := ih hfirst.2 hquote.2 hescapes hrest
      exact ⟨rfl, hrest'⟩

theorem Piece.guarded (h : Piece piece) (escaped : Bool) : guarded escaped piece := by
  cases h with
  | plain c hquote hbackslash => simp [Json.guarded, hquote]
  | escape c hc => simp [Json.guarded, Byte.quote, Byte.backslash]
  | codePoint digits hlength hdigits =>
    have hquote : Byte.quote ∉ Byte.codePoint :: digits := by
      rw [List.mem_cons, not_or]
      refine ⟨by decide, ?_⟩
      intro hmem
      exact absurd (hdigits _ hmem) (by decide)
    rw [Json.guarded, guarded_of_quote_not_mem hquote]
    simp [Byte.quote, Byte.backslash]

theorem Contents.guarded (h : Contents text) : guarded false text := by
  induction h with
  | nil => rfl
  | snoc text piece htext hpiece ih => rw [guarded_append, ih, hpiece.guarded, Bool.and_true]

theorem Primitive.endsPrimitive_eq_false (h : Primitive text) :
    ∀ c ∈ text, Byte.endsPrimitive c = false := by
  cases h with
  | mk first text hfirst htext =>
    rw [List.forall_mem_cons]
    constructor
    · rw [← Byte.startsPrimitive_iff] at hfirst
      revert first
      decide +kernel
    · intro c hc
      exact ((Byte.inPrimitive_iff c).2 (htext c hc)).1

theorem Contents.not_append_quote (h : Contents text) (rest : Bytes) :
    ¬ Contents (text ++ Byte.quote :: rest) := by
  intro hlonger
  let s : Scanner := { mode := .string 0, expect := .separator }
  have hwhole := Scanner.foldlM_contents hlonger s rfl
  rw [List.foldlM_append, Scanner.foldlM_contents h s rfl] at hwhole
  contradiction

end ClearSign.Json
