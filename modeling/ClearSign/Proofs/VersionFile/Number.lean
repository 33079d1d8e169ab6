import ClearSign.Proofs.Outcome
import ClearSign.VersionFile

/-!
This module contains what the numbers of a version file are, and the proof that exactly these are
read.
-/

namespace ClearSign

namespace VersionFile

def unsigned : List Char → List Char
  | '+' :: text => text
  | text => text

def Numeral (text : List Char) (n : Nat) : Prop :=
  ∃ digits : List Char, (text = digits ∨ text = '+' :: digits) ∧ digits ≠ [] ∧
    (∀ c ∈ digits, c.isDigit) ∧ n = Nat.ofDigitChars 10 digits 0 ∧ n ≤ 255

inductive Spoils (front : List Char) (c : Char) : NumberError → Prop where
  | digit : c.isDigit = false → Spoils front c .invalidDigit
  | overflow : c.isDigit → 255 < Nat.ofDigitChars 10 (front ++ [c]) 0 → Spoils front c .overflow

inductive Refused (text : List Char) : NumberError → Prop where
  | empty : text = [] → Refused text .empty
  | sign : text = ['+'] → Refused text .invalidDigit
  | spoiled (front : List Char) (c : Char) (rest : List Char) (reason : NumberError) :
      unsigned text = front ++ c :: rest → (∀ d ∈ front, d.isDigit) →
      Nat.ofDigitChars 10 front 0 ≤ 255 → Spoils front c reason → Refused text reason

theorem le_ofDigitChars (value : Nat) (text : List Char) :
    value ≤ Nat.ofDigitChars 10 text value := by
  induction text generalizing value with
  | nil => exact Nat.le_refl value
  | cons c text ih =>
    rw [Nat.ofDigitChars_cons]
    exact Nat.le_trans (by omega) (ih _)

theorem digits_cons_of_not_isDigit (value : Nat) (rest : List Char) (h : c.isDigit = false) :
    digits value (c :: rest) = .error .invalidDigit := by
  simp [digits, h]

theorem digits_cons_of_isDigit (value : Nat) (rest : List Char) (h : c.isDigit = true) :
    digits value (c :: rest) =
      if 255 < 10 * value + (c.toNat - '0'.toNat) then .error .overflow
      else digits (10 * value + (c.toNat - '0'.toNat)) rest := by
  simp [digits, h]

theorem digits_eq_ok_iff {value : Nat} (hvalue : value ≤ 255) {text : List Char} :
    digits value text = .ok n ↔
      (∀ c ∈ text, c.isDigit) ∧ n = Nat.ofDigitChars 10 text value ∧ n ≤ 255 := by
  induction text generalizing value with
  | nil =>
    rw [digits, Nat.ofDigitChars_nil]
    constructor
    · rintro ⟨⟩
      exact ⟨by simp, rfl, hvalue⟩
    · rintro ⟨-, rfl, -⟩
      rfl
  | cons c text ih =>
    rw [List.forall_mem_cons, Nat.ofDigitChars_cons]
    cases hdigit : c.isDigit with
    | false => simp [digits_cons_of_not_isDigit value text hdigit]
    | true =>
      rw [digits_cons_of_isDigit value text hdigit]
      split
      · next hover =>
        -- the digits that follow do not make the value less
        have hle := le_ofDigitChars (10 * value + (c.toNat - '0'.toNat)) text
        simp only [reduceCtorEq, false_iff]
        rintro ⟨-, rfl, hn⟩
        omega
      · next hfits =>
        rw [ih (Nat.le_of_not_lt hfits)]
        simp

theorem digits_singleton_eq_error_iff {value : Nat} :
    digits value [c] = .error reason ↔
      c.isDigit = false ∧ reason = .invalidDigit ∨
        c.isDigit ∧ 255 < 10 * value + (c.toNat - '0'.toNat) ∧ reason = .overflow := by
  cases hdigit : c.isDigit with
  | false => simp [digits_cons_of_not_isDigit value [] hdigit, eq_comm]
  | true =>
    rw [digits_cons_of_isDigit value [] hdigit]
    split
    · next hover =>
      simp only [hover, Except.error.injEq, eq_comm, true_and, reduceCtorEq, false_and, false_or]
    · next hfits => simp only [digits, hfits, reduceCtorEq, false_and, and_false, or_false]

theorem digits_cons (value : Nat) (c : Char) (rest : List Char) :
    digits value (c :: rest) = digits value [c] >>= fun next => digits next rest := by
  cases hdigit : c.isDigit with
  | false =>
    rw [digits_cons_of_not_isDigit value rest hdigit, digits_cons_of_not_isDigit value [] hdigit]
    rfl
  | true =>
    rw [digits_cons_of_isDigit value rest hdigit, digits_cons_of_isDigit value [] hdigit]
    split
    · rfl
    · rfl

theorem digits_eq_error_iff {value : Nat} {text : List Char} :
    digits value text = .error reason ↔
      ∃ front c rest n, text = front ++ c :: rest ∧ digits value front = .ok n ∧
        digits n [c] = .error reason := by
  induction text generalizing value with
  | nil => simp [digits]
  | cons d text ih =>
    rw [digits_cons]
    cases hstep : digits value [d] with
    | error other =>
      rw [error_bind]
      constructor
      · intro h
        exact ⟨[], d, text, value, rfl, rfl, hstep.trans h⟩
      · rintro ⟨_ | ⟨_, front⟩, c, rest, n, hsplit, hfront, hc⟩
        · cases hsplit
          cases hfront
          exact hstep.symm.trans hc
        · cases hsplit
          rw [digits_cons, hstep] at hfront
          contradiction
    | ok next =>
      rw [ok_bind, ih]
      constructor
      · rintro ⟨front, c, rest, n, rfl, hfront, hc⟩
        refine ⟨d :: front, c, rest, n, rfl, ?_, hc⟩
        rw [digits_cons, hstep]
        exact hfront
      · rintro ⟨_ | ⟨_, front⟩, c, rest, n, hsplit, hfront, hc⟩
        · cases hsplit
          cases hfront
          rw [hstep] at hc
          contradiction
        · cases hsplit
          rw [digits_cons, hstep] at hfront
          exact ⟨front, c, rest, n, rfl, hfront, hc⟩

theorem unsigned_of_isDigit (h : ∀ c ∈ text, c.isDigit) : unsigned text = text := by
  unfold unsigned
  split
  · simp at h
  · rfl

theorem numeral_iff :
    Numeral text n ↔ unsigned text ≠ [] ∧ (∀ c ∈ unsigned text, c.isDigit) ∧
      n = Nat.ofDigitChars 10 (unsigned text) 0 ∧ n ≤ 255 := by
  constructor
  · rintro ⟨digits, rfl | rfl, hne, hdigits, hvalue⟩
    · rw [unsigned_of_isDigit hdigits]
      exact ⟨hne, hdigits, hvalue⟩
    · exact ⟨hne, hdigits, hvalue⟩
  · rintro ⟨hne, hdigits, hvalue⟩
    refine ⟨unsigned text, ?_, hne, hdigits, hvalue⟩
    unfold unsigned
    split
    · exact .inr rfl
    · exact .inl rfl

theorem number_eq (text : List Char) :
    number text =
      if text = [] then .error .empty
      else if unsigned text = [] then .error .invalidDigit
      else digits 0 (unsigned text) := by
  unfold number
  split
  · rfl
  · rfl
  · next rest hrest => exact (if_neg hrest).symm
  · next hempty _ hsign =>
    have hself : unsigned text = text := by
      unfold unsigned
      split
      · exact absurd rfl (hsign _)
      · rfl
    rw [hself, if_neg hempty, if_neg hempty]

theorem number_eq_ok_iff : number text = .ok n ↔ Numeral text n := by
  rw [number_eq, numeral_iff]
  split
  · next hempty => simp [hempty, unsigned]
  · split
    · next hsign => simp [hsign]
    · next hne => rw [digits_eq_ok_iff (by decide), and_iff_right hne]

theorem spoils_iff {front : List Char} :
    Spoils front c reason ↔ digits (Nat.ofDigitChars 10 front 0) [c] = .error reason := by
  rw [digits_singleton_eq_error_iff]
  constructor
  · rintro (hdigit | ⟨hdigit, hover⟩)
    · exact .inl ⟨hdigit, rfl⟩
    · rw [Nat.ofDigitChars_append] at hover
      exact .inr ⟨hdigit, hover, rfl⟩
  · rintro (⟨hdigit, rfl⟩ | ⟨hdigit, hover, rfl⟩)
    · exact .digit hdigit
    · apply Spoils.overflow hdigit
      rw [Nat.ofDigitChars_append]
      exact hover

theorem number_eq_error_iff : number text = .error reason ↔ Refused text reason := by
  rw [number_eq]
  constructor
  · intro h
    split at h
    · next hempty =>
      cases h
      exact .empty hempty
    · split at h
      · next hempty hsign =>
        cases h
        apply Refused.sign
        unfold unsigned at hsign
        split at hsign
        · rw [hsign]
        · exact absurd hsign hempty
      · rw [digits_eq_error_iff] at h
        obtain ⟨front, c, rest, n, hsplit, hfront, hc⟩ := h
        obtain ⟨hdigits, rfl, hn⟩ := (digits_eq_ok_iff (by decide)).1 hfront
        exact .spoiled front c rest reason hsplit hdigits hn (spoils_iff.2 hc)
  · rintro (rfl | rfl | ⟨front, c, rest, reason, hsplit, hdigits, hn, hspoils⟩)
    · rfl
    · rfl
    · have hne : unsigned text ≠ [] := by simp [hsplit]
      have htext : text ≠ [] := by
        rintro rfl
        exact hne rfl
      rw [if_neg htext, if_neg hne, digits_eq_error_iff]
      refine ⟨front, c, rest, _, hsplit, ?_, spoils_iff.1 hspoils⟩
      exact (digits_eq_ok_iff (by decide)).2 ⟨hdigits, rfl, hn⟩

end VersionFile

end ClearSign
