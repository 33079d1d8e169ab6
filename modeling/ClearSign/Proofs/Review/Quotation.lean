import ClearSign.Proofs.Json.Lexeme
import ClearSign.Proofs.Review.Text

/-!
This module contains values in quotes with phrases in front of them, as the capabilities of the coin
contract are shown, and the proof that such a text can be read in one way only.
-/

namespace ClearSign

open Json

structure IsPhrase (phrase : Bytes) : Prop where
  head : phrase.head? = some 32
  quote : Byte.quote ∉ phrase
  escapes : escapes false phrase = false

def quotations (fields : List (Bytes × Bytes)) : Bytes :=
  fields.flatMap fun (phrase, value) => phrase ++ quoted value

theorem quotations_cons (phrase value : Bytes) (fields : List (Bytes × Bytes)) :
    quotations ((phrase, value) :: fields) =
      phrase ++ Byte.quote :: (value ++ Byte.quote :: quotations fields) := by
  simp [quotations, quoted]

def Quotable (fields : List (Bytes × Bytes)) : Prop :=
  ∀ field ∈ fields, IsPhrase field.1 ∧ Lexeme field.2

theorem quotable_cons :
    Quotable ((phrase, value) :: fields) ↔ (IsPhrase phrase ∧ Lexeme value) ∧ Quotable fields :=
  List.forall_mem_cons

theorem IsPhrase.cons_eq (h : IsPhrase phrase) : ∃ more, phrase = 32 :: more := by
  have hhead := h.head
  cases phrase with
  | nil => contradiction
  | cons c more =>
    rw [List.head?_cons, Option.some_inj] at hhead
    exact ⟨more, by rw [hhead]⟩

theorem IsPhrase.eq_of_lexeme {rest rest' : Bytes} (h : IsPhrase phrase) (hvalue : Lexeme value)
    (heq : phrase ++ Byte.quote :: rest = value ++ Byte.quote :: rest') :
    value = phrase ∧ rest = rest' := by
  obtain ⟨more, hmore⟩ := h.cons_eq
  have hcontents : Contents value := by
    cases value with
    | nil => exact .nil
    | cons c value =>
      rw [hmore] at heq
      obtain ⟨rfl, -⟩ := List.cons.inj heq
      exact hvalue.contents_of_head rfl
  obtain ⟨rfl, hrest⟩ := eq_of_guarded hcontents.guarded h.quote h.escapes heq.symm
  exact ⟨rfl, hrest.symm⟩

theorem not_shifted (hphrase : IsPhrase phrase) (hvalue : Lexeme value)
    (hfields : Quotable fields) (hvalue' : Lexeme value') (hfields' : Quotable fields') :
    phrase ++ Byte.quote :: (value' ++ Byte.quote :: quotations fields') ≠
      value ++ Byte.quote :: quotations fields := by
  induction fields generalizing phrase value value' fields' with
  | nil =>
    intro heq
    obtain ⟨-, hrest⟩ := hphrase.eq_of_lexeme hvalue heq
    exact absurd hrest (by simp [quotations])
  | cons field fields ih =>
    obtain ⟨next, nextValue⟩ := field
    obtain ⟨⟨hnext, hnextValue⟩, hfields⟩ := quotable_cons.1 hfields
    intro heq
    obtain ⟨-, hrest⟩ := hphrase.eq_of_lexeme hvalue heq
    rw [quotations_cons] at hrest
    obtain ⟨-, hrest⟩ := hnext.eq_of_lexeme hvalue' hrest.symm
    cases fields' with
    | nil => exact absurd hrest (by simp [quotations])
    | cons field' fields' =>
      obtain ⟨next', nextValue'⟩ := field'
      obtain ⟨⟨hnext', hnextValue'⟩, hfields'⟩ := quotable_cons.1 hfields'
      rw [quotations_cons] at hrest
      exact ih hnext' hnextValue hfields hnextValue' hfields' hrest.symm

theorem not_leapt {last rest : Bytes} (hlast : Remainder last) (hphrase : IsPhrase phrase)
    (hvalue : Lexeme value) (hfields : Quotable fields) (hnew : phrase ∉ fields.map Prod.fst) :
    last ++ Byte.quote :: (phrase ++ Byte.quote :: rest) ≠
      value ++ Byte.quote :: quotations fields := by
  induction fields generalizing last value with
  | nil =>
    intro heq
    rcases hlast.eq_or_exists hvalue heq with hrest | ⟨content, more, hrest, -, -⟩
    · exact absurd hrest (by simp [quotations])
    · exact absurd hrest (by simp [quotations])
  | cons field fields ih =>
    obtain ⟨next, nextValue⟩ := field
    obtain ⟨⟨hnext, hnextValue⟩, hfields⟩ := quotable_cons.1 hfields
    rw [List.map_cons, List.mem_cons, not_or] at hnew
    intro heq
    rcases hlast.eq_or_exists hvalue heq with hrest | ⟨content, more, hrest, hcontent, hmore⟩
    · rw [quotations_cons] at hrest
      have hguarded := guarded_of_quote_not_mem hnext.quote false
      exact hnew.1 (eq_of_guarded hguarded hphrase.quote hphrase.escapes hrest).1.symm
    · rw [quotations_cons] at hrest
      obtain ⟨-, hrest⟩ := eq_of_guarded hcontent hnext.quote hnext.escapes hrest.symm
      exact ih hmore hnextValue hfields hnew.2 hrest

theorem eq_nil_of_longer {more : Bytes} (hvalue : Lexeme value) (hlonger : Lexeme (value ++ more))
    (hfields : Quotable fields) (hfields' : Quotable fields')
    (hsame : fields.map Prod.fst = fields'.map Prod.fst) (hdistinct : (fields.map Prod.fst).Nodup)
    (heq : Byte.quote :: quotations fields = more ++ Byte.quote :: quotations fields') :
    more = [] := by
  cases more with
  | nil => rfl
  | cons c more =>
    exfalso
    rw [List.cons_append, List.cons.injEq] at heq
    obtain ⟨rfl, hrest⟩ := heq
    cases fields with
    | nil => exact absurd hrest (by simp [quotations])
    | cons field fields =>
    cases fields' with
    | nil => contradiction
    | cons field' fields' =>
    obtain ⟨phrase, first⟩ := field
    obtain ⟨phrase', first'⟩ := field'
    simp only [List.map_cons, List.cons.injEq] at hsame
    obtain ⟨rfl, -⟩ := hsame
    rw [List.map_cons, List.nodup_cons] at hdistinct
    obtain ⟨⟨hphrase, hfirst⟩, hfields⟩ := quotable_cons.1 hfields
    obtain ⟨⟨-, hfirst'⟩, hfields'⟩ := quotable_cons.1 hfields'
    rw [quotations_cons, quotations_cons] at hrest
    cases hlonger with
    | string hcontents =>
      -- the phrase would be in the longer value, and the value behind it would be the phrase again
      have hguarded := hcontents.guarded
      rw [guarded_append, guarded, Bool.and_eq_true, Bool.and_eq_true] at hguarded
      obtain ⟨-, hrest⟩ := eq_of_guarded hguarded.2.2 hphrase.quote hphrase.escapes hrest.symm
      exact not_shifted hphrase hfirst hfields hfirst' hfields' hrest
    | primitive hprimitive =>
      have hends := hprimitive.endsPrimitive_eq_false Byte.quote (by simp)
      contradiction
    | container henclosed =>
      -- the phrase would be a string in the container, and the values behind it would end there
      obtain ⟨s, houtside, haccepts⟩ := hvalue.outside_of_enclosed (by simp) henclosed
      obtain ⟨content, last, rfl, hcontent, hlast⟩ :=
        Remainder.of_quote houtside haccepts henclosed.getLast?
      rw [List.append_assoc, List.cons_append] at hrest
      obtain ⟨-, hrest⟩ := eq_of_guarded hcontent hphrase.quote hphrase.escapes hrest.symm
      exact not_leapt hlast hphrase hfirst hfields hdistinct.1 hrest

theorem value_eq_of_quoted (hvalue : Lexeme value) (hvalue' : Lexeme value')
    (hfields : Quotable fields) (hfields' : Quotable fields')
    (hsame : fields.map Prod.fst = fields'.map Prod.fst) (hdistinct : (fields.map Prod.fst).Nodup)
    (heq : value ++ Byte.quote :: quotations fields =
      value' ++ Byte.quote :: quotations fields') : value = value' := by
  rcases List.append_eq_append_iff.1 heq with ⟨more, rfl, hmore⟩ | ⟨more, rfl, hmore⟩
  · rw [eq_nil_of_longer hvalue hvalue' hfields hfields' hsame hdistinct hmore, List.append_nil]
  · rw [hsame] at hdistinct
    rw [eq_nil_of_longer hvalue' hvalue hfields' hfields hsame.symm hdistinct hmore,
      List.append_nil]

theorem quotations_injective (hfields : Quotable fields) (hfields' : Quotable fields')
    (hsame : fields.map Prod.fst = fields'.map Prod.fst) (hdistinct : (fields.map Prod.fst).Nodup)
    (heq : quotations fields = quotations fields') : fields = fields' := by
  induction fields generalizing fields' with
  | nil => exact (List.map_eq_nil_iff.1 hsame.symm).symm
  | cons field fields ih =>
    cases fields' with
    | nil => contradiction
    | cons field' fields' =>
    obtain ⟨phrase, value⟩ := field
    obtain ⟨phrase', value'⟩ := field'
    rw [List.map_cons, List.map_cons, List.cons.injEq] at hsame
    rw [List.map_cons, List.nodup_cons] at hdistinct
    obtain ⟨rfl : phrase = phrase', hsame⟩ := hsame
    rw [quotable_cons] at hfields hfields'
    rw [quotations_cons, quotations_cons, List.append_cancel_left_eq, List.cons.injEq] at heq
    obtain rfl := value_eq_of_quoted hfields.1.2 hfields'.1.2 hfields.2 hfields'.2 hsame
      hdistinct.2 heq.2
    rw [List.append_cancel_left_eq, List.cons.injEq] at heq
    rw [ih hfields.2 hfields'.2 hsame hdistinct.2 heq.2.2]

structure IsWorded (phrase : Bytes) : Prop extends IsPhrase phrase where
  word : ∃ word : Bytes, phrase = 32 :: (word ++ [32]) ∧ word ≠ [] ∧
    ∀ c ∈ word, Byte.endsPrimitive c = false

theorem isWorded_from : IsWorded (ascii " from ") where
  head := rfl
  quote := by decide
  escapes := by decide
  word := ⟨ascii "from", by decide, by decide, by decide +kernel⟩

theorem IsWorded.not_accepts {s : Scanner} (h : IsWorded phrase) (houtside : s.Outside)
    (rest : Bytes) : ¬ s.Accepts (phrase ++ Byte.quote :: rest) := by
  obtain ⟨word, rfl, hne, hword⟩ := h.word
  rw [List.cons_append, List.append_assoc]
  intro haccepts
  obtain ⟨t, ht, hrest⟩ := Scanner.accepts_cons haccepts
  have hinside := (Scanner.outside_of_step houtside ht (by decide)).1
  exact Scanner.not_accepts_word_quote hinside hne hword rfl rest hrest

theorem IsWorded.eq_nil_of_longer {value more rest rest' : Bytes} (h : IsWorded phrase)
    (hvalue : Lexeme value) (hlonger : Lexeme (value ++ more))
    (heq : phrase ++ Byte.quote :: rest = more ++ (phrase ++ Byte.quote :: rest')) : more = [] := by
  have hguarded (hmore : guarded false more) : more = [] := by
    rw [← List.append_assoc] at heq
    have hwhole : guarded false (more ++ phrase) := by
      rw [guarded_append, hmore, guarded_of_quote_not_mem h.quote, Bool.and_true]
    simpa using (eq_of_guarded hwhole h.quote h.escapes heq.symm).1
  cases more with
  | nil => rfl
  | cons c more =>
  obtain ⟨blank, hblank⟩ := h.cons_eq
  have hc : c = 32 := by
    rw [hblank] at heq
    exact (List.cons.inj heq).1.symm
  subst hc
  cases hlonger with
  | string hcontents => exact hguarded (guarded_suffix hcontents.guarded (by decide))
  | primitive hprimitive =>
    have hends := hprimitive.endsPrimitive_eq_false 32 (by simp)
    contradiction
  | container henclosed =>
    obtain ⟨s, houtside, haccepts⟩ := hvalue.outside_of_enclosed (by simp) henclosed
    -- a quote behind the value would begin a string right behind the word of the phrase
    by_cases hquote : Byte.quote ∈ 32 :: more
    · obtain ⟨before, after, hsplit, hbefore⟩ := List.eq_append_cons_of_mem hquote
      rw [hsplit] at haccepts heq
      rw [List.append_assoc, List.cons_append] at heq
      have hescapes := Scanner.escapes_eq_false_of_accepts houtside hbefore haccepts
      have hfirst := guarded_of_quote_not_mem h.quote false
      obtain ⟨rfl, -⟩ := eq_of_guarded hfirst hbefore hescapes heq
      exact absurd haccepts (h.not_accepts houtside after)
    · exact hguarded (guarded_of_quote_not_mem hquote false)

theorem value_and_quotations_injective (hphrase : IsWorded phrase) (hvalue : Lexeme value)
    (hvalue' : Lexeme value') (hfields : Quotable ((phrase, first) :: fields))
    (hfields' : Quotable ((phrase, first') :: fields'))
    (hsame : fields.map Prod.fst = fields'.map Prod.fst)
    (hdistinct : (phrase :: fields.map Prod.fst).Nodup)
    (heq : value ++ quotations ((phrase, first) :: fields) =
      value' ++ quotations ((phrase, first') :: fields')) :
    value = value' ∧ first = first' ∧ fields = fields' := by
  have hfront : value = value' := by
    rw [quotations_cons, quotations_cons] at heq
    rcases List.append_eq_append_iff.1 heq with ⟨more, rfl, hmore⟩ | ⟨more, rfl, hmore⟩
    · rw [hphrase.eq_nil_of_longer hvalue hvalue' hmore, List.append_nil]
    · rw [hphrase.eq_nil_of_longer hvalue' hvalue hmore, List.append_nil]
  rw [hfront, List.append_cancel_left_eq] at heq
  have hall := quotations_injective hfields hfields' (by simpa using hsame) hdistinct heq
  rw [List.cons.injEq, Prod.mk.injEq] at hall
  exact ⟨hfront, hall.1.2, hall.2⟩

end ClearSign
