import ClearSign.Proofs.Json.Lexeme
import ClearSign.Proofs.Review.Exactness

/-!
This module contains the proof that a name with numbered values behind it, as an unknown capability
is shown, can be read in one way only.
-/

namespace ClearSign

open Json

def argLabel (n : Nat) : Bytes :=
  ascii ", arg " ++ decimal n ++ ascii ": "

theorem argLabel_eq (n : Nat) :
    argLabel n = Byte.comma :: 32 :: 97 :: (ascii "rg " ++ decimal n ++ ascii ": ") := rfl

theorem comma_not_mem_tail_argLabel (n : Nat) : Byte.comma ∉ (argLabel n).tail := by
  have hdigit : Byte.comma ∉ decimal n := by
    intro hmem
    exact absurd (toNat_of_mem_decimal hmem).1 (by decide)
  have hbefore : Byte.comma ∉ ascii "rg " := by decide
  have hbehind : Byte.comma ∉ ascii ": " := by decide
  rw [argLabel_eq, List.tail_cons, List.mem_cons, List.mem_cons, List.mem_append, List.mem_append]
  simp only [hdigit, hbefore, hbehind, or_false]
  decide

theorem escapes_argLabel (n : Nat) : escapes false (argLabel n) = false := by
  have hlast : (argLabel n).getLast? = some 32 := by
    rw [argLabel, List.getLast?_append]
    rfl
  exact escapes_of_getLast? hlast (by decide) false

theorem argLabel_append_injective {rest rest' : Bytes}
    (h : argLabel n ++ rest = argLabel m ++ rest') : n = m ∧ rest = rest' := by
  have hsplit (n : Nat) (rest : Bytes) :
      argLabel n ++ rest = ascii ", arg " ++ (decimal n ++ ascii ": " ++ rest) := by
    simp [argLabel]
  have hdigits (n : Nat) (rest : Bytes) :
      (decimal n ++ ascii ": " ++ rest).takeWhile (· != Byte.colon) = decimal n := by
    have hcolon : ∀ c ∈ decimal n, (c != Byte.colon) = true := by
      intro c hc
      rw [bne_iff_ne]
      rintro rfl
      exact absurd (toNat_of_mem_decimal hc).2 (by decide)
    rw [List.append_assoc, List.takeWhile_append_of_pos hcolon]
    exact List.append_nil _
  rw [hsplit, hsplit, List.append_cancel_left_eq] at h
  have hnumber : decimal n = decimal m := by rw [← hdigits n rest, h, hdigits]
  rw [hnumber, List.append_cancel_left_eq] at h
  exact ⟨decimal_injective hnumber, h⟩

def listed (n : Nat) (values : List Bytes) : Bytes :=
  (values.zipIdx n).flatMap fun (value, n) => argLabel n ++ value

theorem listed_nil (n : Nat) : listed n [] = [] := rfl

theorem listed_cons (n : Nat) (value : Bytes) (values : List Bytes) :
    listed n (value :: values) = argLabel n ++ (value ++ listed (n + 1) values) := by
  simp [listed]

theorem comma_of_listed {front rest : Bytes} (h : listed n values = front ++ rest)
    (hhead : front.head? = some c) : c = Byte.comma := by
  cases values with
  | nil =>
    rw [listed_nil, eq_comm, List.append_eq_nil_iff] at h
    rw [h.1] at hhead
    contradiction
  | cons value values =>
    have hwhole : (listed n (value :: values)).head? = some c := by
      rw [h, List.head?_append, hhead, Option.some_or]
    rw [listed_cons, argLabel_eq] at hwhole
    exact (Option.some.inj hwhole).symm

def argsListed (values : List Bytes) : Bytes :=
  if values.isEmpty then ascii ", no args" else listed 1 values

theorem argsListed_cons (value : Bytes) (values : List Bytes) :
    argsListed (value :: values) = argLabel 1 ++ (value ++ listed 2 values) :=
  listed_cons 1 value values

theorem argsListed_eq (values : List Bytes) :
    ascii ", " ++ (if values.isEmpty then ascii "no args" else numbered values) =
      argsListed values := by
  cases values with
  | nil => rfl
  | cons value values =>
    rw [if_neg (by simp), numbered, argsListed_cons, List.zipIdx_cons, List.map_cons,
      ReviewData.intercalate_cons, List.flatMap_map]
    simp [listed, argLabel, ascii]

inductive IsShown (value : Bytes) : Prop where
  | string (text : Bytes) : Contents text → value = quoted text → IsShown value
  | primitive : Primitive value → IsShown value
  | container : Enclosed value → IsShown value

namespace IsShown

theorem head? (h : IsShown value) : ∃ c, value.head? = some c ∧ c ≠ Byte.comma := by
  cases h with
  | string text hcontents hvalue => exact ⟨Byte.quote, by rw [hvalue]; rfl, by decide⟩
  | primitive hprimitive =>
    obtain ⟨c, hhead, hstarts⟩ := hprimitive.head?
    refine ⟨c, hhead, ?_⟩
    rintro rfl
    contradiction
  | container henclosed =>
    obtain ⟨container, hhead⟩ := henclosed.head?
    exact ⟨container.opening, hhead, by cases container <;> decide⟩

theorem exists_contents (h : IsShown value) (hhead : value.head? = some Byte.quote) :
    ∃ text, Contents text ∧ value = quoted text := by
  cases h with
  | string text hcontents hvalue => exact ⟨text, hcontents, hvalue⟩
  | primitive hprimitive => exact absurd hhead (head?_ne_quote (.inl hprimitive))
  | container henclosed => exact absurd hhead (head?_ne_quote (.inr henclosed))

theorem enclosed (h : IsShown value) {container : Container}
    (hhead : value.head? = some container.opening) : Enclosed value := by
  cases h with
  | string text hcontents hvalue =>
    rw [hvalue] at hhead
    obtain hquote : Byte.quote = container.opening := Option.some.inj hhead
    cases container <;> contradiction
  | primitive hprimitive =>
    obtain ⟨c, hc, hstarts⟩ := hprimitive.head?
    rw [hhead] at hc
    cases hc
    cases container <;> contradiction
  | container henclosed => exact henclosed

theorem eq_nil_of_append (h : IsShown value) (hlonger : IsShown (value ++ more))
    (hcomma : ∀ c, more.head? = some c → c = Byte.comma) : more = [] := by
  obtain ⟨b, hhead, -⟩ := h.head?
  have hhead' : (value ++ more).head? = some b := by rw [List.head?_append, hhead, Option.some_or]
  cases hlonger with
  | string text hcontents hvalue =>
    rw [hvalue] at hhead'
    obtain rfl : Byte.quote = b := Option.some.inj hhead'
    obtain ⟨inner, hinner, rfl⟩ := h.exists_contents hhead
    rcases List.eq_nil_or_concat more with hnil | ⟨front, c, rfl⟩
    · exact hnil
    · rw [List.concat_eq_append, ← List.append_assoc] at hvalue
      have hfront := (List.append_inj' hvalue rfl).1
      rw [quoted, List.append_assoc, List.append_assoc, List.append_cancel_left_eq] at hfront
      exact absurd hcontents (hfront ▸ hinner.not_append_quote front)
  | primitive hprimitive =>
    cases more with
    | nil => rfl
    | cons c more =>
      obtain rfl := hcomma c rfl
      have hends := hprimitive.endsPrimitive_eq_false Byte.comma (by simp)
      contradiction
  | container hlonger =>
    obtain ⟨container, hc⟩ := hlonger.head?
    rw [hhead'] at hc
    rw [hc] at hhead
    exact (h.enclosed hhead).eq_nil_of_append hlonger

end IsShown

theorem value_eq_of_listed (hvalue : IsShown value) (hvalue' : IsShown value')
    (h : value ++ listed n values = value' ++ listed m values') : value = value' := by
  rcases List.append_eq_append_iff.1 h with ⟨more, rfl, hmore⟩ | ⟨more, rfl, hmore⟩
  · rw [hvalue.eq_nil_of_append hvalue' fun _ => comma_of_listed hmore, List.append_nil]
  · rw [hvalue'.eq_nil_of_append hvalue fun _ => comma_of_listed hmore, List.append_nil]

theorem listed_cons_ne_nil (n : Nat) (value : Bytes) (values : List Bytes) :
    listed n (value :: values) ≠ [] := by
  rw [listed_cons, argLabel_eq]
  simp

theorem listed_injective (hvalues : ∀ value ∈ values, IsShown value)
    (hvalues' : ∀ value ∈ values', IsShown value) (h : listed n values = listed n values') :
    values = values' := by
  induction values generalizing n values' with
  | nil =>
    cases values' with
    | nil => rfl
    | cons value' values' => exact absurd h.symm (listed_cons_ne_nil n value' values')
  | cons value values ih =>
    cases values' with
    | nil => exact absurd h (listed_cons_ne_nil n value values)
    | cons value' values' =>
      rw [List.forall_mem_cons] at hvalues hvalues'
      rw [listed_cons, listed_cons, List.append_cancel_left_eq] at h
      obtain rfl := value_eq_of_listed hvalues.1 hvalues'.1 h
      rw [List.append_cancel_left_eq] at h
      rw [ih hvalues.2 hvalues'.2 h]

theorem argsListed_nil_ne (n : Nat) (rest : Bytes) : argsListed [] ≠ argLabel n ++ rest := by
  intro h
  have hletter : (argsListed [])[2]? = some 97 := by
    rw [h, argLabel_eq]
    rfl
  exact absurd hletter (by decide)

theorem argsListed_ne_listed (hn : n ≠ 1) (values values' : List Bytes) :
    argsListed values ≠ listed n values' := by
  cases values' with
  | nil =>
    cases values with
    | nil => exact List.cons_ne_nil _ _
    | cons value values => exact listed_cons_ne_nil 1 value values
  | cons value' values' =>
    rw [listed_cons]
    cases values with
    | nil => exact argsListed_nil_ne n _
    | cons value values =>
      rw [argsListed_cons]
      intro h
      exact hn (argLabel_append_injective h).1.symm

theorem argsListed_injective (hvalues : ∀ value ∈ values, IsShown value)
    (hvalues' : ∀ value ∈ values', IsShown value) (h : argsListed values = argsListed values') :
    values = values' := by
  cases values with
  | nil =>
    cases values' with
    | nil => rfl
    | cons value' values' =>
      rw [argsListed_cons] at h
      exact absurd h (argsListed_nil_ne 1 _)
  | cons value values =>
    cases values' with
    | nil =>
      rw [argsListed_cons] at h
      exact absurd h.symm (argsListed_nil_ne 1 _)
    | cons value' values' => exact listed_injective hvalues hvalues' h

theorem head?_argsListed (values : List Bytes) : (argsListed values).head? = some Byte.comma := by
  cases values with
  | nil => rfl
  | cons value values =>
    rw [argsListed_cons, argLabel_eq]
    rfl

theorem argsListed_ne_append {s : Scanner} {front : Bytes} (houtside : s.Outside)
    (haccepts : s.Accepts front)
    (hlast : ∃ container : Container, front.getLast? = some container.closing)
    (values : List Bytes) (rest : Bytes) : argsListed values ≠ front ++ rest := by
  obtain ⟨container, hlast⟩ := hlast
  intro h
  cases values with
  | nil =>
    have hmem : container.closing ∈ argsListed [] := by
      rw [h]
      exact List.mem_append_left rest (List.mem_of_getLast? hlast)
    revert hmem
    cases container <;> decide
  | cons value values =>
    rw [argsListed_cons, argLabel_eq] at h
    rcases front with _ | ⟨a, _ | ⟨b, _ | ⟨c, front⟩⟩⟩
    · contradiction
    · simp only [List.cons_append, List.cons.injEq] at h
      obtain ⟨rfl, -⟩ := h
      cases container <;> contradiction
    · simp only [List.cons_append, List.cons.injEq] at h
      obtain ⟨-, rfl, -⟩ := h
      rw [List.getLast?_cons_cons, List.getLast?_singleton, Option.some_inj] at hlast
      cases container <;> contradiction
    · simp only [List.cons_append, List.cons.injEq] at h
      obtain ⟨rfl, rfl, rfl, -⟩ := h
      obtain ⟨t, ht, hrest⟩ := Scanner.accepts_cons haccepts
      have hword := (Scanner.outside_of_step houtside ht (by decide)).1
      exact Scanner.not_accepts_blank_letter hword rfl rfl rfl front hrest

theorem eq_nil_of_argLabel {front back rest : Bytes} (h : argLabel n = front ++ back)
    (hhead : (back ++ rest).head? = some Byte.comma) (hrest : rest.head? ≠ some Byte.comma) :
    front = [] := by
  -- the comma of a label is at its front, and no value begins with one
  cases front with
  | nil => rfl
  | cons c front =>
    have htail := congrArg List.tail h
    rw [List.cons_append, List.tail_cons] at htail
    have hcomma := comma_not_mem_tail_argLabel n
    rw [htail, List.mem_append, not_or] at hcomma
    cases back with
    | nil => exact absurd hhead hrest
    | cons b back =>
      obtain rfl : b = Byte.comma := Option.some.inj hhead
      exact absurd (List.mem_cons_self ..) hcomma.2

theorem argsListed_ne_of_inside {front back rest : Bytes} (hvalue : IsShown (front ++ back))
    (hguarded : guarded false front) (hback : back ≠ []) (values : List Bytes) :
    argsListed values ≠ back ++ rest := by
  intro h
  have hhead : back.head? = some Byte.comma := by
    rw [← head?_argsListed values, h, List.head?_append_of_ne_nil back hback]
  cases hvalue with
  | string text hcontents hquoted =>
    cases front with
    | nil =>
      rw [List.nil_append] at hquoted
      rw [hquoted] at hhead
      have hquote : Byte.quote = Byte.comma := Option.some.inj hhead
      contradiction
    | cons c front =>
      obtain ⟨rfl, -⟩ := List.cons.inj hquoted
      contradiction
  | primitive hprimitive =>
    have hmem := List.mem_append_right front (List.mem_of_head? hhead)
    have hends := hprimitive.endsPrimitive_eq_false Byte.comma hmem
    contradiction
  | container henclosed =>
    obtain ⟨s, -, houtside, haccepts⟩ := henclosed.outside_of_guarded hguarded
    obtain ⟨container, hlast⟩ := henclosed.getLast?
    rw [List.getLast?_append_of_ne_nil front hback] at hlast
    exact argsListed_ne_append houtside haccepts ⟨container, hlast⟩ values rest h

theorem eq_nil_of_listed {front : Bytes} (hvalues : ∀ value ∈ values, IsShown value) (hn : 0 < n)
    (hguarded : guarded false front) (h : listed n values = front ++ argsListed values') :
    front = [] := by
  induction values generalizing n front with
  | nil =>
    rw [listed_nil, eq_comm, List.append_eq_nil_iff] at h
    exact h.1
  | cons value values ih =>
    rw [List.forall_mem_cons] at hvalues
    obtain ⟨hvalue, hvalues⟩ := hvalues
    rw [listed_cons] at h
    have hlater : argsListed values' ≠ listed (n + 1) values :=
      argsListed_ne_listed (by omega) values' values
    -- the front ends behind the label, in the first value or behind it, or inside of the label
    rcases List.append_eq_append_iff.1 h with ⟨behind, rfl, hbehind⟩ | ⟨back, hback, hrest⟩
    · exfalso
      rw [guarded_append, escapes_argLabel, Bool.and_eq_true] at hguarded
      rcases List.append_eq_append_iff.1 hbehind with ⟨more, rfl, hmore⟩ | ⟨back, rfl, hback⟩
      · have hnil : more = [] := by
          apply ih hvalues (Nat.succ_pos n) _ hmore
          cases more with
          | nil => rfl
          | cons c more =>
            obtain rfl := comma_of_listed hmore rfl
            exact guarded_suffix hguarded.2 (by decide)
        rw [hnil] at hmore
        exact hlater hmore.symm
      · by_cases hnil : back = []
        · rw [hnil] at hback
          exact hlater hback
        · exact argsListed_ne_of_inside hvalue hguarded.2 hnil values' hback
    · obtain ⟨c, hhead, hcomma⟩ := hvalue.head?
      apply eq_nil_of_argLabel hback
      · rw [← hrest, head?_argsListed]
      · rw [List.head?_append, hhead, Option.some_or]
        simpa using hcomma

theorem eq_nil_of_name {name more : Bytes} (hname : Lexeme name) (hlonger : Lexeme (name ++ more))
    (hvalues : ∀ value ∈ values, IsShown value)
    (h : argsListed values = more ++ argsListed values') : more = [] := by
  cases more with
  | nil => rfl
  | cons c more =>
    obtain rfl : Byte.comma = c := by
      have hhead := head?_argsListed values
      rw [h] at hhead
      exact (Option.some.inj hhead).symm
    cases hlonger with
    | string hcontents =>
      cases values with
      | nil =>
        have htail : (argsListed []).tail = more ++ argsListed values' := congrArg List.tail h
        have hmem := List.mem_append_right more (List.mem_of_head? (head?_argsListed values'))
        rw [← htail] at hmem
        exact absurd hmem (by decide)
      | cons value values =>
        exact eq_nil_of_listed hvalues Nat.one_pos (guarded_suffix hcontents.guarded (by decide)) h
    | primitive hprimitive =>
      have hends := hprimitive.endsPrimitive_eq_false Byte.comma (by simp)
      contradiction
    | container henclosed =>
      obtain ⟨s, houtside, haccepts⟩ := hname.outside_of_enclosed (by simp) henclosed
      obtain ⟨container, hlast⟩ := henclosed.getLast?
      rw [List.getLast?_append_of_ne_nil name (by simp)] at hlast
      exact absurd h (argsListed_ne_append houtside haccepts ⟨container, hlast⟩ values _)

theorem name_and_argsListed_injective {name name' : Bytes} (hname : Lexeme name)
    (hname' : Lexeme name') (hvalues : ∀ value ∈ values, IsShown value)
    (hvalues' : ∀ value ∈ values', IsShown value)
    (h : name ++ argsListed values = name' ++ argsListed values') :
    name = name' ∧ values = values' := by
  have hsame : name = name' := by
    rcases List.append_eq_append_iff.1 h with ⟨more, rfl, hmore⟩ | ⟨more, rfl, hmore⟩
    · rw [eq_nil_of_name hname hname' hvalues hmore, List.append_nil]
    · rw [eq_nil_of_name hname' hname hvalues' hmore, List.append_nil]
  rw [hsame, List.append_cancel_left_eq] at h
  exact ⟨hsame, argsListed_injective hvalues hvalues' h⟩

end ClearSign
