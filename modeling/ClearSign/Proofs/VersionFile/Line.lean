import ClearSign.VersionFile
import Mathlib.Data.List.TakeWhile

/-!
This module contains what a single line of a version file says, and the proof that trimming,
skipping and splitting it find just that.
-/

namespace ClearSign

namespace VersionFile

def Blank (text : List Char) : Prop :=
  ∀ c ∈ text, isSpace c

def Trims (line text : List Char) : Prop :=
  ∃ left right, line = left ++ text ++ right ∧ Blank left ∧ Blank right ∧
    (∀ c ∈ text.head?, ¬isSpace c) ∧ (∀ c ∈ text.getLast?, ¬isSpace c)

def Silent (line : List Char) : Prop :=
  ∃ blanks rest, line = blanks ++ rest ∧ Blank blanks ∧
    (rest = [] ∨ ∃ comment, rest = '#' :: comment)

def Parts (line name value : List Char) : Prop :=
  ∃ left right, line = left ++ '=' :: right ∧ '=' ∉ left ∧ Trims left name ∧ Trims right value

theorem Blank.append {first second : List Char} (hfirst : Blank first) (hsecond : Blank second) :
    Blank (first ++ second) :=
  List.forall_mem_append.2 ⟨hfirst, hsecond⟩

theorem Blank.not_mem_equals (h : Blank text) : '=' ∉ text := by
  intro hmem
  exact absurd (h '=' hmem) (by decide)

theorem trim_append_left (h : Blank left) (text : List Char) : trim (left ++ text) = trim text := by
  rw [trim, List.dropWhile_append_of_pos h]
  rfl

theorem trim_append_right (text : List Char) (h : Blank right) :
    trim (text ++ right) = trim text := by
  unfold trim
  rw [List.dropWhile_append]
  split
  · next hempty =>
    rw [List.isEmpty_iff.1 hempty, List.dropWhile_eq_nil_iff.2 h]
  · rw [List.reverse_append, List.dropWhile_append_of_pos]
    intro c hc
    exact h c (List.mem_reverse.1 hc)

theorem dropWhile_of_head? {text : List Char} (h : ∀ c ∈ text.head?, ¬isSpace c) :
    text.dropWhile isSpace = text := by
  cases text with
  | nil => rfl
  | cons c text => exact List.dropWhile_cons_of_neg (h c rfl)

theorem head?_dropWhile (text : List Char) : ∀ c ∈ (text.dropWhile isSpace).head?, ¬isSpace c := by
  intro c hc
  have hstop := List.head?_dropWhile_not isSpace text
  rw [Option.mem_def.1 hc] at hstop
  rw [hstop]
  nofun

theorem exists_blank (text : List Char) :
    ∃ blanks, text = blanks ++ text.dropWhile isSpace ∧ Blank blanks :=
  ⟨text.takeWhile isSpace, List.takeWhile_append_dropWhile.symm, fun _ => List.mem_takeWhile_imp⟩

theorem trims_trim (line : List Char) : Trims line (trim line) := by
  obtain ⟨left, hline, hleft⟩ := exists_blank line
  obtain ⟨right, hinner, hright⟩ := exists_blank (line.dropWhile isSpace).reverse
  have hinner : line.dropWhile isSpace = trim line ++ right.reverse := by
    rw [trim, ← List.reverse_append, ← hinner, List.reverse_reverse]
  refine ⟨left, right.reverse, ?_, hleft, ?_, ?_, ?_⟩
  · rw [List.append_assoc, ← hinner]
    exact hline
  · intro c hc
    exact hright c (List.mem_reverse.1 hc)
  · intro c hc
    apply head?_dropWhile line
    rw [hinner, List.head?_append, Option.mem_def.1 hc]
    rfl
  · intro c hc
    rw [trim, List.getLast?_reverse] at hc
    exact head?_dropWhile _ c hc

theorem trim_eq_iff : trim line = text ↔ Trims line text := by
  constructor
  · rintro rfl
    exact trims_trim line
  · rintro ⟨left, right, rfl, hleft, hright, hhead, hlast⟩
    rw [trim_append_right _ hright, trim_append_left hleft, trim, dropWhile_of_head? hhead,
      dropWhile_of_head?, List.reverse_reverse]
    rw [List.head?_reverse]
    exact hlast

theorem head?_trim (h : ¬isSpace c) (text : List Char) : (trim (c :: text)).head? = some c := by
  obtain ⟨left, right, hline, hleft, hright, -, -⟩ := trims_trim (c :: text)
  cases left with
  | cons d left =>
    rw [List.cons_append, List.cons_append, List.cons.injEq] at hline
    obtain ⟨rfl, -⟩ := hline
    exact absurd (hleft c List.mem_cons_self) h
  | nil =>
    cases htrim : trim (c :: text) with
    | cons d rest =>
      rw [htrim] at hline
      cases hline
      rfl
    | nil =>
      rw [htrim, List.nil_append, List.nil_append] at hline
      subst hline
      exact absurd (hright c List.mem_cons_self) h

theorem isIgnored_trim_iff : isIgnored (trim line) ↔ Silent line := by
  unfold isIgnored
  rw [Bool.or_eq_true, List.isEmpty_iff, beq_iff_eq]
  constructor
  · obtain ⟨left, right, hline, hleft, hright, -, -⟩ := trims_trim line
    rintro (hempty | hcomment)
    · rw [hempty, List.append_nil] at hline
      exact ⟨line, [], by simp, hline ▸ hleft.append hright, .inl rfl⟩
    · obtain ⟨comment, hcomment⟩ := List.head?_eq_some_iff.1 hcomment
      rw [hcomment, List.append_assoc, List.cons_append] at hline
      exact ⟨left, _, hline, hleft, .inr ⟨_, rfl⟩⟩
  · rintro ⟨blanks, rest, rfl, hblanks, rfl | ⟨comment, rfl⟩⟩
    · left
      rw [trim_append_left hblanks]
      rfl
    · right
      rw [trim_append_left hblanks]
      exact head?_trim (by decide) comment

instance : DecidablePred Silent :=
  fun _ => decidable_of_iff _ isIgnored_trim_iff

theorem split?_eq_none_iff : split? line = none ↔ '=' ∉ line := by
  induction line with
  | nil => simp [split?]
  | cons c line ih =>
    rw [split?, List.mem_cons, not_or]
    split
    · next h => simp [h]
    · next h => simp [ih, Ne.symm h]

theorem split?_eq_some_iff :
    split? line = some (left, right) ↔ line = left ++ '=' :: right ∧ '=' ∉ left := by
  induction line generalizing left with
  | nil => simp [split?]
  | cons c line ih =>
    rw [split?]
    split
    · next hc =>
      subst hc
      cases left with
      | nil => simp [eq_comm]
      | cons d left => simp +contextual [eq_comm]
    · next hc =>
      rw [Option.map_eq_some_iff]
      constructor
      · rintro ⟨⟨front, rest⟩, hsplit, heq⟩
        cases heq
        obtain ⟨rfl, hfront⟩ := ih.1 hsplit
        exact ⟨rfl, by simp [Ne.symm hc, hfront]⟩
      · rintro ⟨hline, hleft⟩
        cases left with
        | nil =>
          cases hline
          exact absurd rfl hc
        | cons d left =>
          cases hline
          rw [List.mem_cons, not_or] at hleft
          exact ⟨(left, right), ih.2 ⟨rfl, hleft.2⟩, rfl⟩

theorem split?_trim_eq_none_iff : split? (trim line) = none ↔ '=' ∉ line := by
  obtain ⟨left, right, hline, hleft, hright, -, -⟩ := trims_trim line
  rw [split?_eq_none_iff]
  constructor
  · intro h
    rw [hline]
    simp [h, hleft.not_mem_equals, hright.not_mem_equals]
  · intro h hmem
    apply h
    rw [hline]
    simp [hmem]

theorem parts_iff :
    (∃ left right, split? (trim line) = some (left, right) ∧
      trim left = name ∧ trim right = value) ↔ Parts line name value := by
  obtain ⟨before, after, hline, hbefore, hafter, -, -⟩ := trims_trim line
  constructor
  · rintro ⟨left, right, hsplit, rfl, rfl⟩
    obtain ⟨htrim, hleft⟩ := split?_eq_some_iff.1 hsplit
    refine ⟨before ++ left, right ++ after, ?_, ?_, ?_, ?_⟩
    · rw [hline, htrim]
      simp
    · rw [List.mem_append, not_or]
      exact ⟨hbefore.not_mem_equals, hleft⟩
    · rw [← trim_eq_iff, trim_append_left hbefore]
    · rw [← trim_eq_iff, trim_append_right right hafter]
  · rintro ⟨left, right, hparts, hleft, hname, hvalue⟩
    cases hsplit : split? (trim line) with
    | none =>
      rw [split?_trim_eq_none_iff, hparts] at hsplit
      simp at hsplit
    | some pair =>
      obtain ⟨left', right'⟩ := pair
      obtain ⟨htrim, hleft'⟩ := split?_eq_some_iff.1 hsplit
      -- there is only one first equals sign
      have hsame : some (left, right) = some (before ++ left', right' ++ after) := by
        rw [← split?_eq_some_iff.2 ⟨hparts, hleft⟩, split?_eq_some_iff]
        refine ⟨?_, ?_⟩
        · rw [hline, htrim]
          simp
        · rw [List.mem_append, not_or]
          exact ⟨hbefore.not_mem_equals, hleft'⟩
      cases hsame
      refine ⟨left', right', rfl, ?_, ?_⟩
      · rw [← trim_append_left hbefore]
        exact trim_eq_iff.2 hname
      · rw [← trim_append_right right' hafter]
        exact trim_eq_iff.2 hvalue

theorem exists_parts (h : '=' ∈ line) : ∃ name value, Parts line name value := by
  cases hsplit : split? (trim line) with
  | none => exact absurd h (split?_trim_eq_none_iff.1 hsplit)
  | some pair => exact ⟨_, _, parts_iff.1 ⟨pair.1, pair.2, hsplit, rfl, rfl⟩⟩

end VersionFile

end ClearSign
