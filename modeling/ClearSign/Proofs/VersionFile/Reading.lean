import ClearSign.Proofs.Outcome
import ClearSign.Proofs.Relation
import ClearSign.Proofs.VersionFile.Line
import ClearSign.Proofs.VersionFile.Number
import Mathlib.Data.List.Induction
import Mathlib.Data.List.Nodup

/-!
This module contains the proof that a version file is read exactly: its definitions, or the first
line that breaks a rule.
-/

namespace ClearSign

namespace VersionFile

structure Defines (line : List Char) (definition : Definition) : Prop where
  audible : ¬Silent line
  parts : ∃ value, Parts line definition.name value ∧ Numeral value definition.value

inductive Breaks (before : List Definition) (n : Nat) (line : List Char) : Error → Prop where
  | noEquals (text : List Char) : ¬Silent line → '=' ∉ line → Trims line text →
      Breaks before n line (.noEquals n text)
  | badValue (name value : List Char) (reason : NumberError) : ¬Silent line →
      Parts line name value → Refused value reason → Breaks before n line (.badValue n reason)
  | duplicate (definition : Definition) : Defines line definition →
      definition.name ∈ before.map Definition.name →
      Breaks before n line (.duplicate definition.name)

def audible (lines : List (List Char)) : List (List Char) :=
  lines.filter (¬Silent ·)

structure Accepts (lines : List (List Char)) (definitions : List Definition) : Prop where
  defines : List.Forall₂ Defines (audible lines) definitions
  unique : (definitions.map Definition.name).Nodup

def Faults (lines : List (List Char)) (error : Error) : Prop :=
  ∃ first line rest before, lines = first ++ line :: rest ∧ Accepts first before ∧
    Breaks before (first.length + 1) line error

inductive Takes (before : List Definition) (n : Nat) (line : List Char) :
    Except Error (List Definition) → Prop where
  | silent : Silent line → Takes before n line (.ok before)
  | defined (definition : Definition) : Defines line definition →
      definition.name ∉ before.map Definition.name →
      Takes before n line (.ok (before ++ [definition]))
  | broken (error : Error) : Breaks before n line error → Takes before n line (.error error)

theorem readLines_of_silent (n : Nat) (before : List Definition) (h : Silent line) :
    readLines n before [line] = .ok before := by
  simp only [readLines, if_pos (isIgnored_trim_iff.2 h)]

section

variable (n : Nat) (before : List Definition) (haudible : ¬Silent line)

include haudible

theorem readLines_of_not_mem (h : '=' ∉ line) :
    readLines n before [line] = .error (.noEquals n (trim line)) := by
  rw [← isIgnored_trim_iff] at haudible
  simp only [readLines, if_neg haudible, split?_trim_eq_none_iff.2 h]

variable (h : Parts line name value)

include h

theorem readLines_of_refused (hrefused : Refused value reason) :
    readLines n before [line] = .error (.badValue n reason) := by
  obtain ⟨left, right, hsplit, rfl, rfl⟩ := parts_iff.2 h
  rw [← isIgnored_trim_iff] at haudible
  simp only [readLines, if_neg haudible, hsplit, number_eq_error_iff.2 hrefused]

theorem readLines_of_numeral (hnumeral : Numeral value found) :
    readLines n before [line] =
      if name ∈ before.map Definition.name then .error (.duplicate name)
      else .ok (before ++ [{ name, value := found }]) := by
  obtain ⟨left, right, hsplit, rfl, rfl⟩ := parts_iff.2 h
  rw [← isIgnored_trim_iff] at haudible
  simp only [readLines, if_neg haudible, hsplit, number_eq_ok_iff.2 hnumeral]
  simp [List.any_eq_true, List.mem_map]

end

theorem takes (before : List Definition) (n : Nat) (line : List Char) :
    Takes before n line (readLines n before [line]) := by
  by_cases hsilent : Silent line
  · rw [readLines_of_silent n before hsilent]
    exact .silent hsilent
  · by_cases hmem : '=' ∈ line
    · obtain ⟨name, value, hparts⟩ := exists_parts hmem
      cases hnumber : number value with
      | error reason =>
        have hrefused := number_eq_error_iff.1 hnumber
        rw [readLines_of_refused n before hsilent hparts hrefused]
        exact .broken _ (.badValue name value reason hsilent hparts hrefused)
      | ok found =>
        have hnumeral := number_eq_ok_iff.1 hnumber
        have hdefines : Defines line { name, value := found } := ⟨hsilent, value, hparts, hnumeral⟩
        rw [readLines_of_numeral n before hsilent hparts hnumeral]
        split
        · next hname => exact .broken _ (.duplicate _ hdefines hname)
        · next hname => exact .defined _ hdefines hname
    · rw [readLines_of_not_mem n before hsilent hmem]
      exact .broken _ (.noEquals _ hsilent hmem (trims_trim line))

theorem readLines_of_takes (h : Takes before n line outcome) :
    readLines n before [line] = outcome := by
  cases h with
  | silent hsilent => exact readLines_of_silent n before hsilent
  | defined definition hdefines hname =>
    obtain ⟨haudible, value, hparts, hnumeral⟩ := hdefines
    rw [readLines_of_numeral n before haudible hparts hnumeral]
    exact if_neg hname
  | broken error hbreaks =>
    cases hbreaks with
    | noEquals text haudible hmem htrims =>
      rw [readLines_of_not_mem n before haudible hmem, trim_eq_iff.2 htrims]
    | badValue name value reason haudible hparts hrefused =>
      exact readLines_of_refused n before haudible hparts hrefused
    | duplicate definition hdefines hname =>
      obtain ⟨haudible, value, hparts, hnumeral⟩ := hdefines
      rw [readLines_of_numeral n before haudible hparts hnumeral]
      exact if_pos hname

theorem takes_iff : readLines n before [line] = outcome ↔ Takes before n line outcome := by
  constructor
  · rintro rfl
    exact takes before n line
  · exact readLines_of_takes

theorem takes_error_iff : Takes before n line (.error error) ↔ Breaks before n line error := by
  constructor
  · rintro ⟨⟩
    assumption
  · exact .broken error

theorem readLines_cons (n : Nat) (before : List Definition) (line : List Char)
    (rest : List (List Char)) :
    readLines n before (line :: rest) =
      readLines n before [line] >>= fun before => readLines (n + 1) before rest := by
  simp only [readLines]
  split
  · rfl
  · split
    · rfl
    · split
      · rfl
      · split
        · rfl
        · rfl

theorem readLines_append (n : Nat) (before : List Definition) (first second : List (List Char)) :
    readLines n before (first ++ second) =
      readLines n before first >>= fun before => readLines (n + first.length) before second := by
  induction first generalizing n before with
  | nil => rfl
  | cons line first ih =>
    rw [List.cons_append, readLines_cons, readLines_cons n before line first, bind_assoc]
    congr 1
    funext before
    rw [ih, List.length_cons, Nat.add_right_comm, Nat.add_assoc]

section

variable {lines : List (List Char)}

theorem audible_concat_of_silent (lines : List (List Char)) (h : Silent line) :
    audible (lines ++ [line]) = audible lines := by
  simp [audible, h]

theorem audible_concat_of_not_silent (lines : List (List Char)) (h : ¬Silent line) :
    audible (lines ++ [line]) = audible lines ++ [line] := by
  simp [audible, h]

theorem nodup_concat_iff {before : List Definition} :
    ((before ++ [definition]).map Definition.name).Nodup ↔
      (before.map Definition.name).Nodup ∧ definition.name ∉ before.map Definition.name := by
  rw [List.map_append, List.map_singleton, ← List.concat_eq_append, List.nodup_concat, and_comm]

theorem accepts_concat_iff (n : Nat) :
    Accepts (lines ++ [line]) definitions ↔
      ∃ before, Accepts lines before ∧ Takes before n line (.ok definitions) := by
  constructor
  · rintro ⟨hdefines, hunique⟩
    by_cases hsilent : Silent line
    · rw [audible_concat_of_silent lines hsilent] at hdefines
      exact ⟨definitions, ⟨hdefines, hunique⟩, .silent hsilent⟩
    · rw [audible_concat_of_not_silent lines hsilent, forall₂_concat_iff] at hdefines
      obtain ⟨before, definition, rfl, hdefines, hlast⟩ := hdefines
      obtain ⟨hunique, hname⟩ := nodup_concat_iff.1 hunique
      exact ⟨before, ⟨hdefines, hunique⟩, .defined definition hlast hname⟩
  · rintro ⟨before, ⟨hdefines, hunique⟩, htakes⟩
    cases htakes with
    | silent hsilent =>
      refine ⟨?_, hunique⟩
      rw [audible_concat_of_silent lines hsilent]
      exact hdefines
    | defined definition hlast hname =>
      refine ⟨?_, nodup_concat_iff.2 ⟨hunique, hname⟩⟩
      rw [audible_concat_of_not_silent lines hlast.audible, forall₂_concat_iff]
      exact ⟨before, definition, rfl, hdefines, hlast⟩

theorem faults_concat_iff :
    Faults (lines ++ [line]) error ↔
      Faults lines error ∨
        ∃ before, Accepts lines before ∧ Breaks before (lines.length + 1) line error := by
  constructor
  · rintro ⟨first, broken, rest, before, hsplit, haccepts, hbreaks⟩
    rcases List.eq_nil_or_concat rest with rfl | ⟨rest, last, rfl⟩
    · obtain ⟨rfl, hline⟩ := List.append_inj' hsplit rfl
      cases hline
      exact .inr ⟨before, haccepts, hbreaks⟩
    · rw [List.concat_eq_append, ← List.cons_append, ← List.append_assoc] at hsplit
      obtain ⟨rfl, -⟩ := List.append_inj' hsplit rfl
      exact .inl ⟨first, broken, rest, before, rfl, haccepts, hbreaks⟩
  · rintro (⟨first, broken, rest, before, rfl, haccepts, hbreaks⟩ | ⟨before, haccepts, hbreaks⟩)
    · refine ⟨first, broken, rest ++ [line], before, ?_, haccepts, hbreaks⟩
      rw [List.append_assoc, List.cons_append]
    · exact ⟨lines, line, [], before, rfl, haccepts, hbreaks⟩

theorem readLines_eq_ok_iff :
    readLines 1 [] lines = .ok definitions ↔ Accepts lines definitions := by
  -- line after line at the end, since what a line may define depends on those in front of it
  induction lines using List.reverseRecOn generalizing definitions with
  | nil =>
    rw [readLines, Except.ok.injEq]
    constructor
    · rintro rfl
      exact ⟨.nil, List.nodup_nil⟩
    · rintro ⟨⟨⟩, -⟩
      rfl
  | append_singleton lines line ih =>
    rw [readLines_append, bind_eq_ok, accepts_concat_iff (1 + lines.length)]
    simp only [ih, takes_iff]

theorem readLines_eq_error_iff : readLines 1 [] lines = .error error ↔ Faults lines error := by
  induction lines using List.reverseRecOn with
  | nil => simp [readLines, Faults]
  | append_singleton lines line ih =>
    rw [readLines_append, bind_eq_error, faults_concat_iff, ih]
    simp only [readLines_eq_ok_iff, takes_iff, takes_error_iff, Nat.add_comm 1]

end

end VersionFile

end ClearSign
