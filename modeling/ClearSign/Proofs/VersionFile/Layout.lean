import ClearSign.Proofs.VersionFile.Reading

/-!
This module contains how a text is cut into lines, and the proof that blank lines, comments and the
kind of line end make no difference to the definitions of a version file. Where a line breaks a
rule, the first such line is reported.
-/

namespace ClearSign

namespace VersionFile

/--
The text is made up of lines, each with its end. The end of the last one may be missing.
-/
inductive LaidOut : List (List Char) → List Char → Prop where
  | nil : LaidOut [] []
  | last (line : List Char) : line ≠ [] → '\n' ∉ line → LaidOut [line] line
  | line (line stop : List Char) (lines : List (List Char)) (text : List Char) : '\n' ∉ line →
      stop = ['\n'] ∨ stop = ['\r', '\n'] → LaidOut lines text →
      LaidOut (line :: lines) (line ++ stop ++ text)

theorem lines_of_first (h : c ≠ '\n') (htext : lines text = []) : lines (c :: text) = [[c]] := by
  rw [lines, if_neg h, htext]

theorem lines_of_more (h : c ≠ '\n') (htext : lines text = line :: others) :
    lines (c :: text) = (c :: line) :: others := by
  rw [lines, if_neg h, htext]

theorem lines_of_stop (h : '\n' ∉ line) (text : List Char) :
    lines (line ++ '\n' :: text) = line :: lines text := by
  induction line with
  | nil => rfl
  | cons c line ih =>
    rw [List.mem_cons, not_or] at h
    exact lines_of_more (Ne.symm h.1) (ih h.2)

theorem lines_of_last (hne : line ≠ []) (h : '\n' ∉ line) : lines line = [line] := by
  induction line with
  | nil => contradiction
  | cons c line ih =>
    rw [List.mem_cons, not_or] at h
    cases line with
    | nil => exact lines_of_first (Ne.symm h.1) rfl
    | cons d line => exact lines_of_more (Ne.symm h.1) (ih (by simp) h.2)

theorem map_trim_lines (h : LaidOut layout text) : (lines text).map trim = layout.map trim := by
  induction h with
  | nil => rfl
  | last line hne hline => rw [lines_of_last hne hline]
  | line line stop layout text hline hstop _ ih =>
    rw [List.append_assoc]
    rcases hstop with rfl | rfl
    · rw [List.singleton_append, lines_of_stop hline, List.map_cons, List.map_cons, ih]
    · have hreturn : Blank ['\r'] := by simp [Blank, isSpace]
      have hline' : '\n' ∉ line ++ ['\r'] := by simp [hline]
      have htext : line ++ (['\r', '\n'] ++ text) = (line ++ ['\r']) ++ '\n' :: text := by simp
      rw [htext, lines_of_stop hline', List.map_cons, List.map_cons, ih,
        trim_append_right line hreturn]

theorem laidOut_lines (text : List Char) : LaidOut (lines text) text := by
  induction text with
  | nil => exact .nil
  | cons c text ih =>
    by_cases hc : c = '\n'
    · subst hc
      exact .line [] ['\n'] _ _ List.not_mem_nil (.inl rfl) ih
    · generalize hlines : lines text = layout at ih
      cases ih with
      | nil =>
        rw [lines_of_first hc hlines]
        exact .last [c] (by simp) (by simpa using Ne.symm hc)
      | last _ hne hline =>
        rw [lines_of_more hc hlines]
        exact .last (c :: text) (by simp) (by simp [Ne.symm hc, hline])
      | line line stop lines text hline hstop hrest =>
        rw [lines_of_more hc hlines]
        exact .line (c :: line) stop lines text (by simp [Ne.symm hc, hline]) hstop hrest

theorem readLines_congr {first second : List (List Char)} (h : first.map trim = second.map trim) :
    readLines n before first = readLines n before second := by
  induction first generalizing n before second with
  | nil =>
    rw [List.map_nil, eq_comm, List.map_eq_nil_iff] at h
    rw [h]
  | cons line first ih =>
    cases second with
    | nil => contradiction
    | cons other second =>
      rw [List.map_cons, List.map_cons, List.cons.injEq] at h
      have hline : readLines n before [line] = readLines n before [other] := by
        simp only [readLines, h.1]
      rw [readLines_cons, readLines_cons n before other, hline]
      congr 1
      funext before
      exact ih h.2

theorem accepts_congr {first second : List (List Char)} (h : audible first = audible second) :
    Accepts first definitions ↔ Accepts second definitions := by
  constructor
  · rintro ⟨hdefines, hunique⟩
    exact ⟨h ▸ hdefines, hunique⟩
  · rintro ⟨hdefines, hunique⟩
    exact ⟨h ▸ hdefines, hunique⟩

theorem read_eq_readLines (h : LaidOut layout text) : read text = readLines 1 [] layout :=
  readLines_congr (map_trim_lines h)

theorem version_files_are_read_exactly :
    (∀ text, ∃ lines, LaidOut lines text) ∧
    ∀ lines text, LaidOut lines text →
      (∀ definitions, read text = .ok definitions ↔ Accepts lines definitions) ∧
      (∀ error, read text = .error error ↔ Faults lines error) ∧
      (∀ lines' text', LaidOut lines' text' → audible lines' = audible lines →
        (read text').toOption = (read text).toOption) := by
  refine ⟨fun text => ⟨lines text, laidOut_lines text⟩, ?_⟩
  intro layout text hlayout
  rw [read_eq_readLines hlayout]
  refine ⟨fun definitions => readLines_eq_ok_iff, fun error => readLines_eq_error_iff, ?_⟩
  intro layout' text' hlayout' haudible
  rw [read_eq_readLines hlayout']
  apply Option.ext
  intro definitions
  rw [toOption_eq_some_iff, toOption_eq_some_iff, readLines_eq_ok_iff, readLines_eq_ok_iff,
    accepts_congr haudible]

theorem version_files_are_read_exactly_minor :
    let first := "MAJOR = +007".toList
    let second := "MINOR=255 ".toList
    let definitions : List Definition := [⟨"MAJOR".toList, 7⟩, ⟨"MINOR".toList, 255⟩]
    let windows := "# v".toList ++ ['\r', '\n'] ++ (first ++ ['\r', '\n'] ++ second)
    let unix := first ++ ['\n'] ++ (second ++ ['\n'] ++ " \t# end".toList)
    let broken := "A=1\n#\nA=x\nB\n".toList
    LaidOut ["# v".toList, first, second] windows ∧
      LaidOut [first, second, " \t# end".toList] unix ∧
      read windows = .ok definitions ∧
      Accepts ["# v".toList, first, second] definitions ∧
      (read unix).toOption = some definitions ∧
      LaidOut (lines broken) broken ∧
      Faults (lines broken) (.badValue 3 .invalidDigit) := by
  intro first second definitions windows unix broken
  obtain ⟨-, hexact⟩ := version_files_are_read_exactly
  have hwindows : LaidOut ["# v".toList, first, second] windows := by
    apply LaidOut.line _ _ _ _ (by decide) (.inr rfl)
    apply LaidOut.line _ _ _ _ (by decide) (.inr rfl)
    exact .last _ (by decide) (by decide)
  have hunix : LaidOut [first, second, " \t# end".toList] unix := by
    apply LaidOut.line _ _ _ _ (by decide) (.inl rfl)
    apply LaidOut.line _ _ _ _ (by decide) (.inl rfl)
    exact .last _ (by decide) (by decide)
  have hread : read windows = .ok definitions := by decide
  obtain ⟨haccepts, -, hsame⟩ := hexact _ _ hwindows
  obtain ⟨-, hfaults, -⟩ := hexact _ _ (laidOut_lines broken)
  refine ⟨hwindows, hunix, hread, (haccepts definitions).1 hread, ?_, laidOut_lines broken, ?_⟩
  · rw [hsame _ _ hunix (by decide), hread]
    rfl
  · rw [← hfaults]
    decide

end VersionFile

end ClearSign
