import VisualBasic.Proofs.Diagnostic.Reported
import VisualBasic.Proofs.Text.Position

/-!
# Diagnostics located at any offset

A diagnostic may be located at an offset that no token starts at. The line that it quotes is the
line of its location, except inside a CR LF: such an offset belongs to the line that the CR LF ends,
while the text around it, cut at the nearest break characters, is empty.
-/

set_option autoImplicit false

namespace VisualBasic

variable {source before after rest : List Char}

/-! ## Inside a CR LF -/

theorem exists_of_not_undivided (h : ¬ Undivided before after) :
    ∃ earlier later, before = earlier ++ ['\r'] ∧ after = '\n' :: later := by
  simp only [Undivided, Classical.not_imp, not_not] at h
  obtain ⟨earlier, hbefore⟩ := List.getLast?_eq_some_iff.mp h.1
  obtain ⟨later, hafter⟩ := List.head?_eq_some_iff.mp h.2
  exact ⟨earlier, later, hbefore, hafter⟩

theorem undivided_return (before rest : List Char) : Undivided before ('\r' :: rest) := by
  intro _ hhead
  exact absurd (Option.some.inj hhead) (by decide)

/-- The CR counts as a character of the line. -/
theorem ofOffset_divided (before rest : List Char) :
    Position.ofOffset (before ++ '\r' :: '\n' :: rest) (byteLength before + 1) =
      ⟨lineBreaks before + 1, (lastLine before).length + 2⟩ := by
  have hbefore := ofOffset_undivided (undivided_return before ('\n' :: rest))
  rw [Position.ofOffset] at hbefore
  rw [Position.ofOffset, advance_add, hbefore]
  cases rest <;> rfl

theorem lineAround_divided (before rest : List Char) :
    lineAround (before ++ ['\r']) ('\n' :: rest) = [] := by
  simp [lineAround, isBreak]

theorem lines_divided (before rest : List Char) :
    (lines (before ++ '\r' :: '\n' :: rest))[lineBreaks before]? = some (lastLine before) := by
  rw [getElem?_lines (undivided_return before _)]
  simp [lineAround, lastLine, isBreak]

theorem eq_append_of_splitBytes {offset : Nat} (h : splitBytes offset source = (before, after)) :
    source = before ++ after := by
  rw [← splitBytes_append offset source, h]

namespace Diagnostic

/-- What a diagnostic says about its place, for the texts before and after the place and the line
whose number it gives. -/
structure LiesOn (diagnostic : Diagnostic) (before after line : List Char) : Prop where
  offset : diagnostic.offset = byteLength before
  number : 1 ≤ diagnostic.location.line
  column : 1 ≤ diagnostic.location.column
  isLine : (lines (before ++ after))[diagnostic.location.line - 1]? = some line
  undivided (h : Undivided before after) : diagnostic.sourceLine = some (String.ofList line) ∧
    diagnostic.location.column - 1 ≤ line.length
  divided (h : ¬ Undivided before after) : diagnostic.sourceLine = some "" ∧
    diagnostic.location.column - 1 = line.length + 1

theorem locate_of_split (diagnostic : Diagnostic) {source : String}
    (h : splitBytes diagnostic.offset source.toList = (before, after)) (width : Nat) :
    diagnostic.locate source width =
      { diagnostic with
        offset := byteLength before
        location := ⟨(Position.ofOffset source.toList (byteLength before)).line,
          (Position.ofOffset source.toList (byteLength before)).column, diagnostic.location.file⟩
        snippet := VisualBasic.snippet after width
        sourceLine := some (String.ofList (lineAround before after)) } := by
  rw [locate, h]

theorem liesOn_of_split (diagnostic : Diagnostic) {source : String}
    (h : splitBytes diagnostic.offset source.toList = (before, after)) (width : Nat) :
    ∃ line, (diagnostic.locate source width).LiesOn before after line := by
  have hsource := eq_append_of_splitBytes h
  rw [locate_of_split diagnostic h]
  by_cases hu : Undivided before after
  · rw [hsource, ofOffset_undivided hu]
    refine ⟨lineAround before after, rfl, Nat.le_add_left _ _, Nat.le_add_left _ _,
      getElem?_lines hu,
      fun _ => ⟨rfl, ?_⟩, fun hnot => absurd hu hnot⟩
    rw [lineAround, List.length_append]
    exact Nat.le_add_right _ _
  · obtain ⟨earlier, later, rfl, rfl⟩ := exists_of_not_undivided hu
    have hplace := ofOffset_divided earlier later
    have hreturn : byteLength (earlier ++ ['\r']) = byteLength earlier + 1 := by
      rw [byteLength_append]
      rfl
    rw [hsource, List.append_assoc, hreturn, List.singleton_append, hplace, lineAround_divided]
    refine ⟨lastLine earlier, hreturn.symm, Nat.le_add_left _ _, Nat.le_add_left _ _, ?_,
      fun hnot => absurd hnot hu, fun _ => ⟨rfl, rfl⟩⟩
    rw [List.append_assoc, List.singleton_append]
    exact lines_divided earlier later

theorem locate_locate (diagnostic : Diagnostic) (source : String) (width width' : Nat) :
    (diagnostic.locate source width).locate source width' = diagnostic.locate source width' := by
  obtain ⟨before, after, h⟩ :
      ∃ before after, splitBytes diagnostic.offset source.toList = (before, after) := ⟨_, _, rfl⟩
  have hsource := eq_append_of_splitBytes h
  have hagain : splitBytes (byteLength before) source.toList = (before, after) := by
    rw [hsource, splitBytes_byteLength]
  rw [locate_of_split diagnostic h, locate_of_split diagnostic h, locate_of_split _ hagain]

/-- Wherever a diagnostic is located, the line of its location is a line of the source. Outside a CR
LF this is the line that it quotes, and its column is on the line or just after it; inside a CR LF
it quotes nothing, and its column is past the CR. Locating it once more adds nothing. -/
theorem locate_liesOn (diagnostic : Diagnostic) (source : String) (width : Nat) :
    (∃ before after line, source.toList = before ++ after ∧
      IsGreatest (boundariesUpTo diagnostic.offset source.toList) (byteLength before) ∧
      (diagnostic.locate source width).LiesOn before after line) ∧
    ∀ width', (diagnostic.locate source width).locate source width' =
      diagnostic.locate source width' := by
  obtain ⟨before, after, h⟩ :
      ∃ before after, splitBytes diagnostic.offset source.toList = (before, after) := ⟨_, _, rfl⟩
  obtain ⟨line, hline⟩ := liesOn_of_split diagnostic h width
  have hoffset := isGreatest_splitBytes diagnostic.offset source.toList
  rw [h] at hoffset
  exact ⟨⟨before, after, line, eq_append_of_splitBytes h, hoffset, hline⟩,
    diagnostic.locate_locate source width⟩

/-- Between the CR and the LF after a line with one character. -/
theorem exists_quotes_other_line :
    ∃ located line, (unlocated .syntaxError "sub" "'End Sub'" 2).locate "a\r\nb" 40 = located ∧
      (lines "a\r\nb".toList)[located.location.line - 1]? = some line ∧
      located.sourceLine ≠ some (String.ofList line) := by
  refine ⟨_, ['a'], rfl, ?_, ?_⟩
  · decide
  · decide

end Diagnostic

end VisualBasic
