import VisualBasic.Diagnostic.Render
import VisualBasic.Proofs.Text.Breaks
import VisualBasic.Session

/-!
# Where the caret stands

The row under the line of the source marks a column of the line by a caret. The line stands after
its number and a bar, the caret after three blanks and a bar. Neither margin takes account of the
other: the number takes three columns or more and a blank follows it, so the line begins one column
further to the right than the place where the caret counts from, and one more for every digit above
three.
-/

set_option autoImplicit false

namespace VisualBasic

/-! ## Rows of a text -/

variable {before row after : List Char}

theorem undivided_of_getLast? (h : before.getLast? = some '\n') : Undivided before after := by
  intro hlast
  rw [h] at hlast
  contradiction

/-- A row that follows a break and ends with one, by the number of breaks before it. -/
theorem getElem?_lines_row (hbefore : before.getLast? = some '\n') (hrow : Unbroken row) :
    (lines (before ++ (row ++ '\n' :: after)))[lineBreaks before]? = some row := by
  have hlast : lastLine before = [] := by
    obtain ⟨before, rfl⟩ := List.getLast?_eq_some_iff.mp hbefore
    rw [lastLine, List.reverse_append]
    rfl
  have htake : (row ++ '\n' :: after).takeWhile (! isBreak ·) = row := by
    rw [List.takeWhile_append_of_pos fun c hc => by rw [hrow c hc]; rfl]
    exact List.append_nil row
  rw [getElem?_lines (undivided_of_getLast? hbefore)]
  exact congrArg some (congrArg₂ (· ++ ·) hlast htake)

theorem lineBreaks_append_row (hbefore : before.getLast? = some '\n') (hrow : Unbroken row) :
    lineBreaks (before ++ (row ++ ['\n'])) = lineBreaks before + 1 := by
  have hu : Undivided row ['\n'] := by
    intro hlast
    exact absurd (hrow _ (List.mem_of_getLast? hlast)) (by decide)
  rw [lineBreaks_append (undivided_of_getLast? hbefore), lineBreaks_append hu,
    lineBreaks_eq_zero_iff.mpr hrow, Nat.zero_add]
  rfl

namespace Diagnostic

variable (diagnostic : Diagnostic)

/-- All that is written above the line of the source. -/
def heading : String :=
  diagnostic.kind.text ++ ": " ++
  (diagnostic.context ++ ": expecting " ++ diagnostic.expected) ++ "\n" ++
    ("  --> " ++ diagnostic.location.text) ++ "\n" ++ "   |\n"

/-- What stands before the line of the source in its row. -/
def lineMargin : String := padLeft 3 (toString diagnostic.location.line) ++ " " ++ "|" ++ " "

/-- What stands before the caret in its row. -/
def caretMargin : String := "   " ++ "|" ++ " " ++ blanks (diagnostic.location.column - 1)

/-- All that is written under the caret. -/
def remarks : String :=
  "   |\n" ++
  (diagnostic.help.map fun text => remark .plain .brightYellow ("help: " ++ text)).getD "" ++
    (diagnostic.suggestion.map fun word =>
      remark .plain .brightGreen ("Did you mean '" ++ word ++ "'?")).getD "" ++
    (diagnostic.note.map fun text => remark .plain .brightCyan ("note: " ++ text)).getD ""

/-- The caret stands a number of columns to the left of the column that it marks: the line of the
source is the end of a row of the rendered text, and the caret is in the row below. -/
def CaretLags (lag : Nat) : Prop :=
  ∃ line margin below, diagnostic.sourceLine = some line ∧
    (lines (diagnostic.render .plain).toList)[lineBreaks diagnostic.heading.toList]? =
      some (margin ++ line.toList) ∧
    (lines (diagnostic.render .plain).toList)[lineBreaks diagnostic.heading.toList + 1]? =
    some below ∧
    below.count '^' = 1 ∧
    below.idxOf '^' + lag = margin.length + (diagnostic.location.column - 1)

theorem length_lineMargin :
    diagnostic.lineMargin.toList.length = max 3 (toString diagnostic.location.line).length + 3 := by
  have hmargin : (" " ++ "|" ++ " ").toList.length = 3 := rfl
  simp only [lineMargin, padLeft, String.toList_append, String.toList_ofList, List.length_append,
    List.length_replicate, String.length_toList] at hmargin ⊢
  omega

theorem length_caretMargin :
    diagnostic.caretMargin.toList.length = 5 + (diagnostic.location.column - 1) := by
  rw [caretMargin, blanks, String.toList_append, String.toList_ofList, List.length_append,
    List.length_replicate]
  rfl

theorem unbroken_lineMargin : Unbroken diagnostic.lineMargin.toList := by
  simp only [lineMargin, padLeft, String.toList_append, String.toList_ofList]
  have hblank : isBreak ' ' = false := rfl
  refine Unbroken.append (Unbroken.append (Unbroken.append ?_ ?_) ?_) ?_
  · exact (unbroken_replicate hblank _).append (unbroken_toString _)
  all_goals exact unbroken_of_all rfl

theorem unbroken_caretMargin : Unbroken diagnostic.caretMargin.toList := by
  rw [caretMargin, blanks, String.toList_append, String.toList_ofList]
  exact Unbroken.append (unbroken_of_all rfl) (unbroken_replicate rfl _)

theorem caret_notMem_caretMargin : '^' ∉ diagnostic.caretMargin.toList := by
  rw [caretMargin, blanks, String.toList_append, String.toList_ofList, List.mem_append]
  rintro (h | h)
  · revert h
    decide
  · exact absurd (List.eq_of_mem_replicate h) (by decide)

theorem getLast?_heading : diagnostic.heading.toList.getLast? = some '\n' := by
  rw [heading, String.toList_append, List.getLast?_append]
  rfl

variable {diagnostic} {line : String}

theorem render_eq (h : diagnostic.sourceLine = some line) :
    diagnostic.render .plain = diagnostic.heading ++ (diagnostic.lineMargin ++ line ++ ("\n" ++
      (diagnostic.caretMargin ++ "^" ++ ("\n" ++ diagnostic.remarks)))) := by
  have hbar : "   " ++ ("|" ++ "\n") = "   |\n" := rfl
  unfold render heading lineMargin caretMargin remarks excerpt
  rw [h]
  simp only [← hbar, Palette.paint_plain, Option.map_some, Option.getD_some, String.append_assoc]

theorem CaretLags.unique {lag other : Nat} (h : diagnostic.CaretLags lag)
    (h' : diagnostic.CaretLags other) : lag = other := by
  obtain ⟨line, margin, below, hline, hrow, hbelow, _, hlag⟩ := h
  obtain ⟨line', margin', below', hline', hrow', hbelow', _, hlag'⟩ := h'
  cases hline.symm.trans hline'
  cases hbelow.symm.trans hbelow'
  have hmargin : margin = margin' :=
    List.append_cancel_right (Option.some.inj (hrow.symm.trans hrow'))
  rw [hmargin] at hlag
  omega

/-- Under a line without breaks the caret lags by as much as the margins differ. -/
theorem caretLags_of_unbroken (h : diagnostic.sourceLine = some line)
    (hline : Unbroken line.toList) :
    diagnostic.CaretLags (diagnostic.lineMargin.toList.length - 5) := by
  have hrender := congrArg String.toList (render_eq h)
  simp only [String.toList_append] at hrender
  have hrow := diagnostic.unbroken_lineMargin.append hline
  have hbelow : Unbroken (diagnostic.caretMargin.toList ++ ['^']) :=
    diagnostic.unbroken_caretMargin.append (unbroken_of_all rfl)
  have hnot := diagnostic.caret_notMem_caretMargin
  refine ⟨line, diagnostic.lineMargin.toList, diagnostic.caretMargin.toList ++ ['^'],
    h, ?_, ?_, ?_, ?_⟩
  · rw [hrender]
    exact getElem?_lines_row diagnostic.getLast?_heading hrow
  · have hlast : (diagnostic.heading.toList ++
        (diagnostic.lineMargin.toList ++ line.toList ++ ['\n'])).getLast? = some '\n' := by
      rw [← List.append_assoc, List.getLast?_concat]
    have hrows : (lines (_ ++ (_ ++ '\n' :: diagnostic.remarks.toList)))[_]? = _ :=
      getElem?_lines_row hlast hbelow
    rw [lineBreaks_append_row diagnostic.getLast?_heading hrow, List.append_assoc,
      List.append_assoc _ ['\n']] at hrows
    rw [hrender]
    exact hrows
  · rw [List.count_append, List.count_eq_zero_of_not_mem hnot]
    rfl
  · have hcolumn := diagnostic.length_caretMargin
    have hnumber := diagnostic.length_lineMargin
    rw [List.idxOf_append, if_neg hnot, List.idxOf_cons_self]
    omega

/-- Of a diagnostic that shows the line of a source where it lies, the caret stands too far to the
left: by one column for a line whose number has up to three digits, and by one more for each further
digit. -/
theorem caretLags_of_located {source : String} {width : Nat}
    (h : diagnostic.sourceLine = (diagnostic.locate source width).sourceLine) :
    diagnostic.CaretLags (max 3 (toString diagnostic.location.line).length - 2) := by
  have hline : Unbroken (String.ofList (lineAround (splitBytes diagnostic.offset source.toList).1
      (splitBytes diagnostic.offset source.toList).2)).toList := by
    rw [String.toList_ofList]
    exact fun c hc => isBreak_eq_false_of_mem_lineAround hc
  have hlag := caretLags_of_unbroken h hline
  rw [length_lineMargin] at hlag
  have hsub : max 3 (toString diagnostic.location.line).length + 3 - 5 =
      max 3 (toString diagnostic.location.line).length - 2 := by omega
  rwa [hsub] at hlag

/-- The caret of a failure at the second character of a line. -/
theorem caretLags_of_located_second :
    ((unlocated .syntaxError "module" "an item" 1).locate "Wend" 40).CaretLags 1 := by
  generalize hlocated : (unlocated .syntaxError "module" "an item" 1).locate "Wend" 40 = diagnostic
  have hplace : diagnostic.location.line = 1 ∧
      diagnostic.sourceLine = (diagnostic.locate "Wend" 40).sourceLine := by
    rw [← hlocated]
    decide +kernel
  have h := caretLags_of_located hplace.2
  rw [hplace.1] at h
  exact h

/-- The diagnostic of a source whose first word opens nothing. -/
theorem exists_not_caretLags_zero :
    ∃ diagnostic, parseModule "Wend" Settings.standard = .error diagnostic ∧
      diagnostic.sourceLine = (diagnostic.locate "Wend" 40).sourceLine ∧
      ¬ diagnostic.CaretLags 0 := by
  have hparsed : (match parseModule "Wend" Settings.standard with
      | .error diagnostic => decide (diagnostic.sourceLine = some "Wend" ∧
          diagnostic.sourceLine = (diagnostic.locate "Wend" 40).sourceLine)
      | .ok _ => false) = true := by
    decide +kernel
  cases hp : parseModule "Wend" Settings.standard with
  | ok tree =>
    rw [hp] at hparsed
    contradiction
  | error diagnostic =>
    rw [hp] at hparsed
    obtain ⟨hline, hlocated⟩ := of_decide_eq_true hparsed
    refine ⟨diagnostic, rfl, hlocated, fun h => ?_⟩
    have hlag := h.unique (caretLags_of_unbroken hline (unbroken_of_all rfl))
    rw [length_lineMargin] at hlag
    omega

end Diagnostic

end VisualBasic
