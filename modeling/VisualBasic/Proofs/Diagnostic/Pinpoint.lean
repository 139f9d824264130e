import VisualBasic.Proofs.Correspondence.Breaks
import VisualBasic.Proofs.Correspondence.Joining
import VisualBasic.Proofs.Diagnostic.Reported

/-!
# Where failures are reported

Parsing a module gives a tree or a diagnostic, and the diagnostic is the only one reported. It lies
where a token should have started, and its line, its column and the texts it quotes are those of
that place. What ends the lines of the source makes no difference to it.
-/

set_option autoImplicit false

namespace VisualBasic

open Cursor (between)

/-- All that a diagnostic says about its place in a source, given the texts before and after it. -/
structure Diagnostic.Pinpoints (diagnostic : Diagnostic) (source : List Char) (settings : Settings)
    (before after : List Char) : Prop where
  cut : source = before ++ after
  offset : diagnostic.offset = byteLength before
  bound : diagnostic.offset ≤ byteLength source
  /-- The place is not inside a CR LF. -/
  undivided : Undivided before after
  /-- No blanks are passed over from the place. -/
  token : (Cursor.ofOffset source diagnostic.offset).skipBlanks =
    Cursor.ofOffset source diagnostic.offset
  location : diagnostic.location =
    ⟨lineBreaks before + 1, (lastLine before).length + 1, settings.file⟩
  line : ∃ line, (lines source)[diagnostic.location.line - 1]? = some line ∧
    diagnostic.sourceLine = some (String.ofList line) ∧
      diagnostic.location.column - 1 ≤ line.length
  ending (h : after = []) : diagnostic.snippet = "<end of input>"
  excerpt (h : after ≠ []) : diagnostic.snippet =
    String.ofList ((after.take settings.snippetWidth).flatMap visible ++
      if settings.snippetWidth < after.length then ['.', '.', '.'] else [])

theorem Failure.pinpoints {source : String} {failure : Failure} {d : Cursor}
    (h : Unified source.toList failure.place d)
    (htoken : failure.place.skipBlanks = failure.place) (settings : Settings) :
    ∃ before after, (failure.reported source settings).Pinpoints source.toList settings
      before after := by
  generalize hplace : failure.place = place at h htoken
  obtain @⟨before, after, hs, hu⟩ := h
  have hreported := Failure.reported_between hs hu hplace settings
  refine ⟨before, after, ?_⟩
  rw [hreported]
  have hline := getElem?_lines hu
  refine ⟨hs, rfl, by simp [hs], hu, ?_, rfl, ?_, ?_, ?_⟩
  · rw [hs, Cursor.ofOffset_append]
    exact htoken
  · refine ⟨lineAround before after, by rw [hs]; exact hline, rfl, ?_⟩
    have hlast : lineAround before after = lastLine before ++ after.takeWhile (! isBreak ·) := rfl
    simp [hlast]
  · rintro rfl
    rfl
  · intro hne
    have hempty : after.isEmpty = false := by simpa using hne
    simp only [snippet, hempty, Bool.false_eq_true, if_false]
    split <;> simp

/-- A module is parsed without a diagnostic, or fails with the one diagnostic that is reported; that
one is of a syntax error and says where it lies. -/
theorem parseModule_reports_once (source : String) (settings : Settings) :
    (∃ tree, parseModule source settings = .ok tree ∧
      ((Session.start source settings).run .module).1 = .matched tree.toJson ∧
        ((Session.start source settings).run .module).2.report.diagnostics = []) ∨
    ∃ diagnostic, parseModule source settings = .error diagnostic ∧
      ((Session.start source settings).run .module).1 = .failed diagnostic ∧
      ((Session.start source settings).run .module).2.report.diagnostics = [diagnostic] ∧
      diagnostic.kind = .syntaxError ∧
      ∃ before after, diagnostic.Pinpoints source.toList settings before after := by
  have hfollows := Grammar.module_unifyBreaks source.toList
  cases hm : Grammar.module [] (Cursor.start source.toList) with
  | unmatched => exact absurd hm (Grammar.module_ne_unmatched _ _)
  | matched tree d =>
    obtain ⟨hstep, hreport⟩ := run_module_of_matched hm settings
    exact .inl ⟨tree, parseModule_of_matched hm, hstep, hreport⟩
  | failed failure =>
    rw [hm] at hfollows
    obtain ⟨other, _, halike⟩ := hfollows.of_failed trivial
    obtain ⟨hstep, hreport⟩ := run_module_of_failed hm settings
    obtain ⟨before, after, hpinpoints⟩ := Failure.pinpoints halike.place.1 halike.token.1 settings
    refine .inr ⟨_, parseModule_of_failed hm, hstep, hreport, ?_, before, after, hpinpoints⟩
    exact Failure.reported_kind _ _ _

/-! ## The same source with other line breaks -/

/-- A diagnostic but for its offset and the text that it quotes from there. -/
def Diagnostic.withoutExcerpt (diagnostic : Diagnostic) : Diagnostic :=
  { diagnostic with offset := 0, snippet := "" }

theorem Help.relabel_erase (help : Help) : help.relabel .erase = help := by
  cases help <;> simp [Help.relabel, Relabel.text, Relabel.erase]

theorem Failure.reported_unifyBreaks {source : String} {failure other : Failure}
    (h : (Correspondence.breaks source.toList).Alike failure other) (settings : Settings) :
    (failure.reported source settings).withoutExcerpt =
      (other.reported (String.ofList (unifyBreaks source.toList)) settings).withoutExcerpt := by
  have hmeets : Unified source.toList failure.place other.place := h.place.1
  have hnote : failure.note = other.note := by
    have haligned : (Alignment.breaks source.toList).meets failure.place other.place := hmeets
    rw [Failure.note, Failure.note, Alignment.isAtOperator haligned h.token.1 h.token.2]
  have hhelp : failure.help = other.help := by
    have hrelabel := h.help
    have hsame : Help.relabel .erase = id := funext Help.relabel_erase
    simpa [Correspondence.breaks, Correspondence.aligned, Lexicon.aligned, Alignment.pairing, hsame]
      using hrelabel
  generalize hplace : failure.place = place at hmeets
  generalize hother : other.place = place' at hmeets
  obtain @⟨before, after, hs, hu⟩ := hmeets
  have hunified : (String.ofList (unifyBreaks source.toList)).toList =
      unifyBreaks before ++ unifyBreaks after := by
    rw [String.toList_ofList, hs, unifyBreaks_append hu]
  have hline : ∀ c, isBreak c = true → (! isBreak c) = false := fun c hc => by rw [hc]; rfl
  have hlineAround (before after : List Char) : lineAround before after =
      lastLine before ++ after.takeWhile (! isBreak ·) := rfl
  rw [Failure.reported_between hs hu hplace,
    Failure.reported_between hunified (undivided_unifyBreaks before _) hother, hnote, hhelp,
    h.construct, h.expected, h.suggestion, hlineAround, hlineAround, lineBreaks_unifyBreaks,
    lastLine_unifyBreaks, takeWhile_unifyBreaks hline]
  rfl

/-- What ends the lines makes no difference. Once every break is LF, the source is parsed to the
same tree up to spans, or fails with the same diagnostic but for its offset and the text quoted from
there. -/
theorem parseModule_unifyBreaks (source : String) (settings : Settings) :
    (∃ tree other, parseModule source settings = .ok tree ∧
      parseModule (String.ofList (unifyBreaks source.toList)) settings = .ok other ∧
        tree.relabel .erase = other.relabel .erase) ∨
    ∃ diagnostic other, parseModule source settings = .error diagnostic ∧
      parseModule (String.ofList (unifyBreaks source.toList)) settings = .error other ∧
        diagnostic.withoutExcerpt = other.withoutExcerpt := by
  have hfollows := Grammar.module_unifyBreaks source.toList
  have hstart : Cursor.start (unifyBreaks source.toList) =
      Cursor.start (String.ofList (unifyBreaks source.toList)).toList := by
        rw [String.toList_ofList]
  cases hm : Grammar.module [] (Cursor.start source.toList) with
  | unmatched => exact absurd hm (Grammar.module_ne_unmatched _ _)
  | matched tree d =>
    rw [hm] at hfollows
    obtain ⟨other, d', hother, hvalue, _⟩ := hfollows.of_matched Pairing.not_strays_sure
    rw [hstart] at hother
    exact .inl ⟨tree, other, parseModule_of_matched hm, parseModule_of_matched hother, hvalue⟩
  | failed failure =>
    rw [hm] at hfollows
    obtain ⟨other, hother, halike⟩ := hfollows.of_failed trivial
    rw [hstart] at hother
    exact .inr ⟨_, _, parseModule_of_failed hm, parseModule_of_failed hother,
      Failure.reported_unifyBreaks halike settings⟩

end VisualBasic
