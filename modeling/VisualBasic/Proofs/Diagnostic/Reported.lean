import VisualBasic.Proofs.Cursor.Place
import VisualBasic.Proofs.Routine.Agreement
import VisualBasic.Proofs.Text.Breaks

/-!
# Reported failures

A failure of a module is reported once, at the cut of the source where it lies. All that the report
says about the place is told from the texts before and after the cut.
-/

set_option autoImplicit false

namespace VisualBasic

open Cursor (between)

/-- The form in which the failure of a module is reported. -/
def Failure.reported (failure : Failure) (source : String) (settings : Settings) : Diagnostic :=
  (Report.empty source settings.file settings.snippetWidth).stamp
    (Diagnostic.ofFailure source settings.snippetWidth failure)

variable {source : String} {before after : List Char} {failure : Failure}

theorem Failure.reported_between (hs : source.toList = before ++ after)
    (hu : Undivided before after)
    (hplace : failure.place = between before after) (settings : Settings) :
    failure.reported source settings =
      { kind := .syntaxError
        context := failure.construct.text
        expected := failure.expected.text
        offset := byteLength before
        location := ⟨lineBreaks before + 1, (lastLine before).length + 1, settings.file⟩
        snippet := snippet after settings.snippetWidth
        sourceLine := some (String.ofList (lineAround before after))
        suggestion := failure.suggestion.map Keyword.spelling
        help := failure.help.map Help.text
        note := failure.note } := by
  obtain ⟨width, file⟩ := settings
  have hofFailure : Diagnostic.ofFailure source width failure =
      { kind := .syntaxError
        context := failure.construct.text
        expected := failure.expected.text
        offset := byteLength before
        location := ⟨lineBreaks before + 1, (lastLine before).length + 1, none⟩
        snippet := snippet after width
        sourceLine := some (String.ofList (lineAround before after))
        suggestion := failure.suggestion.map Keyword.spelling
        help := failure.help.map Help.text
        note := failure.note } := by
    simp only [Diagnostic.ofFailure, Diagnostic.locate, Diagnostic.unlocated, hplace, hs,
      Cursor.offset_between, splitBytes_byteLength, ofOffset_undivided hu]
    rfl
  rw [Failure.reported, hofFailure]
  cases file <;> rfl

variable {settings : Settings}

theorem parseModule_of_matched {tree : Module} {d : Cursor}
    (h : Grammar.module [] (Cursor.start source.toList) = .matched tree d) :
    parseModule source settings = .ok tree := by
  rw [parseModule_eq, h]

theorem parseModule_of_failed
    (h : Grammar.module [] (Cursor.start source.toList) = .failed failure) :
    parseModule source settings = .error (failure.reported source settings) := by
  rw [parseModule_eq, h]
  rfl

/-- Running the rule of modules in a new session reports a failure and nothing else. -/
theorem run_module_of_matched {tree : Module} {d : Cursor}
    (h : Grammar.module [] (Cursor.start source.toList) = .matched tree d) (settings : Settings) :
    ((Session.start source settings).run .module).1 = .matched tree.toJson ∧
      ((Session.start source settings).run .module).2.report.diagnostics = [] := by
  have hrule : Rule.module.parse [] (Cursor.start source.toList) = .matched tree.toJson d := by
    rw [Rule.parse, ← bind_pure_comp, Parse.bind_apply, h]
    rfl
  have hrun : (Session.start source settings).run .module =
      (.matched tree.toJson, { Session.start source settings with cursor := d }) := by
    rw [Session.run_module]
    simp only [Session.start, hrule]
  rw [hrun]
  exact ⟨rfl, rfl⟩

theorem run_module_of_failed
    (h : Grammar.module [] (Cursor.start source.toList) = .failed failure) (settings : Settings) :
    ((Session.start source settings).run .module).1 =
        .failed (failure.reported source settings) ∧
      ((Session.start source settings).run .module).2.report.diagnostics =
        [failure.reported source settings] := by
  have hrule : Rule.module.parse [] (Cursor.start source.toList) = .failed failure := by
    rw [Rule.parse, ← bind_pure_comp, Parse.bind_apply, h]
  have hrun : (Session.start source settings).run .module =
      (.failed (failure.reported source settings),
        { Session.start source settings with
          cursor := failure.stopped
          report := (Session.start source settings).report.add
            ((Session.start source settings).diagnose failure) }) := by
    rw [Session.run_module]
    simp only [Session.start, hrule]
    rfl
  rw [hrun]
  exact ⟨rfl, rfl⟩

theorem Failure.reported_kind (failure : Failure) (source : String) (settings : Settings) :
    (failure.reported source settings).kind = .syntaxError := by
  obtain ⟨width, file⟩ := settings
  cases file <;> rfl

end VisualBasic
