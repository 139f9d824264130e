import VisualBasic.Routine.Rule

/-!
# Parsing sessions

A session parses one source rule by rule: each rule starts where the one before it has left the
session. The settings concern diagnostics only. A module that fails to parse is reported; failures
of other rules are only returned.
-/

set_option autoImplicit false

namespace VisualBasic

namespace Session

def start (source : String) (settings : Settings) : Session :=
  ⟨source, settings, [], Cursor.start source.toList,
    Report.empty source settings.file settings.snippetWidth⟩

/-- Runs a rule where the session stands. -/
def run (rule : Rule) (session : Session) : Step Json × Session :=
  let ran := rule.routine.run session
  (ran.step, ran.session)

def isFinished (session : Session) : Bool := (Scanner.isFinished.run session.cursor).value

def finish (session : Session) : Option Diagnostic :=
  match (Routine.finish.run session).step with
  | .failed diagnostic => some diagnostic
  | _ => none

end Session

/-- The module of a whole source, or the diagnostic that is reported. -/
def parseModule (source : String) (settings : Settings) : Except Diagnostic Module :=
  match ((Routine.reported Routine.module).run (Session.start source settings)).step with
  | .matched tree => .ok tree
  | .unmatched => .ok ⟨[]⟩
  | .failed diagnostic => .error diagnostic

/-- The offsets at which comments begin in a source, by the marks at which the parser begins
them. -/
def commentStarts (source : String) (settings : Settings) : List Nat :=
  (Routine.module.run (Session.start source settings)).comments

end VisualBasic
