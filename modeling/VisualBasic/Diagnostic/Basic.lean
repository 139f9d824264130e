import VisualBasic.Parse.Failure
import VisualBasic.Text.Location

/-!
# Diagnostics

A diagnostic is a failure in the form in which it is reported: wording in place of causes, a line
and a column in place of a cursor, the line of the source and the text that follows. `locate` finds
the place of a diagnostic in a source.
-/

set_option autoImplicit false

namespace VisualBasic

inductive DiagnosticKind where
  | syntaxError
  /-- Items of a module stand in an order that its sections do not allow. -/
  | moduleLayout
  | unreadable
  deriving DecidableEq, Repr

def DiagnosticKind.text : DiagnosticKind → String
  | .syntaxError => "Syntax Error"
  | .moduleLayout => "Module Layout Error"
  | .unreadable => "I/O Error"

structure Diagnostic where
  kind : DiagnosticKind
  context : String
  expected : String
  offset : Nat
  location : Location
  snippet : String
  sourceLine : Option String
  suggestion : Option String
  help : Option String
  note : Option String
  deriving DecidableEq, Repr

namespace Diagnostic

/-- A diagnostic that has not been located. -/
def unlocated (kind : DiagnosticKind) (context expected : String) (offset : Nat) : Diagnostic :=
  ⟨kind, context, expected, offset, .unknown, "", none, none, none, none⟩

/-- Finds the line, the column and the text at the offset, which is moved back to the start of a
character and to the end of the source. The file stays. -/
def locate (diagnostic : Diagnostic) (source : String) (width : Nat) : Diagnostic :=
  let (before, after) := splitBytes diagnostic.offset source.toList
  let offset := byteLength before
  let place := Position.ofOffset source.toList offset
  { diagnostic with
    offset := offset
    location := ⟨place.line, place.column, diagnostic.location.file⟩
    snippet := VisualBasic.snippet after width
    sourceLine := some (String.ofList (lineAround before after)) }

def inFile (diagnostic : Diagnostic) (file : String) : Diagnostic :=
  { diagnostic with location := { diagnostic.location with file := some file } }

def ofUnreadable (file reason : String) : Diagnostic :=
  { (unlocated .unreadable file "a readable file" 0).inFile file with note := some reason }

def ofFailure (source : String) (width : Nat) (failure : Failure) : Diagnostic :=
  { (unlocated .syntaxError failure.construct.text failure.expected.text
      failure.place.offset).locate source width with
    suggestion := failure.suggestion.map Keyword.spelling
    help := failure.help.map Help.text
    note := failure.note }

/-- The diagnostic in one line. -/
def message (diagnostic : Diagnostic) : String :=
  diagnostic.context ++ ": expecting " ++ diagnostic.expected ++ " here: " ++ diagnostic.snippet

end Diagnostic

end VisualBasic
