import VisualBasic.Diagnostic.Render

/-!
# Reports

A report collects the diagnostics of one source. What is reported is located in the source if it has
no place yet, and gets the name of the source's file.
-/

set_option autoImplicit false

namespace VisualBasic

structure Report where
  source : String
  file : Option String
  width : Nat
  diagnostics : List Diagnostic

namespace Report

/-- A report without diagnostics. -/
def empty (source : String) (file : Option String) (width : Nat) : Report :=
  ⟨source, file, width, []⟩

/-- The form in which a diagnostic is reported. -/
def stamp (report : Report) (diagnostic : Diagnostic) : Diagnostic :=
  let located :=
    if diagnostic.sourceLine.isNone && diagnostic.kind ≠ .unreadable then
      diagnostic.locate report.source report.width
    else diagnostic
  match report.file with
  | some file => located.inFile file
  | none => located

def add (report : Report) (diagnostic : Diagnostic) : Report :=
  { report with diagnostics := report.diagnostics ++ [report.stamp diagnostic] }

def hasErrors (report : Report) : Bool := ! report.diagnostics.isEmpty

/-- The texts of all diagnostics without colours, with an empty line between them. -/
def render (report : Report) : String :=
  "\n".intercalate (report.diagnostics.map (Diagnostic.render .plain))

end Report

end VisualBasic
