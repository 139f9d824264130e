import VisualBasic.Section
import VisualBasic.Statistics
import VisualBasic.Diagnostic.Render
import VisualBasic.Text.WhiteSpace

/-!
# Listings

The texts in which the command line shows a module: one row an item, its sections, or its counts.
-/

set_option autoImplicit false

namespace VisualBasic.CommandLine

/-- The number of the line on which a span starts, as it stands in a listing. -/
def lineNumber (palette : Palette) (source : String) (span : Span) : String :=
  palette.paint .brightBlue
    (padLeft 5 (toString (Position.ofOffset source.toList span.start).line))

/-- The text up to the first LF, without white space at its ends. -/
def firstLine (text : String) : String :=
  String.ofList (trimWhiteSpace (text.toList.takeWhile (· ≠ '\n')))

/-- What a listing says of an item. -/
def label (source : String) : Item → String
  | .comment note => "'" ++ note.content
  | .emptyLine _ => ""
  | .attributeLine entry => entry.name ++ " = " ++ entry.value
  | .optionLine line => line.option.name
  | .declaration declared => firstLine (declared.span.slice source)
  | .procedure definition =>
    definition.name ++ " (" ++ toString definition.body.length ++ " statements)"

def itemRow (palette : Palette) (source : String) (item : Item) : String :=
  lineNumber palette source item.span ++ "  " ++ padRight 12 item.kind ++ " " ++
  label source item ++
    "\n"

def flatListing (palette : Palette) (source : String) (module : Module) : String :=
  String.join (module.items.map (itemRow palette source))

/-- Attributes, options, the number of declarations, and procedures. -/
def sectionListing (palette : Palette) (source : String) (sections : Sections) : String :=
  let heading (text : String) : String := palette.paint .bold text
  heading "attributes" ++ "\n" ++
    String.join (sections.attributes.map fun entry =>
      "  " ++ entry.name ++ " = " ++ entry.value ++ "\n") ++
    heading "options" ++ "\n" ++
    String.join (sections.optionValues.map fun option => "  " ++ option.name ++ "\n") ++
    heading "declarations" ++ " (" ++ toString sections.declarationItems.length ++ ")\n" ++
    heading "procedures" ++ "\n" ++
    String.join (sections.procedureItems.map fun definition =>
      "  " ++ lineNumber palette source definition.span ++ "  " ++ definition.name ++ "\n")

def statisticsListing (counts : Statistics) : String :=
  let row (name : String) (count : Nat) : String :=
    padRight 16 (name ++ ":") ++ toString count ++ "\n"
  row "attributes" counts.attributes ++ row "options" counts.options ++
    row "declarations" counts.declarations ++ row "procedures" counts.procedures ++
    row "statements" counts.statements ++ row "function calls" counts.functionCalls ++
    row "comments" counts.comments ++ row "max depth" counts.maxDepth

end VisualBasic.CommandLine
