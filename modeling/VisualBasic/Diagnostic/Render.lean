import VisualBasic.Diagnostic.Basic
import VisualBasic.Text.Paint

/-!
# The text of a diagnostic

A header, the place, the line of the source with a caret under the character where parsing stopped,
and a line for each of help, suggestion and note. The margin of the caret's row is narrower than
that of the line above it by a column, or by more when the number of the line has more than three
digits.
-/

set_option autoImplicit false

namespace VisualBasic

/-- A text with blanks before it up to a width. -/
def padLeft (width : Nat) (text : String) : String :=
  String.ofList (List.replicate (width - text.length) ' ') ++ text

/-- A text with blanks after it up to a width. -/
def padRight (width : Nat) (text : String) : String :=
  text ++ String.ofList (List.replicate (width - text.length) ' ')

def blanks (n : Nat) : String := String.ofList (List.replicate n ' ')

namespace Diagnostic

/-- The line of the source under its number, with the caret under the column. -/
def excerpt (palette : Palette) (place : Location) (line : String) : String :=
  let bar := palette.paint .brightBlue "|"
  "   " ++ bar ++ "\n" ++
    palette.paint .brightBlue (padLeft 3 (toString place.line)) ++ " " ++ bar ++
    " " ++ line ++ "\n" ++
    "   " ++ bar ++ " " ++ blanks (place.column - 1) ++ palette.paint .boldRed "^" ++ "\n" ++
    "   " ++ bar ++ "\n"

/-- A remark under the excerpt. -/
def remark (palette : Palette) (style : Style) (text : String) : String :=
  "   " ++ palette.paint style "=" ++ " " ++ palette.paint style text ++ "\n"

def render (palette : Palette) (diagnostic : Diagnostic) : String :=
  palette.paint .boldRed diagnostic.kind.text ++ ": " ++
    palette.paint .bold (diagnostic.context ++ ": expecting " ++ diagnostic.expected) ++ "\n" ++
    palette.paint .brightBlue ("  --> " ++ diagnostic.location.text) ++ "\n" ++
    (diagnostic.sourceLine.map (excerpt palette diagnostic.location)).getD "" ++
    (diagnostic.help.map fun text => remark palette .brightYellow ("help: " ++ text)).getD "" ++
    (diagnostic.suggestion.map fun word =>
      remark palette .brightGreen ("Did you mean '" ++ word ++ "'?")).getD "" ++
    (diagnostic.note.map fun text => remark palette .brightCyan ("note: " ++ text)).getD ""

end Diagnostic

end VisualBasic
