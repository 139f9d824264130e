import VisualBasic.Scanner.Number
import VisualBasic.Scanner.Token

/-!
# Scanning

A scan goes through a source step by step. A step asks for a token, which is passed over if it is
there, or looks at what comes next, or moves. A step that finds nothing leaves the cursor where it
is, and a look never moves it.
-/

set_option autoImplicit false

namespace VisualBasic

inductive ScanStep where
  | symbol (char : Char)
  | adjacent (char : Char)
  | exactly (text : String)
  | keyword (k : Keyword)
  | word
  | identifier
  | quoted
  | number
  | comment
  | relation
  | lineBreak
  | blankLine
  | lineEnd
  | terminator
  | peekChar
  | peekWord
  | peekKeyword (k : Keyword)
  | peekOperator
  | isAtEnd
  | rest
  | source
  | skipBlanks
  | moveTo (offset : Nat)
  deriving DecidableEq, Repr

/-- What a step finds. -/
inductive Finding where
  | moved
  | truth (value : Bool)
  | text (value : Option String)
  | literal (value : Option Literal)
  | operator (value : Option Operator)
  | relation (value : Option Relation)
  deriving DecidableEq, Repr

namespace ScanStep

/-- What a scanner finds, and where it leaves the cursor. -/
def finding {α : Type} (kind : α → Finding) (m : Scanner α) (c : Cursor) : Finding × Cursor :=
  let scanned := m.run c
  (kind scanned.value, scanned.cursor)

/-- Takes a step from a cursor in a source. -/
def run (source : String) (step : ScanStep) (c : Cursor) : Finding × Cursor :=
  match step with
  | .symbol char => finding .truth (Scanner.symbol char) c
  | .adjacent char => finding .truth (Scanner.adjacent char) c
  | .exactly text => finding .truth (Scanner.exactly text.toList) c
  | .keyword k => finding .truth (Scanner.keyword k) c
  | .word => finding .text Scanner.word c
  | .identifier => finding .text Scanner.identifier c
  | .quoted => finding .text Scanner.quoted c
  | .number => finding .literal Scanner.number c
  | .comment => finding .text Scanner.comment c
  | .relation => finding .relation Scanner.relation c
  | .lineBreak => finding .truth Scanner.lineBreak c
  | .blankLine => finding .truth Scanner.blankLine c
  | .lineEnd => finding .truth Scanner.lineEnd c
  | .terminator => finding .truth Scanner.terminator c
  | .peekChar => finding (fun char => .text (char.map String.singleton)) Scanner.peekChar c
  | .peekWord => finding .text Scanner.peekWord c
  | .peekKeyword k => finding .truth (Scanner.peekKeyword k) c
  | .peekOperator => finding .operator Scanner.peekOperator c
  | .isAtEnd => finding .truth Scanner.isAtEnd c
  | .rest => finding (fun text => .text (some (String.ofList text))) Scanner.rest c
  | .source => (.text (some source), c)
  | .skipBlanks => finding (fun _ => .moved) Scanner.skipBlanks c
  | .moveTo offset =>
    finding (fun _ => .moved) (Scanner.moveTo (Cursor.ofOffset source.toList offset)) c

end ScanStep

end VisualBasic
