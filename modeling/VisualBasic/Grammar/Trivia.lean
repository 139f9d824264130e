import VisualBasic.Parse.Token
import VisualBasic.Tree.Statement

/-!
# Comments and empty lines

Lines that hold no code. A comment here has the rest of its line to itself, break included.
-/

set_option autoImplicit false

namespace VisualBasic

namespace Grammar

/-- A comment up to the end of its line; its span leaves the break out. -/
def comment (c : Cursor) : Option (Comment × Cursor) :=
  let start := c.skipBlanks
  start.comment.bind fun (content, stop) =>
    stop.breakOrEnd.map fun after => (⟨content, start.spanTo stop⟩, after)

/-- A line of nothing but blanks; its span includes the break. -/
def emptyLine (c : Cursor) : Option (EmptyLine × Cursor) :=
  c.blankLine.map fun after => (⟨c.spanTo after⟩, after)

def triviaLine : Parse Unit :=
  Parse.orElse (Parse.read comment *> pure ()) (Parse.read emptyLine *> pure ())

def skipTrivia : Parse Unit := do
  let _ ← Parse.many triviaLine

end Grammar

end VisualBasic
