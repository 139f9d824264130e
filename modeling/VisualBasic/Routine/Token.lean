import VisualBasic.Cursor.Comment
import VisualBasic.Cursor.Quoted
import VisualBasic.Routine.Basic
import VisualBasic.Scanner.Number
import VisualBasic.Tree.Statement

/-!
# Routines for tokens and sentences

A failure is made into a diagnostic where it is met: the session tells the construct that is open,
the source and how much of it to quote. Routines whose names start with `expect` fail where their
token is missing.
-/

set_option autoImplicit false

namespace VisualBasic

namespace Scanner

variable {α : Type}

/-- Scans ahead: the cursor is put back. -/
def probe (m : Scanner α) : Scanner α := do
  let start ← place
  let value ← m
  moveTo start
  return value

/-- The value of the first keyword of a table that comes next. -/
def oneOf : List (Keyword × α) → Scanner (Option α)
  | [] => return none
  | entry :: rest => do
    if ← keyword entry.1 then return some entry.2 else oneOf rest

def nextToken : Scanner Cursor :=
  probe do
    skipBlanks
    place

/-- The note on an error at a place, if an operator stands there. -/
def noteAt (token : Cursor) : Scanner (Option String) :=
  probe do
    moveTo token
    match ← peekOperator with
    | none => return none
    | some operator =>
      if operator = .minus ∨ operator = .plus then
        if (← number).isSome then return none else return some operatorNote
      else return some operatorNote

def isFinished : Scanner Bool :=
  probe do
    skipBlanks
    isAtEnd

/-- A turn through the names of members that dots join to a name, after those before it. A name
belongs to them only if it starts right after its dot. -/
def memberTurn (names : String) : Scanner (ForInStep String) := do
  let start ← place
  if ← adjacent '.' then
    match ← word with
    | none =>
      moveTo start
      return .done names
    | some name =>
      if (← place).offset - byteLength name.toList = start.offset + 1 then
        return .yield (names ++ "." ++ name)
      else
        moveTo start
        return .done names
  else return .done names

/-- The name of a called procedure: a name, perhaps after a dot, with the names of members. -/
def procedureName : Scanner (Option String) := do
  skipBlanks
  let start ← place
  let isDotted ← adjacent '.'
  match ← identifier with
  | none =>
    moveTo start
    return none
  | some name =>
    let members ← loop memberTurn ""
    return some ((if isDotted then "." else "") ++ name ++ members)

end Scanner

namespace Routine

variable {α : Type}

def place : Routine Cursor := scan Scanner.place

def moveTo (start : Cursor) : Routine Unit := scan (Scanner.moveTo start)

def mark : Routine Cursor :=
  scan do
    Scanner.skipBlanks
    Scanner.place

def spanFrom (start : Cursor) : Routine Span := do
  let stop ← place
  return start.spanTo stop

/-- The second of two routines where the first does not match, from the place where that started. -/
def orElseBack (first second : Routine α) : Routine α := do
  let before ← place
  match ← attempt first with
  | some value => return value
  | none =>
    moveTo before
    second

/-! ## Errors -/

def session : Routine Session := ⟨fun s => ⟨.matched s, s, []⟩⟩

/-- The diagnostic of a missing part that should have started at a place. -/
def errorAt (expected : Expected) (token : Cursor) : Routine Diagnostic := do
  let s ← session
  let note ← scan (Scanner.noteAt token)
  let construct := s.inside.headD .module
  let diagnostic := Diagnostic.unlocated .syntaxError construct.text expected.text token.offset
  return { diagnostic.locate s.source s.settings.snippetWidth with note := note }

def error (expected : Expected) : Routine Diagnostic := do
  let token ← scan Scanner.nextToken
  errorAt expected token

def failAt (expected : Expected) (token : Cursor) : Routine α := do
  let diagnostic ← errorAt expected token
  raise diagnostic

def fail (expected : Expected) : Routine α := do
  let diagnostic ← error expected
  raise diagnostic

def require (expected : Expected) (m : Routine α) : Routine α := orElse m (fail expected)

/-! ## Tokens -/

def expectKeyword (k : Keyword) : Routine Unit :=
  orElse (met (Scanner.keyword k)) do
    let diagnostic ← error (.keyword k)
    let word ← scan Scanner.peekWord
    if word.any fun word => isNearMiss word k then
      raise { diagnostic with suggestion := some k.spelling }
    else raise diagnostic

def expectSymbol (char : Char) : Routine Unit := require (.symbol char) (met (Scanner.symbol char))

def expectTerminator : Routine Unit := require .endOfStatement (met Scanner.terminator)

def expectName (part : String) : Routine String :=
  orElse (found Scanner.identifier) do
    let diagnostic ← error (.part part)
    let word ← scan Scanner.peekWord
    match word.filter isReservedWord with
    | some word => raise { diagnostic with help := some (Help.reservedWord word).text }
    | none => raise diagnostic

def expectQuoted (part : String) : Routine String := require (.part part) (found Scanner.quoted)

/-- A number with a meaning where it stands; any other token fails. -/
def expectNumber (expected : Expected) (meaning : Literal → Option α) : Routine α := do
  let token ← scan Scanner.nextToken
  let number ← scan Scanner.number
  match number.bind meaning with
  | some value => return value
  | none => failAt expected token

def expectEnd (k : Keyword) : Routine Unit := do
  require (.closer k) (met (Scanner.keyword .End))
  expectKeyword k

/-! ## Sentences and lines -/

/-- One or more parts with commas between them. -/
def separated (first next : Routine α) : Routine (List α) := do
  let head ← first
  let tail ← collect (optional (Scanner.symbol ',') next)
  return head :: tail

/-- A construct that ends with a statement terminator, which its span leaves out. -/
def sentence (construct : Construct) (body : Routine (Span → α)) : Routine α :=
  rule construct do
    let start ← mark
    let build ← body
    let span ← spanFrom start
    expectTerminator
    return build span

/-- A comment up to the end of its line; its span leaves the break out. -/
def comment : Routine Comment := do
  let start ← place
  let token ← mark
  match ← scan Scanner.comment with
  | none =>
    moveTo start
    unmatched
  | some content =>
    let span ← spanFrom token
    if ← scan Scanner.lineBreak then return ⟨content, span⟩
    else if ← scan Scanner.isAtEnd then return ⟨content, span⟩
    else
      moveTo start
      unmatched

/-- A line of nothing but blanks; its span includes the break. -/
def emptyLine : Routine EmptyLine := do
  let start ← place
  met Scanner.blankLine
  let span ← spanFrom start
  return ⟨span⟩

/-- A comment or an empty line that the tree does not keep. -/
def triviaLine : Routine Unit :=
  orElse (comment >>= fun _ => pure ()) (emptyLine >>= fun _ => pure ())

def skipTrivia : Routine Unit := do
  let _ ← collect (attempt triviaLine)

end Routine

end VisualBasic
