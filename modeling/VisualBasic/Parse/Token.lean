import VisualBasic.Cursor.Comment
import VisualBasic.Cursor.Quoted
import VisualBasic.Parse.Basic

/-!
# Parsers for tokens and sentences

Tokens come in two forms: one that may be missing, and one, named `require…`, whose absence is a
failure. A sentence is a construct that ends with a statement terminator; its span runs from its
first token to the end of its last one, the terminator excluded.
-/

set_option autoImplicit false

namespace VisualBasic

namespace Parse

variable {α : Type}

def keyword (k : Keyword) : Parse Unit := pass (Cursor.keyword k)

def symbol (char : Char) : Parse Unit := pass (Cursor.symbol char)

def adjacent (char : Char) : Parse Unit := pass (Cursor.adjacent char)

def identifier : Parse String := read Cursor.identifier

/-- The place of the next token, which is not passed over. -/
def nextToken : Parse Cursor := fun _ c => .matched c.skipBlanks c

/-- A number with a meaning where it stands; any other token fails. -/
def requireNumber (expected : Expected) (meaning : Literal → Option α) : Parse α := do
  let place ← nextToken
  let number ← opt (read Cursor.number)
  match number.bind meaning with
  | some value => return value
  | none => failAt place expected

/-- Matches without passing over anything where a keyword does not come next. -/
def unlessKeyword (k : Keyword) : Parse Unit := fun _ c =>
  if (c.keyword k).isSome then .unmatched else .matched () c

/-- The value of the first keyword of a table that comes next. -/
def oneOf (table : List (Keyword × α)) : Parse α :=
  firstOf (table.map fun entry => keyword entry.1 *> pure entry.2)

/-- Suggests a keyword where the word at the place of a failure is nearly it. -/
def suggestNearMiss (k : Keyword) (failure : Failure) : Failure :=
  if failure.place.peekWord.any fun word => isNearMiss word k then
    { failure with suggestion := some k }
  else failure

def requireKeyword (k : Keyword) : Parse Unit :=
  advise (suggestNearMiss k) (require (.keyword k) (keyword k))

def requireSymbol (char : Char) : Parse Unit := require (.symbol char) (symbol char)

def requireTerminator : Parse Unit := require .endOfStatement (pass Cursor.terminator)

/-- Explains a missing name by the reserved word that stands in its place. -/
def explainReservedWord (failure : Failure) : Failure :=
  match failure.place.peekWord.filter isReservedWord with
  | some word => { failure with help := some (.reservedWord word) }
  | none => failure

def requireName (part : String) : Parse String :=
  advise explainReservedWord (require (.part part) identifier)

def requireQuoted (part : String) : Parse String := require (.part part) (read Cursor.quoted)

/-- The words that close a block. -/
def requireEnd (k : Keyword) : Parse Unit := do
  require (.closer k) (keyword .End)
  requireKeyword k

/-- What may follow a keyword. -/
def after (k : Keyword) (p : Parse α) : Parse (Option α) := opt (keyword k *> p)

/-- One or more parts with commas between them. -/
def separated (first next : Parse α) : Parse (List α) := do
  let head ← first
  let tail ← many (symbol ',' *> next)
  return head :: tail

/-- Gives what a parser builds the span from the next token to where the parser ends. -/
def spanned (p : Parse (Span → α)) : Parse α := do
  let start ← mark
  let build ← p
  let stop ← here
  return build (start.spanTo stop)

def sentence (construct : Construct) (p : Parse (Span → α)) : Parse α :=
  within construct do
    let value ← spanned p
    requireTerminator
    return value

end Parse

end VisualBasic
