import VisualBasic.Cursor.Numeral
import VisualBasic.Word.Suggestion

/-!
# Why parsing fails

A failure says where in the grammar and where in the text parsing stopped, what was expected there,
and what may help. Each is a cause; the wording of all of them is in this module.
-/

set_option autoImplicit false

namespace VisualBasic

/-- The constructs that a failure is reported in; `module` where no other is open. -/
inductive Construct where
  | module
  | attribute
  | option
  | variable
  | variableDeclaration
  | constantDeclaration
  | typeDeclaration
  | enumDeclaration
  | parameter
  | externalDeclaration
  | eventDeclaration
  | subHead
  | functionHead
  | propertyHead
  | sub
  | function
  | property
  | assignment
  | localDeclaration
  | redim
  | exit
  | goto
  | onError
  | resume
  | label
  | call
  | raiseEvent
  | whileLoop
  | doLoop
  | forLoop
  | conditional
  | withBlock
  | select
  | functionCall
  | variableReference
  deriving DecidableEq, Repr

def Construct.text : Construct → String
  | .module => "module"
  | .attribute => "attribute"
  | .option => "option"
  | .variable => "variable"
  | .variableDeclaration => "variable declaration"
  | .constantDeclaration => "constant declaration"
  | .typeDeclaration => "type declaration"
  | .enumDeclaration => "enum declaration"
  | .parameter => "parameter"
  | .externalDeclaration => "external declaration"
  | .eventDeclaration => "event declaration"
  | .subHead => "sub head"
  | .functionHead => "function head"
  | .propertyHead => "property head"
  | .sub => "sub"
  | .function => "function"
  | .property => "property"
  | .assignment => "assignment"
  | .localDeclaration => "local declaration"
  | .redim => "redim statement"
  | .exit => "exit statement"
  | .goto => "goto statement"
  | .onError => "on error statement"
  | .resume => "resume statement"
  | .label => "label"
  | .call => "call statement"
  | .raiseEvent => "raise event statement"
  | .whileLoop => "while loop"
  | .doLoop => "do loop"
  | .forLoop => "for loop"
  | .conditional => "if statement"
  | .withBlock => "with block"
  | .select => "select case"
  | .functionCall => "function call"
  | .variableReference => "variable reference"

/-- What would have let parsing go on. -/
inductive Expected where
  | keyword (k : Keyword)
  /-- The `End` of a block, followed by the block's keyword. -/
  | closer (k : Keyword)
  | symbol (c : Char)
  /-- One of several quoted texts. -/
  | choice (first : List String) (last : String)
  | part (name : String)
  deriving DecidableEq, Repr

def inQuotes (text : String) : String := "'" ++ text ++ "'"

def Expected.text : Expected → String
  | .keyword k => inQuotes k.spelling
  | .closer k => inQuotes ("End " ++ k.spelling)
  | .symbol c => inQuotes (String.singleton c)
  | .choice first last => ", ".intercalate (first.map inQuotes) ++ " or " ++ inQuotes last
  | .part name => name

def Expected.endOfStatement : Expected := .part "end of statement"

inductive Help where
  | reservedWord (word : String)
  | singleLineIf
  | twoConditions
  deriving DecidableEq, Repr

def Help.text : Help → String
  | .reservedWord word => inQuotes word ++ " is a reserved word and cannot be used as a name"
  | .singleLineIf =>
    "single-line If statements are not supported; put the body on its own lines and close it " ++
      "with 'End If'"
  | .twoConditions =>
    "a Do loop takes its condition either after 'Do' or after 'Loop', not both"

def operatorNote : String :=
  "operator expressions are not supported; an expression is a literal, a function call or a " ++
    "variable reference"

/-- Whether parsing stopped at an operator; a sign that belongs to a number is none. -/
def Cursor.isAtOperator (c : Cursor) : Bool :=
  match c.peekOperator with
  | some .minus => c.number.isNone
  | some .plus => c.number.isNone
  | some _ => true
  | none => false

structure Failure where
  construct : Construct
  expected : Expected
  /-- Where the missing part should have started. -/
  place : Cursor
  help : Option Help
  suggestion : Option Keyword
  stopped : Cursor
  deriving DecidableEq, Repr

/-- A failure that sits on an operator says so. -/
def Failure.note (failure : Failure) : Option String :=
  if failure.place.isAtOperator then some operatorNote else none

end VisualBasic
