import VisualBasic.Tree.Declaration
import VisualBasic.Tree.Expression
import VisualBasic.Word.Operator

/-!
# Statements

A block is a list of statements in the order of the source. Comments and empty lines inside a block
are statements of their own, so that a block accounts for every line under it.
-/

set_option autoImplicit false

namespace VisualBasic

/-- A comment that has its line to itself; the content excludes its marker. -/
structure Comment where
  content : String
  span : Span
  deriving DecidableEq, Repr

structure EmptyLine where
  span : Span
  deriving DecidableEq, Repr

inductive AssignmentKind where
  | Unwritten | Let | Set
  deriving DecidableEq, Repr

inductive LocalKind where
  | Dim | Static
  deriving DecidableEq, Repr

inductive JumpKind where
  | GoTo | GoSub
  deriving DecidableEq, Repr

inductive ExitKind where
  | Sub | Function | Property | Do | While | For
  deriving DecidableEq, Repr

/-- What an `On Error` statement arranges. -/
inductive ErrorResponse where
  | goToZero
  | goToMinusOne
  | goToLabel (label : String)
  | exitSub
  | exitFunction
  | exitProperty
  | resumeNext
  deriving DecidableEq, Repr

inductive ResumePoint where
  | unwritten
  | next
  | label (name : String)
  | line (number : Int32)
  deriving DecidableEq, Repr

/-- The condition of a `Do` loop: a loop goes on while it holds, or until it does. -/
structure LoopTest where
  isWhile : Bool
  condition : Expression

inductive CaseClause where
  | value (expression : Expression)
  | range (first last : Expression)
  | relational (relation : Relation) (bound : Expression)

mutual

inductive Statement where
  | comment (comment : Comment)
  | emptyLine (line : EmptyLine)
  | assign (kind : AssignmentKind) (target : Reference) (value : Expression) (span : Span)
  | localVariables (kind : LocalKind) (declared : List Variable) (span : Span)
  | redim (isPreserved : Bool) (array : Reference) (dimensions : List Expression) (span : Span)
  | exit (kind : ExitKind) (span : Span)
  | jump (kind : JumpKind) (label : String) (span : Span)
  | onError (response : ErrorResponse) (span : Span)
  | resume (point : ResumePoint) (span : Span)
  | label (name : String) (span : Span)
  | call (procedure : String) (arguments : List Expression) (isExplicit : Bool) (span : Span)
  | raiseEvent (event : String) (arguments : List Expression) (span : Span)
  | whileLoop (condition : Expression) (body : List Statement) (span : Span)
  /-- A `Do` loop without a condition. -/
  | endlessLoop (body : List Statement) (span : Span)
  /-- A `Do` loop whose condition stands after `Do`. -/
  | testFirstLoop (test : LoopTest) (body : List Statement) (span : Span)
  /-- A `Do` loop whose condition stands after `Loop`. -/
  | testLastLoop (body : List Statement) (test : LoopTest) (span : Span)
  | forLoop (counter : Reference) (first last : Expression) (step : Option Expression)
      (body : List Statement) (span : Span)
  | forEach (element : Reference) (collection : Expression) (body : List Statement) (span : Span)
  | conditional (first : Branch) (others : List Branch) (otherwise : Option (List Statement))
      (span : Span)
  | withBlock (target : Reference) (body : List Statement) (span : Span)
  | select (subject : Expression) (cases : List CaseBlock) (otherwise : Option (List Statement))
      (span : Span)

/-- A condition of an `If` statement and the block under it. -/
structure Branch where
  condition : Expression
  body : List Statement
  span : Span

structure CaseBlock where
  clauses : List CaseClause
  body : List Statement
  span : Span

end

namespace Statement

def span : Statement → Span
  | .comment note => note.span
  | .emptyLine line => line.span
  | .assign _ _ _ place => place
  | .localVariables _ _ place => place
  | .redim _ _ _ place => place
  | .exit _ place => place
  | .jump _ _ place => place
  | .onError _ place => place
  | .resume _ place => place
  | .label _ place => place
  | .call _ _ _ place => place
  | .raiseEvent _ _ place => place
  | .whileLoop _ _ place => place
  | .endlessLoop _ place => place
  | .testFirstLoop _ _ place => place
  | .testLastLoop _ _ place => place
  | .forLoop _ _ _ _ _ place => place
  | .forEach _ _ _ place => place
  | .conditional _ _ _ place => place
  | .withBlock _ _ place => place
  | .select _ _ _ place => place

/-- The kind of statement in a word or two. -/
def kind : Statement → String
  | .comment _ => "comment"
  | .emptyLine _ => "empty line"
  | .assign _ _ _ _ => "assignment"
  | .localVariables _ _ _ => "local declaration"
  | .redim _ _ _ _ => "redim"
  | .exit _ _ => "exit"
  | .jump _ _ _ => "goto"
  | .onError _ _ => "on error"
  | .resume _ _ => "resume"
  | .label _ _ => "label"
  | .call _ _ _ _ => "call"
  | .raiseEvent _ _ _ => "raise event"
  | .whileLoop _ _ _ => "while"
  | .endlessLoop _ _ => "do"
  | .testFirstLoop test _ _ => if test.isWhile then "do while" else "do until"
  | .testLastLoop _ test _ => if test.isWhile then "loop while" else "loop until"
  | .forLoop _ _ _ _ _ _ => "for"
  | .forEach _ _ _ _ => "for each"
  | .conditional _ _ _ _ => "if"
  | .withBlock _ _ _ => "with"
  | .select _ _ _ _ => "select"

/-- Comments and empty lines do nothing. -/
def isTrivia : Statement → Bool
  | .comment _ => true
  | .emptyLine _ => true
  | _ => false

end Statement

end VisualBasic
