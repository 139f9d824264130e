import VisualBasic.Grammar.Statement
import VisualBasic.Routine.Declaration

/-!
# Routines for statements

The first word of a statement decides its kind. A statement that starts with no keyword is tried as
an assignment, a label and a call, in this order, and each of them takes back what it has passed
over.
-/

set_option autoImplicit false

namespace VisualBasic

namespace Routine

open Grammar (exitKinds lineNumber?)

def assignment : Routine Statement :=
  sentence .assignment do
    let kind ← scan (Scanner.oneOf [(.Set, AssignmentKind.Set), (.Let, AssignmentKind.Let)])
    let target ← (if kind.isSome then expectReference "variable" else anyReference)
    if kind.isSome then expectSymbol '=' else met (Scanner.symbol '=')
    let value ← expectExpression "expression"
    return fun span => .assign (kind.getD .Unwritten) target value span

def localVariables : Routine Statement :=
  sentence .localDeclaration do
    let kind ← found (Scanner.oneOf [(.Dim, LocalKind.Dim), (.Static, LocalKind.Static)])
    let declared ← declaredVariables (require (.part "variable") declaredVariable)
    return fun span => .localVariables kind declared span

def redim : Routine Statement :=
  sentence .redim do
    met (Scanner.keyword .ReDim)
    let isPreserved ← scan (Scanner.keyword .Preserve)
    let array ← expectReference "array variable"
    expectSymbol '('
    let dimensions ← require (.part "dimension") expressionList
    expectSymbol ')'
    return fun span => .redim isPreserved array dimensions span

def exit : Routine Statement :=
  sentence .exit do
    met (Scanner.keyword .Exit)
    let kind ← require (.choice ["Sub", "Function", "Property", "Do", "While"] "For")
      (found (Scanner.oneOf exitKinds))
    return fun span => .exit kind span

def jump : Routine Statement :=
  sentence .goto do
    let kind ← found (Scanner.oneOf [(.GoTo, JumpKind.GoTo), (.GoSub, JumpKind.GoSub)])
    let label ← expectName "label"
    return fun span => .jump kind label span

/-- What follows `On Error GoTo`: 0, -1 or a label. -/
def errorTarget : Routine ErrorResponse := do
  let token ← scan Scanner.nextToken
  match ← scan Scanner.number with
  | some number =>
    if number = .integer .decimal 0 then return .goToZero
    else if number = .integer .decimal (-1) then return .goToMinusOne
    else failAt (.part "'0', '-1' or a label") token
  | none => .goToLabel <$> expectName "'0', '-1' or a label"

def errorResponse : Routine ErrorResponse :=
  firstOf
    [(do
        met (Scanner.keyword .Resume)
        expectKeyword .Next
        return .resumeNext),
      (do
        met (Scanner.keyword .GoTo)
        errorTarget),
      (do
        met (Scanner.keyword .Exit)
        require (.choice ["Sub", "Function"] "Property")
          (found (Scanner.oneOf
            [(.Sub, .exitSub), (.Function, .exitFunction), (.Property, .exitProperty)])))]

def onError : Routine Statement :=
  sentence .onError do
    met (Scanner.keyword .On)
    expectKeyword .Error
    let response ← require (.choice ["Resume Next", "GoTo"] "Exit") errorResponse
    return fun span => .onError response span

def resumePoint : Routine ResumePoint := do
  let token ← scan Scanner.nextToken
  firstOf
    [(do
        met (Scanner.keyword .Next)
        return .next),
      (do
        let number ← found Scanner.number
        match lineNumber? number with
        | some line => return .line line
        | none => failAt (.part "line number") token),
      .label <$> found Scanner.identifier,
      pure .unwritten]

def resume : Routine Statement :=
  sentence .resume do
    met (Scanner.keyword .Resume)
    let point ← resumePoint
    return fun span => .resume point span

/-- A name and a colon; the rest of the line is passed over when it holds no code. -/
def label : Routine Statement :=
  rule .label do
    let start ← mark
    let name ← found Scanner.identifier
    met (Scanner.adjacent ':')
    let span ← spanFrom start
    let _ ← scan Scanner.lineEnd
    return .label name span

def explicitCall : Routine Statement :=
  sentence .call do
    met (Scanner.keyword .Call)
    let name ← require (.part "procedure name") (found Scanner.procedureName)
    expectSymbol '('
    let arguments ← expectArguments
    return fun span => .call name arguments true span

/-- A call whose parentheses hold all arguments, its terminator included. -/
def closedCall (start : Cursor) (name : String) : Routine Statement := do
  met (Scanner.symbol '(')
  let values ← arguments expression
  let span ← spanFrom start
  met Scanner.terminator
  return .call name values false span

/-- A call whose arguments, if there are any, stand without parentheses of their own. -/
def looseCall (start : Cursor) (name : String) : Routine Statement := do
  let values ← attempt expressionList
  let span ← spanFrom start
  expectTerminator
  return .call name (values.getD []) false span

/-- A call without a keyword. Parentheses hold all arguments only if nothing follows them. -/
def implicitCall : Routine Statement :=
  rule .call do
    let start ← mark
    let name ← found Scanner.procedureName
    orElseBack (closedCall start name) (looseCall start name)

def raiseEvent : Routine Statement :=
  sentence .raiseEvent do
    met (Scanner.keyword .RaiseEvent)
    let event ← expectName "event name"
    expectSymbol '('
    let arguments ← expectArguments
    return fun span => .raiseEvent event arguments span

section Compound

variable (block : Routine (List Statement))

def whileLoop : Routine Statement :=
  sentence .whileLoop do
    met (Scanner.keyword .While)
    let condition ← expectExpression "condition"
    expectTerminator
    let body ← block
    expectKeyword .Wend
    return fun span => .whileLoop condition body span

def loopTest : Routine LoopTest := do
  let isWhile ← found (Scanner.oneOf [(.While, true), (.Until, false)])
  let condition ← expectExpression "condition"
  return ⟨isWhile, condition⟩

/-- A `Do` loop; of the two places for its condition at most one may be taken. -/
def doLoop : Routine Statement :=
  sentence .doLoop do
    met (Scanner.keyword .Do)
    let first ← attempt loopTest
    expectTerminator
    let body ← block
    expectKeyword .Loop
    let token ← scan Scanner.nextToken
    let last ← attempt loopTest
    match first, last with
    | some _, some _ =>
      let diagnostic ← errorAt .endOfStatement token
      raise { diagnostic with help := some Help.twoConditions.text }
    | some test, none => return fun span => .testFirstLoop test body span
    | none, some test => return fun span => .testLastLoop body test span
    | none, none => return fun span => .endlessLoop body span

/-- `Next`, with a variable that is not looked at. -/
def loopEnd : Routine Unit := do
  expectKeyword .Next
  let _ ← attempt anyReference

def forEachLoop : Routine (Span → Statement) := do
  met (Scanner.keyword .Each)
  let element ← expectReference "loop variable"
  expectKeyword .In
  let collection ← expectExpression "collection"
  expectTerminator
  let body ← block
  loopEnd
  return fun span => .forEach element collection body span

def countingLoop : Routine (Span → Statement) := do
  let counter ← expectReference "loop variable"
  expectSymbol '='
  let first ← expectExpression "start value"
  expectKeyword .To
  let last ← expectExpression "end value"
  let step ← optional (Scanner.keyword .Step) (expectExpression "step value")
  expectTerminator
  let body ← block
  loopEnd
  return fun span => .forLoop counter first last step body span

def forLoop : Routine Statement :=
  sentence .forLoop do
    met (Scanner.keyword .For)
    orElse (forEachLoop block) (countingLoop block)

/-- The condition and the block of a branch that starts at a place. -/
def branch (start : Cursor) : Routine Branch := do
  let condition ← expectExpression "condition"
  expectKeyword .Then
  orElse (met Scanner.terminator) do
    let diagnostic ← error .endOfStatement
    raise { diagnostic with help := some Help.singleLineIf.text }
  let body ← block
  let span ← spanFrom start
  return ⟨condition, body, span⟩

/-- One more branch, after those before it. -/
def branchTurn (before : List Branch) : Routine (ForInStep (List Branch)) := do
  let start ← mark
  if ← scan (Scanner.keyword .ElseIf) then
    let value ← branch block start
    return .yield (before ++ [value])
  else return .done before

def conditional : Routine Statement :=
  rule .conditional do
    let start ← mark
    met (Scanner.keyword .If)
    let first ← branch block start
    let others ← loop (branchTurn block) []
    let otherwise ← optional (Scanner.keyword .Else) do
      expectTerminator
      block
    expectEnd .If
    let span ← spanFrom start
    expectTerminator
    return .conditional first others otherwise span

def withBlock : Routine Statement :=
  sentence .withBlock do
    met (Scanner.keyword .With)
    let target ← expectReference "object"
    expectTerminator
    let body ← block
    expectEnd .With
    return fun span => .withBlock target body span

def relationalClause : Routine CaseClause := do
  met (Scanner.keyword .Is)
  let token ← scan Scanner.nextToken
  match ← scan Scanner.relation with
  | none => failAt (.part "relational operator") token
  | some relation =>
    let bound ← expectExpression "expression"
    return .relational relation bound

def valueClause : Routine CaseClause := do
  let first ← expectExpression "case expression"
  let last ← optional (Scanner.keyword .To) (expectExpression "expression")
  return match last with
    | some last => .range first last
    | none => .value first

def caseClause : Routine CaseClause := orElse relationalClause valueClause

/-- The clauses and the block of a case that starts at a place. -/
def caseBlock (start : Cursor) : Routine CaseBlock := do
  let clauses ← separated caseClause caseClause
  expectTerminator
  let body ← block
  let span ← spanFrom start
  return ⟨clauses, body, span⟩

/-- One more case, after those before it; `Case Else` is the last. -/
def caseTurn (before : List CaseBlock × Option (List Statement)) :
    Routine (ForInStep (List CaseBlock × Option (List Statement))) := do
  let start ← mark
  if ← scan (Scanner.keyword .Case) then
    if ← scan (Scanner.keyword .Else) then
      expectTerminator
      let body ← block
      return .done (before.1, some body)
    else
      let value ← caseBlock block start
      return .yield (before.1 ++ [value], before.2)
  else return .done before

def select : Routine Statement :=
  sentence .select do
    met (Scanner.keyword .Select)
    expectKeyword .Case
    let subject ← expectExpression "expression"
    expectTerminator
    skipTrivia
    let cases ← loop (caseTurn block) ([], none)
    expectEnd .Select
    return fun span => .select subject cases.1 cases.2 span

/-- The statement that a first word introduces. -/
def codeStatement : Option Keyword → Routine Statement
  | some .Set => assignment
  | some .Let => assignment
  | some .Dim => localVariables
  | some .Static => localVariables
  | some .ReDim => redim
  | some .Exit => exit
  | some .GoTo => jump
  | some .GoSub => jump
  | some .On => onError
  | some .Resume => resume
  | some .Call => explicitCall
  | some .RaiseEvent => raiseEvent
  | some .While => whileLoop block
  | some .Do => doLoop block
  | some .For => forLoop block
  | some .If => conditional block
  | some .With => withBlock block
  | some .Select => select block
  | _ => firstOf [assignment, label, implicitCall]

end Compound

/-- A statement whose blocks are made of statements of a given routine. -/
def statementWith (inner : Routine Statement) : Routine Statement :=
  firstOf
    [.comment <$> comment, .emptyLine <$> emptyLine,
      (do
        let word ← scan Scanner.peekWord
        codeStatement (collect (attempt inner)) (word.bind Keyword.lookup))]

def statement : Routine Statement := recurse statementWith

/-- Statements up to the first line that is none. -/
def block : Routine (List Statement) := collect (attempt statement)

end Routine

end VisualBasic
