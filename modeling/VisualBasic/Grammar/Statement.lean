import VisualBasic.Grammar.Declaration

/-!
# The grammar of statements

The first word of a statement decides its kind, and after a keyword a missing part is a failure. A
statement with any other first word is an assignment, a label or a call, in this order. The parsers
of compound statements take the parser of the blocks inside them as a parameter; `statement` ties
the knot.
-/

set_option autoImplicit false

namespace VisualBasic

namespace Grammar

open Parse

def requireExpression (part : String) : Parse Expression := require (.part part) (read expression)

def anyReference : Parse Reference := read (reference expression)

def requireReference (part : String) : Parse Reference := require (.part part) anyReference

/-- One or more expressions; after a comma there must be another. -/
def expressionList : Parse (List Expression) :=
  separated (read expression) (requireExpression "expression")

/-- The arguments after an opening parenthesis; where they are not well formed, a failure at the
place up to which they are. -/
def requireArguments : Parse (List Expression) := fun inside c =>
  match arguments expression c with
  | .ok (found, after) => .matched found after
  | .error stopped => fail (.part "argument list") inside stopped

def assignment : Parse Statement :=
  sentence .assignment do
    let kind ← opt (oneOf [(.Set, AssignmentKind.Set), (.Let, AssignmentKind.Let)])
    let target ← (if kind.isSome then requireReference "variable" else anyReference)
    if kind.isSome then requireSymbol '=' else symbol '='
    let value ← requireExpression "expression"
    return fun span => .assign (kind.getD .Unwritten) target value span

def localVariables : Parse Statement :=
  sentence .localDeclaration do
    let kind ← oneOf [(.Dim, LocalKind.Dim), (.Static, LocalKind.Static)]
    let declared ← declaredVariables (require (.part "variable") declaredVariable)
    return fun span => .localVariables kind declared span

def redim : Parse Statement :=
  sentence .redim do
    keyword .ReDim
    let isPreserved ← flag (keyword .Preserve)
    let array ← requireReference "array variable"
    requireSymbol '('
    let dimensions ← require (.part "dimension") expressionList
    requireSymbol ')'
    return fun span => .redim isPreserved array dimensions span

def exitKinds : List (Keyword × ExitKind) :=
  [(.Sub, .Sub), (.Function, .Function), (.Property, .Property), (.Do, .Do), (.While, .While),
    (.For, .For)]

def exit : Parse Statement :=
  sentence .exit do
    keyword .Exit
    let kind ← require (.choice ["Sub", "Function", "Property", "Do", "While"] "For")
      (oneOf exitKinds)
    return fun span => .exit kind span

def jump : Parse Statement :=
  sentence .goto do
    let kind ← oneOf [(.GoTo, JumpKind.GoTo), (.GoSub, JumpKind.GoSub)]
    let label ← requireName "label"
    return fun span => .jump kind label span

/-- What follows `On Error GoTo`: 0, -1 or a label. -/
def errorTarget : Parse ErrorResponse := do
  let place ← nextToken
  match (← opt (read Cursor.number)) with
  | some number =>
    if number = .integer .decimal 0 then return .goToZero
    else if number = .integer .decimal (-1) then return .goToMinusOne
    else failAt place (.part "'0', '-1' or a label")
  | none => .goToLabel <$> requireName "'0', '-1' or a label"

def errorResponse : Parse ErrorResponse :=
  firstOf
    [keyword .Resume *> requireKeyword .Next *> pure .resumeNext,
      keyword .GoTo *> errorTarget,
      keyword .Exit *> require (.choice ["Sub", "Function"] "Property")
        (oneOf [(.Sub, .exitSub), (.Function, .exitFunction), (.Property, .exitProperty)])]

def onError : Parse Statement :=
  sentence .onError do
    keyword .On
    requireKeyword .Error
    let response ← require (.choice ["Resume Next", "GoTo"] "Exit") errorResponse
    return fun span => .onError response span

/-- The line number that a decimal integer gives. -/
def lineNumber? : Literal → Option Int32
  | .integer .decimal value => some value.toInt32
  | .long .decimal value => some value
  | _ => none

def resumePoint : Parse ResumePoint := do
  let place ← nextToken
  firstOf
    [keyword .Next *> pure .next,
      (read Cursor.number).bind fun number =>
        match lineNumber? number with
        | some line => pure (.line line)
        | none => failAt place (.part "line number"),
      .label <$> identifier,
      pure .unwritten]

def resume : Parse Statement :=
  sentence .resume do
    keyword .Resume
    let point ← resumePoint
    return fun span => .resume point span

/-- A name and a colon; the rest of the line is passed over when it holds no code. -/
def label : Parse Statement :=
  within .label do
    let found ← spanned do
      let name ← identifier
      adjacent ':'
      return Statement.label name
    let _ ← opt (pass Cursor.lineEnd)
    return found

/-- Any words that dots join without blanks. -/
def memberNames (c : Cursor) : String × Cursor :=
  match c.adjacent '.' with
  | none => ("", c)
  | some d =>
    if d.rest.head?.any isWordStart then
      match d.word with
      | none => ("", c)
      | some (name, e) =>
        if e.rest.length < c.rest.length then
          let (names, f) := memberNames e
          ("." ++ name ++ names, f)
        else ("." ++ name, e)
    else ("", c)
termination_by c.rest.length

/-- The name of a called procedure: a name, perhaps after a dot, with the names of members. -/
def procedureName (c : Cursor) : Option (String × Cursor) := do
  let start := c.skipBlanks
  let dot := start.adjacent '.'
  let (name, d) ← (dot.getD start).identifier
  let (names, e) := memberNames d
  return ((if dot.isSome then "." else "") ++ name ++ names, e)

def explicitCall : Parse Statement :=
  sentence .call do
    keyword .Call
    let _ ← mark
    let name ← require (.part "procedure name") (read procedureName)
    requireSymbol '('
    let arguments ← requireArguments
    return fun span => .call name arguments true span

/-- The arguments of a call in parentheses that end the statement with it, terminator included. -/
def wholeArguments (c : Cursor) : Option ((List Expression × Cursor) × Cursor) := do
  let d ← c.symbol '('
  let (found, stop) ← (arguments expression d).toOption
  let after ← stop.terminator
  return ((found, stop), after)

/-- The arguments of a call without parentheses. -/
def looseArguments : Parse (List Expression × Cursor) := do
  let found ← opt expressionList
  let stop ← here
  requireTerminator
  return (found.getD [], stop)

/-- A call without a keyword. Parentheses hold all arguments only if nothing follows them. -/
def implicitCall : Parse Statement :=
  within .call do
    let start ← mark
    let name ← read procedureName
    let (arguments, stop) ← orElse (read wholeArguments) looseArguments
    return .call name arguments false (start.spanTo stop)

def raiseEvent : Parse Statement :=
  sentence .raiseEvent do
    keyword .RaiseEvent
    let event ← requireName "event name"
    requireSymbol '('
    let arguments ← requireArguments
    return fun span => .raiseEvent event arguments span

section Compound

variable (block : Parse (List Statement))

def whileLoop : Parse Statement :=
  sentence .whileLoop do
    keyword .While
    let condition ← requireExpression "condition"
    requireTerminator
    let body ← block
    requireKeyword .Wend
    return fun span => .whileLoop condition body span

def loopTest : Parse LoopTest := do
  let isWhile ← oneOf [(.While, true), (.Until, false)]
  let condition ← requireExpression "condition"
  return ⟨isWhile, condition⟩

/-- A `Do` loop; of the two places for its condition at most one may be taken. -/
def doLoop : Parse Statement :=
  sentence .doLoop do
    keyword .Do
    let first ← opt loopTest
    requireTerminator
    let body ← block
    requireKeyword .Loop
    let place ← nextToken
    let last ← opt loopTest
    match first, last with
    | some _, some _ =>
      advise (fun failure => { failure with help := some .twoConditions })
        (failAt place .endOfStatement)
    | some test, none => return fun span => .testFirstLoop test body span
    | none, some test => return fun span => .testLastLoop body test span
    | none, none => return fun span => .endlessLoop body span

/-- `Next`, with a variable that is not looked at. -/
def loopEnd : Parse Unit := do
  requireKeyword .Next
  let _ ← opt anyReference

def forEachLoop : Parse (Span → Statement) := do
  keyword .Each
  let element ← requireReference "loop variable"
  requireKeyword .In
  let collection ← requireExpression "collection"
  requireTerminator
  let body ← block
  loopEnd
  return fun span => .forEach element collection body span

def countingLoop : Parse (Span → Statement) := do
  let counter ← requireReference "loop variable"
  requireSymbol '='
  let first ← requireExpression "start value"
  requireKeyword .To
  let last ← requireExpression "end value"
  let step ← after .Step (requireExpression "step value")
  requireTerminator
  let body ← block
  loopEnd
  return fun span => .forLoop counter first last step body span

def forLoop : Parse Statement :=
  sentence .forLoop do
    keyword .For
    orElse (forEachLoop block) (countingLoop block)

/-- A keyword, a condition and the block under it. -/
def branch (k : Keyword) : Parse Branch :=
  spanned do
    keyword k
    let condition ← requireExpression "condition"
    requireKeyword .Then
    advise (fun failure => { failure with help := some .singleLineIf }) requireTerminator
    let body ← block
    return fun span => ⟨condition, body, span⟩

def conditional : Parse Statement :=
  sentence .conditional do
    let first ← branch block .If
    let others ← many (branch block .ElseIf)
    let _ ← mark
    let otherwise ← after .Else (requireTerminator *> block)
    requireEnd .If
    return fun span => .conditional first others otherwise span

def withBlock : Parse Statement :=
  sentence .withBlock do
    keyword .With
    let target ← requireReference "object"
    requireTerminator
    let body ← block
    requireEnd .With
    return fun span => .withBlock target body span

def relationalClause : Parse CaseClause := do
  keyword .Is
  let relation ← require (.part "relational operator") (read Cursor.relation)
  let bound ← requireExpression "expression"
  return .relational relation bound

def valueClause : Parse CaseClause := do
  let first ← requireExpression "case expression"
  let last ← after .To (requireExpression "expression")
  return match last with
    | some last => .range first last
    | none => .value first

def caseClause : Parse CaseClause := orElse relationalClause valueClause

def caseBlock : Parse CaseBlock :=
  spanned do
    keyword .Case
    unlessKeyword .Else
    let clauses ← separated caseClause caseClause
    requireTerminator
    let body ← block
    return fun span => ⟨clauses, body, span⟩

def elseBlock : Parse (List Statement) := do
  keyword .Case
  keyword .Else
  requireTerminator
  block

def select : Parse Statement :=
  sentence .select do
    keyword .Select
    requireKeyword .Case
    let subject ← requireExpression "expression"
    requireTerminator
    skipTrivia
    let cases ← many (caseBlock block)
    let _ ← mark
    let otherwise ← opt (elseBlock block)
    requireEnd .Select
    return fun span => .select subject cases otherwise span

/-- The statement that a first word introduces. -/
def codeStatement : Option Keyword → Parse Statement
  | some .Set => assignment
  | some .Let => assignment
  | some .Dim => localVariables
  | some .Static => localVariables
  | some .ReDim => redim
  | some .Exit => exit
  | some .GoTo => jump
  | some .GoSub => jump
  | some .On => onError
  | some .Resume => resume
  | some .Call => explicitCall
  | some .RaiseEvent => raiseEvent
  | some .While => whileLoop block
  | some .Do => doLoop block
  | some .For => forLoop block
  | some .If => conditional block
  | some .With => withBlock block
  | some .Select => select block
  | _ => firstOf [assignment, label, implicitCall]

end Compound

/-- A statement whose blocks are made of statements of a given parser. -/
def statementWith (inner : Parse Statement) : Parse Statement :=
  firstOf
    [.comment <$> read comment, .emptyLine <$> read emptyLine,
      fun inside c => codeStatement (many inner) c.peekKeyword inside c]

def statement : Parse Statement := fix statementWith

/-- Statements up to the first line that is none. -/
def block : Parse (List Statement) := many statement

end Grammar

end VisualBasic
