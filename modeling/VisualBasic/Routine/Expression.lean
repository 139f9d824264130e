import VisualBasic.Routine.Token

/-!
# Routines for expressions

A malformed expression is not met, and none of these routines fails for good. A call is tried before
a reference, so `f(1)` is a call.
-/

set_option autoImplicit false

namespace VisualBasic

namespace Routine

/-- A number, a quoted string, `True`, `False` or `Nothing`. -/
def literal : Routine Literal :=
  firstOf
    [found Scanner.number,
      (do
        let text ← found Scanner.quoted
        return .string text),
      (do
        met (Scanner.keyword .True)
        return .boolean true),
      (do
        met (Scanner.keyword .False)
        return .boolean false),
      (do
        met (Scanner.keyword .Nothing)
        return .nothing)]

section Knot

variable (expression : Routine Expression)

/-- One more argument, after those before it. Where it is not well formed, the session stays where
that is found. -/
def argumentTurn (before : List Expression) : Routine (ForInStep (List Expression)) := do
  let argument ← expression
  if ← scan (Scanner.symbol ')') then return .done (before ++ [argument])
  else if ← scan (Scanner.symbol ',') then return .yield (before ++ [argument])
  else unmatched

def arguments : Routine (List Expression) := do
  if ← scan (Scanner.symbol ')') then return [] else loop (argumentTurn expression) []

/-- A name with its arguments in parentheses, which may be empty. -/
def call : Routine Call :=
  rule .functionCall do
    let start ← mark
    let name ← found Scanner.identifier
    met (Scanner.symbol '(')
    let values ← arguments expression
    let span ← spanFrom start
    return ⟨name, values, span⟩

def segmentBody : Routine Segment :=
  orElse
    (do
      let value ← call expression
      return .call value)
    (do
      let name ← found Scanner.identifier
      return .name name)

/-- One more segment, if a dot follows it. -/
def segmentTurn (before : List Segment) : Routine (ForInStep (List Segment)) := do
  let start ← place
  match ← attempt (segmentBody expression) with
  | none => return .done before
  | some segment =>
    if ← scan (Scanner.adjacent '.') then return .yield (before ++ [segment])
    else
      moveTo start
      return .done before

/-- A leading dot, if there is one, and the segments. An empty qualifier leaves the place as it
is. -/
def qualifier : Routine Qualifier := do
  let before ← place
  let start ← mark
  let isDotted ← scan (Scanner.adjacent '.')
  let segments ← loop (segmentTurn expression) []
  if !isDotted && segments.isEmpty then
    moveTo before
    return .none start.offset
  else
    let span ← spanFrom start
    return ⟨isDotted, segments, span⟩

def reference : Routine Reference :=
  rule .variableReference do
    let start ← mark
    let context ← qualifier expression
    let name ← found Scanner.identifier
    let span ← spanFrom start
    return ⟨context, name, span⟩

/-- An expression that starts with the next token. -/
def expressionAt (start : Cursor) : Routine Expression :=
  firstOf
    [(do
        let value ← literal
        let span ← spanFrom start
        return .literal value span),
      (do
        let value ← call expression
        return .call value),
      (do
        let target ← reference expression
        return .reference target)]

/-- An expression whose parts are read by a given routine for expressions. -/
def expressionWith : Routine Expression := do
  let before ← place
  let start ← mark
  match ← attempt (expressionAt expression start) with
  | some value => return value
  | none =>
    moveTo before
    unmatched

end Knot

def expression : Routine Expression := recurse expressionWith

def anyReference : Routine Reference := reference expression

def expectExpression (part : String) : Routine Expression := require (.part part) expression

def expectReference (part : String) : Routine Reference := require (.part part) anyReference

/-- One or more expressions; after a comma there must be another. -/
def expressionList : Routine (List Expression) :=
  separated expression (expectExpression "expression")

def expectArguments : Routine (List Expression) :=
  require (.part "argument list") (arguments expression)

end Routine

end VisualBasic
