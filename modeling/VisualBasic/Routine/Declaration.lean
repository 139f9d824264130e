import VisualBasic.Grammar.Declaration
import VisualBasic.Routine.Expression

/-!
# Routines for declarations

A declaration is not met until its own keyword is; from there on a missing part is a failure. What a
declaration has passed over before its keyword, the rule that it is run as takes back.
-/

set_option autoImplicit false

namespace VisualBasic

namespace Routine

open Grammar (accessKeywords)

def access : Routine Access := do
  let written ← scan (Scanner.oneOf accessKeywords)
  return written.getD .Unwritten

/-- A name, which a library's name and a dot may precede. -/
def typeName : Routine String := do
  let first ← expectName "type name"
  let member ← optional (Scanner.adjacent '.') (expectName "type name")
  return match member with
    | some second => first ++ "." ++ second
    | none => first

def boundValue : Routine Int32 :=
  expectNumber (.part "integer array bound") Literal.wholeNumber?

def arrayBound : Routine ArrayBound := do
  let first ← boundValue
  let last ← optional (Scanner.keyword .To) boundValue
  return match last with
    | some upper => ⟨some first, upper⟩
    | none => ⟨none, first⟩

/-- One more bound, after those before it. -/
def boundTurn (before : List ArrayBound) : Routine (ForInStep (List ArrayBound)) := do
  let bound ← arrayBound
  if ← scan (Scanner.symbol ')') then return .done (before ++ [bound])
  else if ← scan (Scanner.symbol ',') then return .yield (before ++ [bound])
  else fail (.choice [","] ")")

/-- Bounds in parentheses, which may be empty. -/
def arrayBounds : Routine (List ArrayBound) := do
  met (Scanner.symbol '(')
  if ← scan (Scanner.symbol ')') then return [] else loop boundTurn []

/-- The type after `As`, and whether `New` precedes it. -/
def variableType : Routine (Bool × String) := do
  let isNew ← scan (Scanner.keyword .New)
  let name ← typeName
  return (isNew, name)

def declaredVariable : Routine Variable :=
  rule .variable do
    let start ← mark
    let name ← found Scanner.identifier
    let bounds ← attempt arrayBounds
    let type ← optional (Scanner.keyword .As) variableType
    let span ← spanFrom start
    return ⟨name, type.map Prod.snd, type.any Prod.fst, bounds, span⟩

/-- One or more variables with commas between them. -/
def declaredVariables (first : Routine Variable) : Routine (List Variable) :=
  separated first (require (.part "variable") declaredVariable)

def variableGroup : Routine VariableGroup :=
  sentence .variableDeclaration do
    let access ← orElse (found (Scanner.oneOf accessKeywords)) do
      met (Scanner.keyword .Dim)
      return .Dim
    let withEvents ← scan (Scanner.keyword .WithEvents)
    let members ← declaredVariables declaredVariable
    return fun span => ⟨access, withEvents, members, span⟩

def constant : Routine Constant := do
  let declared ← require (.part "constant name") declaredVariable
  expectSymbol '='
  let value ← require (.part "constant value") literal
  return ⟨declared, value⟩

def constantGroup : Routine ConstantGroup :=
  sentence .constantDeclaration do
    let access ← access
    met (Scanner.keyword .Const)
    let constants ← separated constant constant
    return fun span => ⟨access, constants, span⟩

/-- One more part with its terminator, after the comments and empty lines before it. -/
def memberTurn {α : Type} (member : Routine α) (before : List α) :
    Routine (ForInStep (List α)) := do
  skipTrivia
  match ← attempt member with
  | none => return .done before
  | some value =>
    expectTerminator
    return .yield (before ++ [value])

/-- One part a line, at least one, with comments and empty lines anywhere between them. -/
def memberLines {α : Type} (member : Routine α) (expected : Expected) : Routine (List α) := do
  expectTerminator
  let members ← loop (memberTurn member) []
  if members.isEmpty then fail expected else return members

def record : Routine Record :=
  sentence .typeDeclaration do
    let access ← access
    met (Scanner.keyword .«Type»)
    let name ← expectName "type name"
    let members ← memberLines declaredVariable (.part "type member")
    expectEnd .«Type»
    return fun span => ⟨access, name, members, span⟩

def enumItem : Routine EnumItem := do
  let name ← found Scanner.identifier
  let value ← optional (Scanner.symbol '=') (require (.part "enum value") literal)
  return ⟨name, value⟩

def enumeration : Routine Enumeration :=
  sentence .enumDeclaration do
    let access ← access
    met (Scanner.keyword .Enum)
    let name ← expectName "enum name"
    let items ← memberLines enumItem (.part "enum item")
    expectEnd .Enum
    return fun span => ⟨access, name, items, span⟩

/-- A parameter. Once a word that only a parameter starts with is met, its name is required. -/
def parameter : Routine Parameter :=
  rule .parameter do
    let isOptional ← scan (Scanner.keyword .Optional)
    let passing ← scan (Scanner.oneOf [(.ByVal, .ByVal), (.ByRef, .ByRef)])
    let isParamArray ← scan (Scanner.keyword .ParamArray)
    let isCommitted := isOptional || passing.isSome || isParamArray
    let declared ←
      (if isCommitted then require (.part "parameter name") declaredVariable else declaredVariable)
    let default ← optional (Scanner.symbol '=') (require (.part "default value") literal)
    return ⟨isOptional, passing, isParamArray, declared, default⟩

def parameters : Routine (List Parameter) :=
  separated parameter (require (.part "parameter") parameter)

/-- Parameters in parentheses, which may be empty. -/
def parameterList : Routine (List Parameter) := do
  met (Scanner.symbol '(')
  let found ← attempt parameters
  expectSymbol ')'
  return found.getD []

/-- The parameters of a procedure; without parentheses there are none. -/
def procedureParameters : Routine (List Parameter) := do
  let found ← attempt parameterList
  return found.getD []

/-- A procedure of an external library; only a function has a type. -/
def externalProcedure : Routine Declaration :=
  sentence .externalDeclaration do
    let access ← access
    met (Scanner.keyword .Declare)
    let isFunction ← require (.choice ["Sub"] "Function")
      (found (Scanner.oneOf [(.Sub, false), (.Function, true)]))
    let name ← expectName "procedure name"
    expectKeyword .Lib
    let library ← expectQuoted "library name"
    let entryPoint ← optional (Scanner.keyword .Alias) (expectQuoted "alias name")
    let parameters ← procedureParameters
    let returnType ←
      (if isFunction then optional (Scanner.keyword .As) typeName else pure none)
    return fun span =>
      let common : External := ⟨access, name, library, entryPoint, parameters, span⟩
      if isFunction then .externalFunction ⟨common, returnType⟩ else .externalSub common

def externalSub : Routine External :=
  rule .externalDeclaration do
    match ← externalProcedure with
    | .externalSub declaration => return declaration
    | _ => unmatched

def externalFunction : Routine ExternalFunction :=
  rule .externalDeclaration do
    match ← externalProcedure with
    | .externalFunction declaration => return declaration
    | _ => unmatched

/-- A head without a result: access, keyword, name and parameters. -/
def plainHead (construct : Construct) (k : Keyword) (part : String) : Routine Head :=
  sentence construct do
    let access ← access
    met (Scanner.keyword k)
    let name ← expectName part
    let parameters ← procedureParameters
    return fun span => ⟨access, name, parameters, span⟩

def eventHead : Routine Head := plainHead .eventDeclaration .Event "event name"

def declaration : Routine Declaration :=
  firstOf
    [.constantGroup <$> constantGroup, .enumeration <$> enumeration, .record <$> record,
      externalProcedure, .event <$> eventHead, .variableGroup <$> variableGroup]

end Routine

end VisualBasic
