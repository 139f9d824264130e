import VisualBasic.Grammar.Expression
import VisualBasic.Grammar.Trivia

/-!
# The grammar of declarations

A declaration may start with an access modifier. It is not met until its own keyword is; from there
on a missing part is a failure. A group of variables has no keyword of its own, so it is tried last
and is not met until its first variable is.
-/

set_option autoImplicit false

namespace VisualBasic

namespace Grammar

open Parse

def accessKeywords : List (Keyword × Access) :=
  [(.Public, .Public), (.Private, .Private), (.Friend, .Friend), (.Global, .Global)]

def access : Parse Access := do
  let written ← opt (oneOf accessKeywords)
  return written.getD .Unwritten

/-- A name, which a library's name and a dot may precede. -/
def typeName : Parse String := do
  let first ← requireName "type name"
  let member ← opt (adjacent '.' *> requireName "type name")
  return match member with
    | some second => first ++ "." ++ second
    | none => first

def boundValue : Parse Int32 := requireNumber (.part "integer array bound") Literal.wholeNumber?

def arrayBound : Parse ArrayBound := do
  let first ← boundValue
  let last ← after .To boundValue
  return match last with
    | some upper => ⟨some first, upper⟩
    | none => ⟨none, first⟩

/-- Bounds in parentheses, which may be empty. -/
def arrayBounds : Parse (List ArrayBound) := do
  symbol '('
  orElse (symbol ')' *> pure []) do
    let bounds ← separated arrayBound arrayBound
    require (.choice [","] ")") (symbol ')')
    return bounds

/-- The type after `As`, and whether `New` precedes it. -/
def variableType : Parse (Bool × String) := do
  let isNew ← flag (keyword .New)
  let name ← typeName
  return (isNew, name)

def declaredVariable : Parse Variable :=
  within .variable <| spanned do
    let name ← identifier
    let bounds ← opt arrayBounds
    let type ← after .As variableType
    return fun span => ⟨name, type.map Prod.snd, type.any Prod.fst, bounds, span⟩

/-- One or more variables with commas between them. -/
def declaredVariables (first : Parse Variable) : Parse (List Variable) :=
  separated first (require (.part "variable") declaredVariable)

def variableGroup : Parse VariableGroup :=
  sentence .variableDeclaration do
    let access ← orElse (oneOf accessKeywords) (keyword .Dim *> pure .Dim)
    let withEvents ← flag (keyword .WithEvents)
    let members ← declaredVariables declaredVariable
    return fun span => ⟨access, withEvents, members, span⟩

def constant : Parse Constant := do
  let declared ← require (.part "constant name") declaredVariable
  requireSymbol '='
  let value ← require (.part "constant value") (read literal)
  return ⟨declared, value⟩

def constantGroup : Parse ConstantGroup :=
  sentence .constantDeclaration do
    let access ← access
    keyword .Const
    let constants ← separated constant constant
    return fun span => ⟨access, constants, span⟩

/-- A part with its terminator and the comments and empty lines after it. -/
def memberLine {α : Type} (member : Parse α) : Parse α := do
  let value ← member
  requireTerminator
  skipTrivia
  return value

/-- One part a line, at least one, with comments and empty lines anywhere between them. -/
def memberLines {α : Type} (member : Parse α) (expected : Expected) : Parse (List α) := do
  requireTerminator
  skipTrivia
  let members ← many (memberLine member)
  if members.isEmpty then fail expected else return members

def record : Parse Record :=
  sentence .typeDeclaration do
    let access ← access
    keyword .«Type»
    let name ← requireName "type name"
    let members ← memberLines declaredVariable (.part "type member")
    requireEnd .«Type»
    return fun span => ⟨access, name, members, span⟩

def enumItem : Parse EnumItem := do
  let name ← identifier
  let value ← opt (symbol '=' *> require (.part "enum value") (read literal))
  return ⟨name, value⟩

def enumeration : Parse Enumeration :=
  sentence .enumDeclaration do
    let access ← access
    keyword .Enum
    let name ← requireName "enum name"
    let items ← memberLines enumItem (.part "enum item")
    requireEnd .Enum
    return fun span => ⟨access, name, items, span⟩

/-- A parameter. Once a word that only a parameter starts with is met, its name is required. -/
def parameter : Parse Parameter :=
  within .parameter do
    let isOptional ← flag (keyword .Optional)
    let passing ← opt (oneOf [(.ByVal, .ByVal), (.ByRef, .ByRef)])
    let isParamArray ← flag (keyword .ParamArray)
    let isCommitted := isOptional || passing.isSome || isParamArray
    let declared ←
      (if isCommitted then require (.part "parameter name") declaredVariable else declaredVariable)
    let default ← opt (symbol '=' *> require (.part "default value") (read literal))
    return ⟨isOptional, passing, isParamArray, declared, default⟩

def parameters : Parse (List Parameter) :=
  separated parameter (require (.part "parameter") parameter)

/-- Parameters in parentheses, which may be empty. -/
def parameterList : Parse (List Parameter) := do
  symbol '('
  let found ← opt parameters
  requireSymbol ')'
  return found.getD []

/-- The parameters of a procedure; without parentheses there are none. -/
def procedureParameters : Parse (List Parameter) := do
  let found ← opt parameterList
  return found.getD []

/-- A procedure of an external library; only a function has a type. -/
def externalProcedure : Parse Declaration :=
  sentence .externalDeclaration do
    let access ← access
    keyword .Declare
    let isFunction ← require (.choice ["Sub"] "Function") (oneOf [(.Sub, false), (.Function, true)])
    let name ← requireName "procedure name"
    requireKeyword .Lib
    let library ← requireQuoted "library name"
    let entryPoint ← after .Alias (requireQuoted "alias name")
    let parameters ← procedureParameters
    let returnType ← (if isFunction then after .As typeName else pure none)
    return fun span =>
      let common : External := ⟨access, name, library, entryPoint, parameters, span⟩
      if isFunction then .externalFunction ⟨common, returnType⟩ else .externalSub common

def externalSub : Parse External :=
  within .externalDeclaration do
    match (← externalProcedure) with
    | .externalSub declaration => return declaration
    | _ => Parse.unmatched

def externalFunction : Parse ExternalFunction :=
  within .externalDeclaration do
    match (← externalProcedure) with
    | .externalFunction declaration => return declaration
    | _ => Parse.unmatched

/-- A head without a result: access, keyword, name and parameters. -/
def plainHead (construct : Construct) (k : Keyword) (part : String) : Parse Head :=
  sentence construct do
    let access ← access
    keyword k
    let name ← requireName part
    let parameters ← procedureParameters
    return fun span => ⟨access, name, parameters, span⟩

def eventHead : Parse Head := plainHead .eventDeclaration .Event "event name"

def declaration : Parse Declaration :=
  firstOf
    [.constantGroup <$> constantGroup, .enumeration <$> enumeration, .record <$> record,
      externalProcedure, .event <$> eventHead, .variableGroup <$> variableGroup]

end Grammar

end VisualBasic
