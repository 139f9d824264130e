import VisualBasic.Text.Span
import VisualBasic.Tree.Literal

/-!
# Declarations

What a module declares outside its procedures: variables, constants, records, enumerations,
procedures of external libraries and events; and the heads of the module's own procedures.
Enumerations of words of the language name their cases as the words are spelled.
-/

set_option autoImplicit false

namespace VisualBasic

inductive Access where
  | Unwritten | Dim | Global | Public | Private | Friend
  deriving DecidableEq, Repr

inductive Passing where
  | ByVal | ByRef
  deriving DecidableEq, Repr

/-- The built-in data types, as told from the name of a type. -/
inductive NativeType where
  | boolean | byte | integer | long | single | double | currency | date | string | object | variant
  /-- A type of the program's own. -/
  | nonNative
  deriving DecidableEq, Repr

namespace NativeType

/-- The names of the built-in types in lower case. -/
def names : List (String × NativeType) :=
  [("boolean", .boolean), ("byte", .byte), ("integer", .integer), ("long", .long),
    ("single", .single), ("double", .double), ("currency", .currency), ("date", .date),
    ("string", .string), ("object", .object), ("variant", .variant)]

def classify (typeName : String) : NativeType :=
  (names.lookup typeName.toLower).getD .nonNative

end NativeType

/-- One dimension of an array, with the lower bound where it is written. -/
structure ArrayBound where
  lower : Option Int32
  upper : Int32
  deriving DecidableEq, Repr

/-- A declared variable, be it a field, a parameter, local or of the module. -/
structure Variable where
  name : String
  /-- The type as written, with the library's name where it has one. -/
  typeName : Option String
  /-- Declared with `As New`. -/
  isNew : Bool
  /-- Empty for `name()`, absent for a variable that is no array. -/
  bounds : Option (List ArrayBound)
  span : Span
  deriving DecidableEq, Repr

def Variable.nativeType (declared : Variable) : Option NativeType :=
  declared.typeName.map NativeType.classify

structure VariableGroup where
  access : Access
  withEvents : Bool
  members : List Variable
  span : Span
  deriving DecidableEq, Repr

structure Constant where
  declared : Variable
  value : Literal
  deriving DecidableEq, Repr

structure ConstantGroup where
  access : Access
  constants : List Constant
  span : Span
  deriving DecidableEq, Repr

structure Record where
  access : Access
  name : String
  members : List Variable
  span : Span
  deriving DecidableEq, Repr

structure EnumItem where
  name : String
  value : Option Literal
  deriving DecidableEq, Repr

structure Enumeration where
  access : Access
  name : String
  items : List EnumItem
  span : Span
  deriving DecidableEq, Repr

structure Parameter where
  isOptional : Bool
  passing : Option Passing
  isParamArray : Bool
  declared : Variable
  default : Option Literal
  deriving DecidableEq, Repr

/-- A procedure of an external library. -/
structure External where
  access : Access
  name : String
  library : String
  /-- The procedure's name in the library, where it differs. -/
  entryPoint : Option String
  parameters : List Parameter
  span : Span
  deriving DecidableEq, Repr

structure ExternalFunction extends External where
  returnType : Option String
  deriving DecidableEq, Repr

/-- The head of a procedure without a result, and of an event. -/
structure Head where
  access : Access
  name : String
  parameters : List Parameter
  span : Span
  deriving DecidableEq, Repr

structure FunctionHead extends Head where
  returnType : Option String
  deriving DecidableEq, Repr

/-- A property is read by a function and written by a procedure for values or for objects. -/
inductive PropertyHead where
  | letter (head : Head)
  | setter (head : Head)
  | getter (head : FunctionHead)
  deriving DecidableEq, Repr

/-- What the three kinds of property heads have in common. -/
def PropertyHead.head : PropertyHead → Head
  | .letter head => head
  | .setter head => head
  | .getter head => head.toHead

inductive Declaration where
  | variableGroup (group : VariableGroup)
  | constantGroup (group : ConstantGroup)
  | enumeration (declaration : Enumeration)
  | record (declaration : Record)
  | externalSub (declaration : External)
  | externalFunction (declaration : ExternalFunction)
  | event (head : Head)
  deriving DecidableEq, Repr

def Declaration.span : Declaration → Span
  | .variableGroup group => group.span
  | .constantGroup group => group.span
  | .enumeration declaration => declaration.span
  | .record declaration => declaration.span
  | .externalSub declaration => declaration.span
  | .externalFunction declaration => declaration.span
  | .event head => head.span

end VisualBasic
