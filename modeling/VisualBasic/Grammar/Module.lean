import VisualBasic.Grammar.Statement
import VisualBasic.Tree.Module

/-!
# The grammar of procedures and modules

A module is a list of items up to the end of the source. Comments are tried before anything else, so
that a line that starts with `Rem` is always a comment.
-/

set_option autoImplicit false

namespace VisualBasic

namespace Grammar

open Parse

def subHead : Parse Head := plainHead .subHead .Sub "sub name"

def functionHead : Parse FunctionHead :=
  sentence .functionHead do
    let access ← access
    keyword .Function
    let name ← requireName "function name"
    let parameters ← procedureParameters
    let returnType ← after .As typeName
    return fun span => ⟨⟨access, name, parameters, span⟩, returnType⟩

/-- The three kinds of property heads. -/
inductive PropertyKind where
  | letter
  | setter
  | getter
  deriving DecidableEq, Repr

/-- The head of a property; only one that is read has a type. -/
def propertyHead : Parse PropertyHead :=
  sentence .propertyHead do
    let access ← access
    keyword .Property
    let kind ← require (.choice ["Get", "Let"] "Set")
      (oneOf [(.Let, PropertyKind.letter), (.Set, .setter), (.Get, .getter)])
    let name ← requireName "property name"
    let parameters ← procedureParameters
    let returnType ← (if kind = .getter then after .As typeName else pure none)
    return fun span =>
      let head : Head := ⟨access, name, parameters, span⟩
      match kind with
      | .letter => .letter head
      | .setter => .setter head
      | .getter => .getter ⟨head, returnType⟩

def letterHead : Parse Head :=
  within .propertyHead do
    match (← propertyHead) with
    | .letter head => return head
    | _ => Parse.unmatched

def setterHead : Parse Head :=
  within .propertyHead do
    match (← propertyHead) with
    | .setter head => return head
    | _ => Parse.unmatched

def getterHead : Parse FunctionHead :=
  within .propertyHead do
    match (← propertyHead) with
    | .getter head => return head
    | _ => Parse.unmatched

/-- A head, the block under it and the words that close it. -/
def definition {η : Type} (construct : Construct) (head : Parse η) (k : Keyword) :
    Parse (Definition η) :=
  sentence construct do
    let head ← head
    let body ← block
    requireEnd k
    return fun span => ⟨head, body, span⟩

def subDefinition : Parse (Definition Head) := definition .sub subHead .Sub

def functionDefinition : Parse (Definition FunctionHead) :=
  definition .function functionHead .Function

def propertyDefinition : Parse (Definition PropertyHead) :=
  definition .property propertyHead .Property

/-- Names with dots between them. -/
def attributeName : Parse String := do
  let first ← requireName "attribute name"
  let rest ← many (adjacent '.' *> requireName "attribute name")
  return ".".intercalate (first :: rest)

/-- A string, or any other literal as it is written. -/
def attributeValue : Parse String := do
  let start ← mark
  orElse (read Cursor.quoted) do
    let _ ← require (.part "attribute value") (read literal)
    let stop ← here
    return start.textTo stop

def attributeLine : Parse Attribute :=
  sentence .attribute do
    keyword .Attribute
    let name ← attributeName
    requireSymbol '='
    let value ← attributeValue
    return fun span => ⟨name, value, span⟩

/-- The base of an array that a number gives. -/
def arrayBase? (number : Literal) : Option ModuleOption :=
  if number = .integer .decimal 0 then some .base0
  else if number = .integer .decimal 1 then some .base1
  else none

def moduleOption : Parse ModuleOption :=
  firstOf
    [keyword .Explicit *> pure .explicit,
      keyword .Compare *> require (.choice ["Text"] "Binary")
        (oneOf [(.Text, .compareText), (.Binary, .compareBinary)]),
      keyword .Base *> requireNumber (.choice ["0"] "1") arrayBase?,
      keyword .Private *> requireKeyword .Module *> pure .privateModule]

def optionLine : Parse OptionLine :=
  sentence .option do
    keyword .Option
    let option ← require (.choice ["Explicit", "Compare", "Base"] "Private Module") moduleOption
    return fun span => ⟨option, span⟩

def item : Parse Item :=
  firstOf
    [.comment <$> read comment, .emptyLine <$> read emptyLine, .attributeLine <$> attributeLine,
      .optionLine <$> optionLine, .declaration <$> declaration,
      (fun d => .procedure (.sub d)) <$> subDefinition,
      (fun d => .procedure (.function d)) <$> functionDefinition,
      (fun d => .procedure (.property d)) <$> propertyDefinition]

/-- Whether only blanks remain. -/
def isFinished (c : Cursor) : Bool := c.skipBlanks.isAtEnd

/-- Suggests the keyword that the word at the place of a failure may have been meant for. -/
def suggestWord (failure : Failure) : Failure :=
  { failure with suggestion := failure.place.peekWord.bind suggestKeyword }

/-- Requires that only blanks remain. -/
def requireEndOfSource (expected : Expected) : Parse Unit := fun inside c =>
  if isFinished c then .matched () c else fail expected inside c

/-- A whole source. -/
def module : Parse Module := do
  let items ← many item
  advise suggestWord (requireEndOfSource (.part "module-level declaration or procedure"))
  return ⟨items⟩

end Grammar

end VisualBasic
