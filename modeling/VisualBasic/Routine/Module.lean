import VisualBasic.Grammar.Module
import VisualBasic.Routine.Statement

/-!
# Routines for procedures and modules

Comments are tried before anything else, so that a line that starts with `Rem` is always a comment.
A module that fails to parse is reported.
-/

set_option autoImplicit false

namespace VisualBasic

namespace Routine

open Grammar (PropertyKind arrayBase?)

variable {α η : Type}

def subHead : Routine Head := plainHead .subHead .Sub "sub name"

def functionHead : Routine FunctionHead :=
  sentence .functionHead do
    let access ← access
    met (Scanner.keyword .Function)
    let name ← expectName "function name"
    let parameters ← procedureParameters
    let returnType ← optional (Scanner.keyword .As) typeName
    return fun span => ⟨⟨access, name, parameters, span⟩, returnType⟩

/-- The head of a property; only one that is read has a type. -/
def propertyHead : Routine PropertyHead :=
  sentence .propertyHead do
    let access ← access
    met (Scanner.keyword .Property)
    let kind ← require (.choice ["Get", "Let"] "Set")
      (found (Scanner.oneOf [(.Let, PropertyKind.letter), (.Set, .setter), (.Get, .getter)]))
    let name ← expectName "property name"
    let parameters ← procedureParameters
    let returnType ←
      (if kind = .getter then optional (Scanner.keyword .As) typeName else pure none)
    return fun span =>
      let head : Head := ⟨access, name, parameters, span⟩
      match kind with
      | .letter => .letter head
      | .setter => .setter head
      | .getter => .getter ⟨head, returnType⟩

def letterHead : Routine Head :=
  rule .propertyHead do
    match ← propertyHead with
    | .letter head => return head
    | _ => unmatched

def setterHead : Routine Head :=
  rule .propertyHead do
    match ← propertyHead with
    | .setter head => return head
    | _ => unmatched

def getterHead : Routine FunctionHead :=
  rule .propertyHead do
    match ← propertyHead with
    | .getter head => return head
    | _ => unmatched

/-- A head, the block under it and the words that close it. -/
def definition (construct : Construct) (head : Routine η) (k : Keyword) :
    Routine (Definition η) :=
  sentence construct do
    let head ← head
    let body ← block
    expectEnd k
    return fun span => ⟨head, body, span⟩

def subDefinition : Routine (Definition Head) := definition .sub subHead .Sub

def functionDefinition : Routine (Definition FunctionHead) :=
  definition .function functionHead .Function

def propertyDefinition : Routine (Definition PropertyHead) :=
  definition .property propertyHead .Property

/-- Names with dots between them. -/
def attributeName : Routine String := do
  let first ← expectName "attribute name"
  let rest ← collect (optional (Scanner.adjacent '.') (expectName "attribute name"))
  return ".".intercalate (first :: rest)

/-- A string, or any other literal as it is written. -/
def attributeValue : Routine String := do
  let start ← mark
  match ← scan Scanner.quoted with
  | some text => return text
  | none =>
    let _ ← require (.part "attribute value") literal
    let stop ← place
    return start.textTo stop

def attributeLine : Routine Attribute :=
  sentence .attribute do
    met (Scanner.keyword .Attribute)
    let name ← attributeName
    expectSymbol '='
    let value ← attributeValue
    return fun span => ⟨name, value, span⟩

def moduleOption : Routine ModuleOption :=
  firstOf
    [(do
        met (Scanner.keyword .Explicit)
        return .explicit),
      (do
        met (Scanner.keyword .Compare)
        require (.choice ["Text"] "Binary")
          (found (Scanner.oneOf [(.Text, .compareText), (.Binary, .compareBinary)]))),
      (do
        met (Scanner.keyword .Base)
        expectNumber (.choice ["0"] "1") arrayBase?),
      (do
        met (Scanner.keyword .Private)
        expectKeyword .Module
        return .privateModule)]

def optionLine : Routine OptionLine :=
  sentence .option do
    met (Scanner.keyword .Option)
    let option ← require (.choice ["Explicit", "Compare", "Base"] "Private Module") moduleOption
    return fun span => ⟨option, span⟩

def item : Routine Item :=
  firstOf
    [.comment <$> comment, .emptyLine <$> emptyLine, .attributeLine <$> attributeLine,
      .optionLine <$> optionLine, .declaration <$> declaration,
      (fun d => .procedure (.sub d)) <$> subDefinition,
      (fun d => .procedure (.function d)) <$> functionDefinition,
      (fun d => .procedure (.property d)) <$> propertyDefinition]

/-- Fails at what follows the items, with the keyword that its first word may be meant for. -/
def refuseRest : Routine α := do
  let diagnostic ← error (.part "module-level declaration or procedure")
  let word ← scan Scanner.peekWord
  match word.bind suggestKeyword with
  | some k => raise { diagnostic with suggestion := some k.spelling }
  | none => raise diagnostic

/-- A whole source. -/
def module : Routine Module := do
  let items ← collect (attempt item)
  if ← scan Scanner.isFinished then return ⟨items⟩ else refuseRest

/-- Reports the diagnostic of a routine that fails. -/
def reported (m : Routine α) : Routine α := ⟨fun s =>
  let ran := m.run s
  match ran.step with
  | .failed diagnostic =>
    let report := ran.session.report
    ⟨.failed (report.stamp diagnostic), { ran.session with report := report.add diagnostic },
      ran.comments⟩
  | _ => ran⟩

/-- Requires that only blanks remain. -/
def finish : Routine Unit := do
  if ← scan Scanner.isFinished then return () else fail (.part "end of input")

end Routine

end VisualBasic
