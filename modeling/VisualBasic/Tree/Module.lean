import VisualBasic.Tree.Statement

/-!
# Modules

A module is the list of its items in the order of the source: comments and empty lines, attributes,
options, declarations and procedures.
-/

set_option autoImplicit false

namespace VisualBasic

structure Attribute where
  name : String
  value : String
  span : Span
  deriving DecidableEq, Repr

inductive ModuleOption where
  | explicit
  | base0
  | base1
  | compareText
  | compareBinary
  | privateModule
  deriving DecidableEq, Repr

def ModuleOption.name : ModuleOption → String
  | .explicit => "Explicit"
  | .base0 => "Base0"
  | .base1 => "Base1"
  | .compareText => "CompareText"
  | .compareBinary => "CompareBinary"
  | .privateModule => "PrivateModule"

structure OptionLine where
  option : ModuleOption
  span : Span
  deriving DecidableEq, Repr

/-- A head with the block of statements that it introduces. -/
structure Definition (η : Type) where
  head : η
  body : List Statement
  span : Span

inductive Procedure where
  | sub (definition : Definition Head)
  | function (definition : Definition FunctionHead)
  | property (definition : Definition PropertyHead)

namespace Procedure

/-- What the heads of all procedures have in common. -/
def head : Procedure → Head
  | .sub definition => definition.head
  | .function definition => definition.head.toHead
  | .property definition => definition.head.head

def body : Procedure → List Statement
  | .sub definition => definition.body
  | .function definition => definition.body
  | .property definition => definition.body

def span : Procedure → Span
  | .sub definition => definition.span
  | .function definition => definition.span
  | .property definition => definition.span

def kind : Procedure → String
  | .sub _ => "sub"
  | .function _ => "function"
  | .property _ => "property"

def name (procedure : Procedure) : String := procedure.head.name

end Procedure

inductive Item where
  | comment (comment : Comment)
  | emptyLine (line : EmptyLine)
  | attributeLine (entry : Attribute)
  | optionLine (line : OptionLine)
  | declaration (declaration : Declaration)
  | procedure (procedure : Procedure)

namespace Item

def span : Item → Span
  | .comment note => note.span
  | .emptyLine line => line.span
  | .attributeLine entry => entry.span
  | .optionLine line => line.span
  | .declaration declared => declared.span
  | .procedure definition => definition.span

/-- The kind of item in a word or two. -/
def kind : Item → String
  | .comment _ => "comment"
  | .emptyLine _ => "empty line"
  | .attributeLine _ => "attribute"
  | .optionLine _ => "option"
  | .declaration _ => "declaration"
  | .procedure definition => definition.kind

end Item

structure Module where
  items : List Item

end VisualBasic
