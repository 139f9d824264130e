import VisualBasic.Tree.Module
import VisualBasic.Word.Keyword

/-!
# Well-formed trees

What holds of the trees that come from a text, beyond what their types say. Names are identifiers,
lists that the syntax never leaves empty are not empty, and texts that stand on one line hold no
line break.
-/

set_option autoImplicit false

namespace VisualBasic

/-! ## Names and texts -/

def IsWord (text : String) : Prop :=
  ∃ first rest, text.toList = first :: rest ∧ isWordStart first = true ∧
    ∀ c ∈ rest, isWordChar c = true

/-- A word that spells no reserved keyword, in any letter case. -/
structure IsIdentifier (name : String) : Prop where
  word : IsWord name
  unreserved : ∀ k ∈ Keyword.reserved, sameLetters k.letters name.toList = false

/-- One or more identifiers with dots between them. -/
def IsDottedName (name : String) : Prop :=
  ∃ names, names ≠ [] ∧ name = ".".intercalate names ∧ ∀ part ∈ names, IsIdentifier part

/-- An identifier, perhaps after a dot, with the words of members after dots. -/
def IsProcedureName (name : String) : Prop :=
  ∃ (dot first : String) (members : List String), name = dot ++ first ++ String.join members ∧
    (dot = "" ∨ dot = ".") ∧ IsIdentifier first ∧
    ∀ member ∈ members, ∃ word, member = "." ++ word ∧ IsWord word

def IsUnbroken (text : String) : Prop := ∀ c ∈ text.toList, isBreak c = false

def Literal.WellFormed : Literal → Prop
  | .string value => IsUnbroken value
  | _ => True

/-! ## Expressions -/

/-- The call that a qualifier without a leading dot begins with. -/
def Qualifier.firstCall : Qualifier → Option Call
  | ⟨false, .call call :: _, _⟩ => some call
  | _ => .none

mutual

/-- A reference that begins with a call is read as the call alone, so no expression is one. -/
inductive Expression.WellFormed : Expression → Prop
  | literal {value : Literal} {span : Span} (hvalue : value.WellFormed) :
    Expression.WellFormed (.literal value span)
  | reference {target : Reference} (htarget : target.WellFormed)
    (huncalled : target.qualifier.firstCall = none) : Expression.WellFormed (.reference target)
  | call {call : Call} (hcall : call.WellFormed) : Expression.WellFormed (.call call)

inductive Call.WellFormed : Call → Prop
  | mk {call : Call} (hname : IsIdentifier call.name)
    (harguments : ∀ argument ∈ call.arguments, argument.WellFormed) : Call.WellFormed call

inductive Segment.WellFormed : Segment → Prop
  | name {text : String} (hname : IsIdentifier text) : Segment.WellFormed (.name text)
  | call {call : Call} (hcall : call.WellFormed) : Segment.WellFormed (.call call)

inductive Reference.WellFormed : Reference → Prop
  | mk {target : Reference}
    (hsegments : ∀ segment ∈ target.qualifier.segments, segment.WellFormed)
    (hname : IsIdentifier target.name) : Reference.WellFormed target

end

/-! ## Declarations -/

structure Variable.WellFormed (declared : Variable) : Prop where
  name : IsIdentifier declared.name
  type : ∀ name ∈ declared.typeName, IsDottedName name
  constructed : declared.isNew = true → declared.typeName.isSome = true

structure VariableGroup.WellFormed (group : VariableGroup) : Prop where
  access : group.access ≠ .Unwritten
  nonempty : group.members ≠ []
  members : ∀ declared ∈ group.members, declared.WellFormed

structure Constant.WellFormed (constant : Constant) : Prop where
  declared : constant.declared.WellFormed
  value : constant.value.WellFormed

structure ConstantGroup.WellFormed (group : ConstantGroup) : Prop where
  access : group.access ≠ .Dim
  nonempty : group.constants ≠ []
  constants : ∀ constant ∈ group.constants, constant.WellFormed

structure Record.WellFormed (record : Record) : Prop where
  access : record.access ≠ .Dim
  name : IsIdentifier record.name
  nonempty : record.members ≠ []
  members : ∀ declared ∈ record.members, declared.WellFormed

structure EnumItem.WellFormed (item : EnumItem) : Prop where
  name : IsIdentifier item.name
  value : ∀ value ∈ item.value, value.WellFormed

structure Enumeration.WellFormed (declared : Enumeration) : Prop where
  access : declared.access ≠ .Dim
  name : IsIdentifier declared.name
  nonempty : declared.items ≠ []
  items : ∀ item ∈ declared.items, item.WellFormed

structure Parameter.WellFormed (parameter : Parameter) : Prop where
  declared : parameter.declared.WellFormed
  default : ∀ value ∈ parameter.default, value.WellFormed

structure External.WellFormed (declared : External) : Prop where
  access : declared.access ≠ .Dim
  name : IsIdentifier declared.name
  library : IsUnbroken declared.library
  entryPoint : ∀ name ∈ declared.entryPoint, IsUnbroken name
  parameters : ∀ parameter ∈ declared.parameters, parameter.WellFormed

structure Head.WellFormed (head : Head) : Prop where
  access : head.access ≠ .Dim
  name : IsIdentifier head.name
  parameters : ∀ parameter ∈ head.parameters, parameter.WellFormed

structure FunctionHead.WellFormed (head : FunctionHead) : Prop where
  plain : head.toHead.WellFormed
  returnType : ∀ name ∈ head.returnType, IsDottedName name

def PropertyHead.WellFormed : PropertyHead → Prop
  | .letter head => head.WellFormed
  | .setter head => head.WellFormed
  | .getter head => head.WellFormed

def Declaration.WellFormed : Declaration → Prop
  | .variableGroup group => group.WellFormed
  | .constantGroup group => group.WellFormed
  | .enumeration declared => declared.WellFormed
  | .record declared => declared.WellFormed
  | .externalSub declared => declared.WellFormed
  | .externalFunction declared =>
    declared.toExternal.WellFormed ∧ ∀ name ∈ declared.returnType, IsDottedName name
  | .event head => head.WellFormed

/-! ## Statements -/

def Comment.WellFormed (note : Comment) : Prop := IsUnbroken note.content

def ErrorResponse.WellFormed : ErrorResponse → Prop
  | .goToLabel label => IsIdentifier label
  | _ => True

def ResumePoint.WellFormed : ResumePoint → Prop
  | .label name => IsIdentifier name
  | _ => True

def CaseClause.WellFormed : CaseClause → Prop
  | .value subject => subject.WellFormed
  | .range first last => first.WellFormed ∧ last.WellFormed
  | .relational _ bound => bound.WellFormed

mutual

inductive Statement.WellFormed : Statement → Prop
  | comment {note : Comment} (hnote : note.WellFormed) : Statement.WellFormed (.comment note)
  | emptyLine {line : EmptyLine} : Statement.WellFormed (.emptyLine line)
  | assign {kind : AssignmentKind} {target : Reference} {value : Expression} {span : Span}
    (htarget : target.WellFormed) (hvalue : value.WellFormed) :
    Statement.WellFormed (.assign kind target value span)
  | localVariables {kind : LocalKind} {declared : List Variable} {span : Span}
    (hnonempty : declared ≠ []) (hdeclared : ∀ member ∈ declared, member.WellFormed) :
    Statement.WellFormed (.localVariables kind declared span)
  | redim {isPreserved : Bool} {array : Reference} {dimensions : List Expression} {span : Span}
    (harray : array.WellFormed) (hnonempty : dimensions ≠ [])
    (hdimensions : ∀ dimension ∈ dimensions, dimension.WellFormed) :
    Statement.WellFormed (.redim isPreserved array dimensions span)
  | exit {kind : ExitKind} {span : Span} : Statement.WellFormed (.exit kind span)
  | jump {kind : JumpKind} {label : String} {span : Span} (hlabel : IsIdentifier label) :
    Statement.WellFormed (.jump kind label span)
  | onError {response : ErrorResponse} {span : Span} (hresponse : response.WellFormed) :
    Statement.WellFormed (.onError response span)
  | resume {point : ResumePoint} {span : Span} (hpoint : point.WellFormed) :
    Statement.WellFormed (.resume point span)
  | label {name : String} {span : Span} (hname : IsIdentifier name) :
    Statement.WellFormed (.label name span)
  | call {procedure : String} {arguments : List Expression} {isExplicit : Bool} {span : Span}
    (hprocedure : IsProcedureName procedure)
    (harguments : ∀ argument ∈ arguments, argument.WellFormed) :
    Statement.WellFormed (.call procedure arguments isExplicit span)
  | raiseEvent {event : String} {arguments : List Expression} {span : Span}
    (hevent : IsIdentifier event) (harguments : ∀ argument ∈ arguments, argument.WellFormed) :
    Statement.WellFormed (.raiseEvent event arguments span)
  | whileLoop {condition : Expression} {body : List Statement} {span : Span}
    (hcondition : condition.WellFormed) (hbody : ∀ line ∈ body, line.WellFormed) :
    Statement.WellFormed (.whileLoop condition body span)
  | endlessLoop {body : List Statement} {span : Span} (hbody : ∀ line ∈ body, line.WellFormed) :
    Statement.WellFormed (.endlessLoop body span)
  | testFirstLoop {test : LoopTest} {body : List Statement} {span : Span}
    (htest : test.condition.WellFormed) (hbody : ∀ line ∈ body, line.WellFormed) :
    Statement.WellFormed (.testFirstLoop test body span)
  | testLastLoop {body : List Statement} {test : LoopTest} {span : Span}
    (hbody : ∀ line ∈ body, line.WellFormed) (htest : test.condition.WellFormed) :
    Statement.WellFormed (.testLastLoop body test span)
  | forLoop {counter : Reference} {first last : Expression} {step : Option Expression}
    {body : List Statement} {span : Span} (hcounter : counter.WellFormed)
    (hfirst : first.WellFormed) (hlast : last.WellFormed) (hstep : ∀ value ∈ step, value.WellFormed)
    (hbody : ∀ line ∈ body, line.WellFormed) :
    Statement.WellFormed (.forLoop counter first last step body span)
  | forEach {element : Reference} {collection : Expression} {body : List Statement} {span : Span}
    (helement : element.WellFormed) (hcollection : collection.WellFormed)
    (hbody : ∀ line ∈ body, line.WellFormed) :
    Statement.WellFormed (.forEach element collection body span)
  | conditional {first : Branch} {others : List Branch} {otherwise : Option (List Statement)}
    {span : Span} (hfirst : first.WellFormed) (hothers : ∀ branch ∈ others, branch.WellFormed)
    (hotherwise : ∀ body ∈ otherwise, ∀ line ∈ body, line.WellFormed) :
    Statement.WellFormed (.conditional first others otherwise span)
  | withBlock {target : Reference} {body : List Statement} {span : Span}
    (htarget : target.WellFormed) (hbody : ∀ line ∈ body, line.WellFormed) :
    Statement.WellFormed (.withBlock target body span)
  | select {subject : Expression} {cases : List CaseBlock} {otherwise : Option (List Statement)}
    {span : Span} (hsubject : subject.WellFormed) (hcases : ∀ block ∈ cases, block.WellFormed)
    (hotherwise : ∀ body ∈ otherwise, ∀ line ∈ body, line.WellFormed) :
    Statement.WellFormed (.select subject cases otherwise span)

inductive Branch.WellFormed : Branch → Prop
  | mk {branch : Branch} (hcondition : branch.condition.WellFormed)
    (hbody : ∀ line ∈ branch.body, line.WellFormed) : Branch.WellFormed branch

inductive CaseBlock.WellFormed : CaseBlock → Prop
  | mk {block : CaseBlock} (hnonempty : block.clauses ≠ [])
    (hclauses : ∀ clause ∈ block.clauses, clause.WellFormed)
    (hbody : ∀ line ∈ block.body, line.WellFormed) : CaseBlock.WellFormed block

end

/-! ## Modules -/

structure Attribute.WellFormed (entry : Attribute) : Prop where
  name : IsDottedName entry.name
  value : IsUnbroken entry.value

structure Definition.WellFormed {η : Type} (P : η → Prop) (definition : Definition η) : Prop where
  head : P definition.head
  body : ∀ line ∈ definition.body, line.WellFormed

def Procedure.WellFormed : Procedure → Prop
  | .sub definition => definition.WellFormed Head.WellFormed
  | .function definition => definition.WellFormed FunctionHead.WellFormed
  | .property definition => definition.WellFormed PropertyHead.WellFormed

def Item.WellFormed : Item → Prop
  | .comment note => note.WellFormed
  | .emptyLine _ => True
  | .attributeLine entry => entry.WellFormed
  | .optionLine _ => True
  | .declaration declared => declared.WellFormed
  | .procedure definition => definition.WellFormed

def Module.WellFormed (tree : Module) : Prop := ∀ item ∈ tree.items, item.WellFormed

end VisualBasic
