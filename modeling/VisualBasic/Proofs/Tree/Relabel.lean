import VisualBasic.Tree.Module

/-!
# Relabelling trees

A relabelling changes the spans of a tree, the letters of its texts and the contents of its
comments, and leaves its shape and all else alone. Two trees are compared up to spans, or with the
spans of one moved, by relabelling both.
-/

set_option autoImplicit false

namespace VisualBasic

structure Relabel where
  span : Span → Span
  /-- Applied to each character of names, strings and values. -/
  letter : Char → Char
  /-- Applied to the contents of comments. -/
  remark : String → String

namespace Relabel

/-- Leaves everything as it is. -/
def same : Relabel := ⟨id, id, id⟩

/-- Moves all spans forward by a number of bytes. -/
def shift (bytes : Nat) : Relabel := ⟨fun span => ⟨span.start + bytes, span.stop + bytes⟩, id, id⟩

/-- Puts all spans at the start of the text. -/
def erase : Relabel := ⟨fun _ => ⟨0, 0⟩, id, id⟩

/-- Leaves a value without spans and texts as it is. -/
def plain {α : Type} (_ : Relabel) (value : α) : α := value

@[simp] theorem plain_eq_id {α : Type} (r : Relabel) : r.plain = (id : α → α) := rfl

def text (r : Relabel) (value : String) : String := String.ofList (value.toList.map r.letter)

end Relabel

/-! ## Expressions -/

def Literal.relabel (r : Relabel) : Literal → Literal
  | .string value => .string (r.text value)
  | literal => literal

mutual

def Expression.relabel (r : Relabel) : Expression → Expression
  | .literal value span => .literal (value.relabel r) (r.span span)
  | .reference target => .reference (target.relabel r)
  | .call call => .call (call.relabel r)

def Call.relabel (r : Relabel) : Call → Call
  | ⟨name, arguments, span⟩ => ⟨r.text name, relabelExpressions r arguments, r.span span⟩

def relabelExpressions (r : Relabel) : List Expression → List Expression
  | [] => []
  | e :: rest => e.relabel r :: relabelExpressions r rest

def Segment.relabel (r : Relabel) : Segment → Segment
  | .name text => .name (r.text text)
  | .call call => .call (call.relabel r)

def relabelSegments (r : Relabel) : List Segment → List Segment
  | [] => []
  | s :: rest => s.relabel r :: relabelSegments r rest

def Qualifier.relabel (r : Relabel) : Qualifier → Qualifier
  | ⟨leadingDot, segments, span⟩ => ⟨leadingDot, relabelSegments r segments, r.span span⟩

def Reference.relabel (r : Relabel) : Reference → Reference
  | ⟨qualifier, name, span⟩ => ⟨qualifier.relabel r, r.text name, r.span span⟩

end

theorem relabelExpressions_eq_map (r : Relabel) (values : List Expression) :
    relabelExpressions r values = values.map (Expression.relabel r) := by
  induction values with
  | nil => rfl
  | cons e rest ih => rw [relabelExpressions, ih, List.map_cons]

theorem relabelSegments_eq_map (r : Relabel) (segments : List Segment) :
    relabelSegments r segments = segments.map (Segment.relabel r) := by
  induction segments with
  | nil => rfl
  | cons s rest ih => rw [relabelSegments, ih, List.map_cons]

/-! ## Declarations -/

def Variable.relabel (r : Relabel) (declared : Variable) : Variable :=
  { declared with
    name := r.text declared.name
    typeName := declared.typeName.map r.text
    span := r.span declared.span }

def VariableGroup.relabel (r : Relabel) (group : VariableGroup) : VariableGroup :=
  { group with members := group.members.map (Variable.relabel r), span := r.span group.span }

def Constant.relabel (r : Relabel) (constant : Constant) : Constant :=
  ⟨constant.declared.relabel r, constant.value.relabel r⟩

def ConstantGroup.relabel (r : Relabel) (group : ConstantGroup) : ConstantGroup :=
  { group with constants := group.constants.map (Constant.relabel r), span := r.span group.span }

def Record.relabel (r : Relabel) (record : Record) : Record :=
  { record with
    name := r.text record.name
    members := record.members.map (Variable.relabel r)
    span := r.span record.span }

def EnumItem.relabel (r : Relabel) (item : EnumItem) : EnumItem :=
  ⟨r.text item.name, item.value.map (Literal.relabel r)⟩

def Enumeration.relabel (r : Relabel) (declared : Enumeration) : Enumeration :=
  { declared with
    name := r.text declared.name
    items := declared.items.map (EnumItem.relabel r)
    span := r.span declared.span }

def Parameter.relabel (r : Relabel) (parameter : Parameter) : Parameter :=
  { parameter with
    declared := parameter.declared.relabel r
    default := parameter.default.map (Literal.relabel r) }

def External.relabel (r : Relabel) (declared : External) : External :=
  { declared with
    name := r.text declared.name
    library := r.text declared.library
    entryPoint := declared.entryPoint.map r.text
    parameters := declared.parameters.map (Parameter.relabel r)
    span := r.span declared.span }

def ExternalFunction.relabel (r : Relabel) (declared : ExternalFunction) : ExternalFunction :=
  ⟨declared.toExternal.relabel r, declared.returnType.map r.text⟩

def Head.relabel (r : Relabel) (head : Head) : Head :=
  { head with
    name := r.text head.name
    parameters := head.parameters.map (Parameter.relabel r)
    span := r.span head.span }

def FunctionHead.relabel (r : Relabel) (head : FunctionHead) : FunctionHead :=
  ⟨head.toHead.relabel r, head.returnType.map r.text⟩

def PropertyHead.relabel (r : Relabel) : PropertyHead → PropertyHead
  | .letter head => .letter (head.relabel r)
  | .setter head => .setter (head.relabel r)
  | .getter head => .getter (head.relabel r)

def Declaration.relabel (r : Relabel) : Declaration → Declaration
  | .variableGroup group => .variableGroup (group.relabel r)
  | .constantGroup group => .constantGroup (group.relabel r)
  | .enumeration declared => .enumeration (declared.relabel r)
  | .record declared => .record (declared.relabel r)
  | .externalSub declared => .externalSub (declared.relabel r)
  | .externalFunction declared => .externalFunction (declared.relabel r)
  | .event head => .event (head.relabel r)

/-! ## Statements -/

def Comment.relabel (r : Relabel) (note : Comment) : Comment :=
  ⟨r.remark note.content, r.span note.span⟩

def EmptyLine.relabel (r : Relabel) (line : EmptyLine) : EmptyLine := ⟨r.span line.span⟩

def ErrorResponse.relabel (r : Relabel) : ErrorResponse → ErrorResponse
  | .goToLabel label => .goToLabel (r.text label)
  | response => response

def ResumePoint.relabel (r : Relabel) : ResumePoint → ResumePoint
  | .label name => .label (r.text name)
  | point => point

def LoopTest.relabel (r : Relabel) (test : LoopTest) : LoopTest :=
  { test with condition := test.condition.relabel r }

def CaseClause.relabel (r : Relabel) : CaseClause → CaseClause
  | .value subject => .value (subject.relabel r)
  | .range first last => .range (first.relabel r) (last.relabel r)
  | .relational relation bound => .relational relation (bound.relabel r)

mutual

def Statement.relabel (r : Relabel) : Statement → Statement
  | .comment note => .comment (note.relabel r)
  | .emptyLine line => .emptyLine (line.relabel r)
  | .assign kind target value span =>
    .assign kind (target.relabel r) (value.relabel r) (r.span span)
  | .localVariables kind declared span =>
    .localVariables kind (declared.map (Variable.relabel r)) (r.span span)
  | .redim isPreserved array dimensions span =>
    .redim isPreserved (array.relabel r) (dimensions.map (Expression.relabel r)) (r.span span)
  | .exit kind span => .exit kind (r.span span)
  | .jump kind label span => .jump kind (r.text label) (r.span span)
  | .onError response span => .onError (response.relabel r) (r.span span)
  | .resume point span => .resume (point.relabel r) (r.span span)
  | .label name span => .label (r.text name) (r.span span)
  | .call procedure arguments isExplicit span =>
    .call (r.text procedure) (arguments.map (Expression.relabel r)) isExplicit (r.span span)
  | .raiseEvent event arguments span =>
    .raiseEvent (r.text event) (arguments.map (Expression.relabel r)) (r.span span)
  | .whileLoop condition body span =>
    .whileLoop (condition.relabel r) (relabelBlock r body) (r.span span)
  | .endlessLoop body span => .endlessLoop (relabelBlock r body) (r.span span)
  | .testFirstLoop test body span =>
    .testFirstLoop (test.relabel r) (relabelBlock r body) (r.span span)
  | .testLastLoop body test span =>
    .testLastLoop (relabelBlock r body) (test.relabel r) (r.span span)
  | .forLoop counter first last step body span =>
    .forLoop (counter.relabel r) (first.relabel r) (last.relabel r)
      (step.map (Expression.relabel r)) (relabelBlock r body) (r.span span)
  | .forEach element collection body span =>
    .forEach (element.relabel r) (collection.relabel r) (relabelBlock r body) (r.span span)
  | .conditional first others otherwise span =>
    .conditional (first.relabel r) (relabelBranches r others) (relabelOtherwise r otherwise)
      (r.span span)
  | .withBlock target body span => .withBlock (target.relabel r) (relabelBlock r body) (r.span span)
  | .select subject cases otherwise span =>
    .select (subject.relabel r) (relabelCases r cases) (relabelOtherwise r otherwise) (r.span span)

def relabelBlock (r : Relabel) : List Statement → List Statement
  | [] => []
  | s :: rest => s.relabel r :: relabelBlock r rest

def relabelOtherwise (r : Relabel) : Option (List Statement) → Option (List Statement)
  | none => none
  | some body => some (relabelBlock r body)

def Branch.relabel (r : Relabel) : Branch → Branch
  | ⟨condition, body, span⟩ => ⟨condition.relabel r, relabelBlock r body, r.span span⟩

def relabelBranches (r : Relabel) : List Branch → List Branch
  | [] => []
  | b :: rest => b.relabel r :: relabelBranches r rest

def CaseBlock.relabel (r : Relabel) : CaseBlock → CaseBlock
  | ⟨clauses, body, span⟩ =>
    ⟨clauses.map (CaseClause.relabel r), relabelBlock r body, r.span span⟩

def relabelCases (r : Relabel) : List CaseBlock → List CaseBlock
  | [] => []
  | b :: rest => b.relabel r :: relabelCases r rest

end

theorem relabelBlock_eq_map (r : Relabel) (block : List Statement) :
    relabelBlock r block = block.map (Statement.relabel r) := by
  induction block with
  | nil => rfl
  | cons s rest ih => rw [relabelBlock, ih, List.map_cons]

theorem relabelOtherwise_eq_map (r : Relabel) (otherwise : Option (List Statement)) :
    relabelOtherwise r otherwise = otherwise.map (relabelBlock r) := by
  cases otherwise <;> rfl

theorem relabelBranches_eq_map (r : Relabel) (branches : List Branch) :
    relabelBranches r branches = branches.map (Branch.relabel r) := by
  induction branches with
  | nil => rfl
  | cons b rest ih => rw [relabelBranches, ih, List.map_cons]

theorem relabelCases_eq_map (r : Relabel) (cases : List CaseBlock) :
    relabelCases r cases = cases.map (CaseBlock.relabel r) := by
  induction cases with
  | nil => rfl
  | cons b rest ih => rw [relabelCases, ih, List.map_cons]

/-! ## Modules -/

def Attribute.relabel (r : Relabel) (entry : Attribute) : Attribute :=
  ⟨r.text entry.name, r.text entry.value, r.span entry.span⟩

def OptionLine.relabel (r : Relabel) (line : OptionLine) : OptionLine :=
  { line with span := r.span line.span }

def Definition.relabel {η : Type} (head : Relabel → η → η) (r : Relabel)
    (definition : Definition η) : Definition η :=
  ⟨head r definition.head, relabelBlock r definition.body, r.span definition.span⟩

def Procedure.relabel (r : Relabel) : Procedure → Procedure
  | .sub definition => .sub (definition.relabel Head.relabel r)
  | .function definition => .function (definition.relabel FunctionHead.relabel r)
  | .property definition => .property (definition.relabel PropertyHead.relabel r)

def Item.relabel (r : Relabel) : Item → Item
  | .comment note => .comment (note.relabel r)
  | .emptyLine line => .emptyLine (line.relabel r)
  | .attributeLine entry => .attributeLine (entry.relabel r)
  | .optionLine line => .optionLine (line.relabel r)
  | .declaration declared => .declaration (declared.relabel r)
  | .procedure definition => .procedure (definition.relabel r)

def Module.relabel (r : Relabel) (tree : Module) : Module := ⟨tree.items.map (Item.relabel r)⟩

/-! ## Leaving everything as it is -/

namespace Relabel

@[simp] theorem text_same (value : String) : same.text value = value := by
  simp [text, same]

@[simp] theorem span_same (span : Span) : same.span span = span := rfl

@[simp] theorem remark_same (content : String) : same.remark content = content := rfl

@[simp] theorem map_text_same (found : Option String) : found.map same.text = found := by
  cases found <;> simp

end Relabel

open Relabel (same)

/-- Values that do not change make lists that do not change. -/
theorem map_eq_self {α : Type} {f : α → α} (h : ∀ value, f value = value) (values : List α) :
    values.map f = values := by
  rw [funext h, List.map_id']

theorem option_map_eq_self {α : Type} {f : α → α} (h : ∀ value, f value = value)
    (value : Option α) : value.map f = value := by
  rw [funext h, Option.map_id']

@[simp] theorem Literal.relabel_same (literal : Literal) : literal.relabel same = literal := by
  cases literal <;> simp [Literal.relabel]

mutual

theorem Expression.relabel_same : ∀ e : Expression, e.relabel same = e
  | .literal value span => by simp [Expression.relabel]
  | .reference target => by rw [Expression.relabel, target.relabel_same]
  | .call call => by rw [Expression.relabel, call.relabel_same]

theorem Call.relabel_same : ∀ call : Call, call.relabel same = call
  | ⟨name, arguments, span⟩ => by simp [Call.relabel, relabelExpressions_same arguments]

theorem relabelExpressions_same : ∀ values, relabelExpressions same values = values
  | [] => rfl
  | e :: rest => by rw [relabelExpressions, e.relabel_same, relabelExpressions_same rest]

theorem Segment.relabel_same : ∀ segment : Segment, segment.relabel same = segment
  | .name text => by simp [Segment.relabel]
  | .call call => by rw [Segment.relabel, call.relabel_same]

theorem relabelSegments_same : ∀ segments, relabelSegments same segments = segments
  | [] => rfl
  | s :: rest => by rw [relabelSegments, s.relabel_same, relabelSegments_same rest]

theorem Qualifier.relabel_same : ∀ qualifier : Qualifier, qualifier.relabel same = qualifier
  | ⟨leadingDot, segments, span⟩ => by simp [Qualifier.relabel, relabelSegments_same segments]

theorem Reference.relabel_same : ∀ target : Reference, target.relabel same = target
  | ⟨qualifier, name, span⟩ => by simp [Reference.relabel, qualifier.relabel_same]

end

attribute [simp] Expression.relabel_same Reference.relabel_same

@[simp] theorem Variable.relabel_same (declared : Variable) : declared.relabel same = declared := by
  simp [Variable.relabel]

@[simp] theorem Constant.relabel_same (constant : Constant) : constant.relabel same = constant := by
  simp [Constant.relabel]

@[simp] theorem EnumItem.relabel_same (item : EnumItem) : item.relabel same = item := by
  simp [EnumItem.relabel, option_map_eq_self Literal.relabel_same]

@[simp] theorem Parameter.relabel_same (parameter : Parameter) :
    parameter.relabel same = parameter := by
  simp [Parameter.relabel, option_map_eq_self Literal.relabel_same]

@[simp] theorem External.relabel_same (declared : External) : declared.relabel same = declared := by
  simp [External.relabel, map_eq_self Parameter.relabel_same]

@[simp] theorem Head.relabel_same (head : Head) : head.relabel same = head := by
  simp [Head.relabel, map_eq_self Parameter.relabel_same]

@[simp] theorem FunctionHead.relabel_same (head : FunctionHead) : head.relabel same = head := by
  simp [FunctionHead.relabel]

@[simp] theorem PropertyHead.relabel_same (head : PropertyHead) : head.relabel same = head := by
  cases head <;> simp [PropertyHead.relabel]

@[simp] theorem VariableGroup.relabel_same (group : VariableGroup) :
    group.relabel same = group := by
  simp [VariableGroup.relabel, map_eq_self Variable.relabel_same]

@[simp] theorem ConstantGroup.relabel_same (group : ConstantGroup) :
    group.relabel same = group := by
  simp [ConstantGroup.relabel, map_eq_self Constant.relabel_same]

@[simp] theorem Record.relabel_same (record : Record) : record.relabel same = record := by
  simp [Record.relabel, map_eq_self Variable.relabel_same]

@[simp] theorem Enumeration.relabel_same (declared : Enumeration) :
    declared.relabel same = declared := by
  simp [Enumeration.relabel, map_eq_self EnumItem.relabel_same]

@[simp] theorem ExternalFunction.relabel_same (declared : ExternalFunction) :
    declared.relabel same = declared := by
  simp [ExternalFunction.relabel]

@[simp] theorem Declaration.relabel_same (declared : Declaration) :
    declared.relabel same = declared := by
  cases declared <;> simp [Declaration.relabel]

@[simp] theorem Comment.relabel_same (note : Comment) : note.relabel same = note := rfl

@[simp] theorem EmptyLine.relabel_same (line : EmptyLine) : line.relabel same = line := rfl

@[simp] theorem LoopTest.relabel_same (test : LoopTest) : test.relabel same = test := by
  simp [LoopTest.relabel]

@[simp] theorem CaseClause.relabel_same (clause : CaseClause) : clause.relabel same = clause := by
  cases clause <;> simp [CaseClause.relabel]

mutual

theorem Statement.relabel_same : ∀ s : Statement, s.relabel same = s
  | .comment _ | .emptyLine _ | .exit _ _ => rfl
  | .assign _ _ _ _ | .jump _ _ _ | .label _ _ => by simp [Statement.relabel]
  | .localVariables _ declared _ => by
    simp [Statement.relabel, map_eq_self Variable.relabel_same declared]
  | .redim _ _ values _ | .call _ values _ _ | .raiseEvent _ values _ => by
    simp [Statement.relabel, map_eq_self Expression.relabel_same values]
  | .onError response _ => by cases response <;> simp [Statement.relabel, ErrorResponse.relabel]
  | .resume point _ => by cases point <;> simp [Statement.relabel, ResumePoint.relabel]
  | .whileLoop _ body _ | .endlessLoop body _ | .testFirstLoop _ body _ | .testLastLoop body _ _
  | .forEach _ _ body _ | .withBlock _ body _ => by
    simp [Statement.relabel, relabelBlock_same body]
  | .forLoop _ _ _ step body _ => by
    simp [Statement.relabel, option_map_eq_self Expression.relabel_same step,
      relabelBlock_same body]
  | .conditional first others otherwise _ => by
    simp [Statement.relabel, first.relabel_same, relabelBranches_same others,
      relabelOtherwise_same otherwise]
  | .select _ cases otherwise _ => by
    simp [Statement.relabel, relabelCases_same cases, relabelOtherwise_same otherwise]

theorem relabelBlock_same : ∀ block, relabelBlock same block = block
  | [] => rfl
  | s :: rest => by rw [relabelBlock, s.relabel_same, relabelBlock_same rest]

theorem relabelOtherwise_same : ∀ otherwise, relabelOtherwise same otherwise = otherwise
  | none => rfl
  | some body => by rw [relabelOtherwise, relabelBlock_same body]

theorem Branch.relabel_same : ∀ branch : Branch, branch.relabel same = branch
  | ⟨_, body, _⟩ => by simp [Branch.relabel, relabelBlock_same body]

theorem relabelBranches_same : ∀ branches, relabelBranches same branches = branches
  | [] => rfl
  | b :: rest => by rw [relabelBranches, b.relabel_same, relabelBranches_same rest]

theorem CaseBlock.relabel_same : ∀ block : CaseBlock, block.relabel same = block
  | ⟨clauses, body, _⟩ => by
    simp [CaseBlock.relabel, map_eq_self CaseClause.relabel_same clauses, relabelBlock_same body]

theorem relabelCases_same : ∀ cases, relabelCases same cases = cases
  | [] => rfl
  | b :: rest => by rw [relabelCases, b.relabel_same, relabelCases_same rest]

end

@[simp] theorem Attribute.relabel_same (entry : Attribute) : entry.relabel same = entry := by
  simp [Attribute.relabel]

@[simp] theorem OptionLine.relabel_same (line : OptionLine) : line.relabel same = line := rfl

theorem Definition.relabel_same {η : Type} {head : Relabel → η → η}
    (h : ∀ value, head same value = value) (definition : Definition η) :
    definition.relabel head same = definition := by
  simp [Definition.relabel, h, relabelBlock_same]

@[simp] theorem Procedure.relabel_same (procedure : Procedure) :
    procedure.relabel same = procedure := by
  cases procedure <;> simp [Procedure.relabel, Definition.relabel_same]

@[simp] theorem Item.relabel_same (item : Item) : item.relabel same = item := by
  cases item <;> simp [Item.relabel]

@[simp] theorem Module.relabel_same (tree : Module) : tree.relabel same = tree :=
  congrArg Module.mk (map_eq_self Item.relabel_same tree.items)

end VisualBasic
