import VisualBasic.Tree.Module

/-!
# Visiting the nodes of a tree

`Module.visit` walks a module depth first and in the order of the source. A visitor sees each node
before and after what lies inside it, and may keep the walk out of a node. The condition of a loop
comes before or after its body as in the source.
-/

set_option autoImplicit false

namespace VisualBasic

/-- The nodes that a visitor sees. -/
inductive Node where
  | module (module : Module)
  | item (item : Item)
  | comment (comment : Comment)
  | attributeLine (entry : Attribute)
  | optionLine (line : OptionLine)
  | declaration (declaration : Declaration)
  | declaredVariable (declared : Variable)
  | parameter (parameter : Parameter)
  | procedure (procedure : Procedure)
  | block (block : List Statement)
  | statement (statement : Statement)
  | expression (expression : Expression)
  | literal (literal : Literal)
  | reference (target : Reference)
  | call (call : Call)

/-- A visitor gathers a state on its walk. -/
structure Visitor (σ : Type) where
  enter : Node → σ → σ
  /-- Whether the walk goes into a node. -/
  opens : Node → Bool
  leave : Node → σ → σ

namespace Visitor

variable {σ : Type}

/-- A visitor that does something on the way in only, and goes into every node. -/
def ofEnter (enter : Node → σ → σ) : Visitor σ := ⟨enter, fun _ => true, fun _ state => state⟩

/-- Enters a node, walks what lies inside and leaves it. -/
def around (v : Visitor σ) (node : Node) (inside : σ → σ) (state : σ) : σ :=
  let entered := v.enter node state
  v.leave node (if v.opens node then inside entered else entered)

/-- Visits a node with nothing inside. -/
def leaf (v : Visitor σ) (node : Node) : σ → σ := v.around node id

/-- Walks a list from its front. -/
def each {α : Type} (visit : α → σ → σ) (values : List α) (state : σ) : σ :=
  values.foldl (fun state value => visit value state) state

/-- Walks what may be missing. -/
def optional {α : Type} (visit : α → σ → σ) : Option α → σ → σ
  | none, state => state
  | some value, state => visit value state

def literal (v : Visitor σ) (value : Literal) : σ → σ := v.leaf (.literal value)

mutual

def expression (v : Visitor σ) : Expression → σ → σ
  | e@(.literal value _) => v.around (.expression e) (v.literal value)
  | e@(.reference target) => v.around (.expression e) (v.reference target)
  | e@(.call function) => v.around (.expression e) (v.call function)

def call (v : Visitor σ) : Call → σ → σ
  | function@⟨_, arguments, _⟩ => v.around (.call function) (v.expressions arguments)

def expressions (v : Visitor σ) : List Expression → σ → σ
  | [] => id
  | e :: rest => fun state => v.expressions rest (v.expression e state)

def segment (v : Visitor σ) : Segment → σ → σ
  | .name _ => id
  | .call function => v.call function

def segments (v : Visitor σ) : List Segment → σ → σ
  | [] => id
  | s :: rest => fun state => v.segments rest (v.segment s state)

def reference (v : Visitor σ) : Reference → σ → σ
  | target@⟨⟨_, segments, _⟩, _, _⟩ => v.around (.reference target) (v.segments segments)

end

def declaredVariable (v : Visitor σ) (declared : Variable) : σ → σ :=
  v.leaf (.declaredVariable declared)

def parameter (v : Visitor σ) (parameter : Parameter) : σ → σ :=
  v.around (.parameter parameter) fun state =>
    optional v.literal parameter.default (v.declaredVariable parameter.declared state)

def parameters (v : Visitor σ) : List Parameter → σ → σ := each v.parameter

def constant (v : Visitor σ) (constant : Constant) (state : σ) : σ :=
  v.literal constant.value (v.declaredVariable constant.declared state)

def declarationParts (v : Visitor σ) : Declaration → σ → σ
  | .variableGroup group => each v.declaredVariable group.members
  | .constantGroup group => each v.constant group.constants
  | .enumeration declared =>
    each (fun (item : EnumItem) => optional v.literal item.value) declared.items
  | .record declared => each v.declaredVariable declared.members
  | .externalSub declared => v.parameters declared.parameters
  | .externalFunction declared => v.parameters declared.parameters
  | .event head => v.parameters head.parameters

def declaration (v : Visitor σ) (declared : Declaration) : σ → σ :=
  v.around (.declaration declared) (v.declarationParts declared)

def comment (v : Visitor σ) (note : Comment) : σ → σ := v.leaf (.comment note)

def caseClause (v : Visitor σ) : CaseClause → σ → σ
  | .value value => v.expression value
  | .range first last => fun state => v.expression last (v.expression first state)
  | .relational _ bound => v.expression bound

mutual

def statement (v : Visitor σ) : Statement → σ → σ
  | s@(.comment note) => v.around (.statement s) (v.comment note)
  | s@(.emptyLine _) => v.leaf (.statement s)
  | s@(.assign _ target value _) =>
    v.around (.statement s) fun state => v.expression value (v.reference target state)
  | s@(.localVariables _ declared _) =>
    v.around (.statement s) (each v.declaredVariable declared)
  | s@(.redim _ array dimensions _) =>
    v.around (.statement s) fun state => v.expressions dimensions (v.reference array state)
  | s@(.exit _ _) => v.leaf (.statement s)
  | s@(.jump _ _ _) => v.leaf (.statement s)
  | s@(.onError _ _) => v.leaf (.statement s)
  | s@(.resume _ _) => v.leaf (.statement s)
  | s@(.label _ _) => v.leaf (.statement s)
  | s@(.call _ arguments _ _) => v.around (.statement s) (v.expressions arguments)
  | s@(.raiseEvent _ arguments _) => v.around (.statement s) (v.expressions arguments)
  | s@(.whileLoop condition body _) =>
    v.around (.statement s) fun state =>
      v.around (.block body) (v.statements body) (v.expression condition state)
  | s@(.endlessLoop body _) =>
    v.around (.statement s) (v.around (.block body) (v.statements body))
  | s@(.testFirstLoop test body _) =>
    v.around (.statement s) fun state =>
      v.around (.block body) (v.statements body) (v.expression test.condition state)
  | s@(.testLastLoop body test _) =>
    v.around (.statement s) fun state =>
      v.expression test.condition (v.around (.block body) (v.statements body) state)
  | s@(.forLoop counter first last step body _) =>
    v.around (.statement s) fun state =>
      v.around (.block body) (v.statements body) <|
        optional v.expression step <|
          v.expression last <| v.expression first <| v.reference counter state
  | s@(.forEach element collection body _) =>
    v.around (.statement s) fun state =>
      v.around (.block body) (v.statements body) <|
        v.expression collection <| v.reference element state
  | s@(.conditional first others otherwise _) =>
    v.around (.statement s) fun state =>
      v.optionalBlock otherwise (v.branches others (v.branch first state))
  | s@(.withBlock target body _) =>
    v.around (.statement s) fun state =>
      v.around (.block body) (v.statements body) (v.reference target state)
  | s@(.select subject cases otherwise _) =>
    v.around (.statement s) fun state =>
      v.optionalBlock otherwise (v.cases cases (v.expression subject state))

def statements (v : Visitor σ) : List Statement → σ → σ
  | [] => id
  | s :: rest => fun state => v.statements rest (v.statement s state)

def branch (v : Visitor σ) : Branch → σ → σ
  | ⟨condition, body, _⟩ => fun state =>
    v.around (.block body) (v.statements body) (v.expression condition state)

def branches (v : Visitor σ) : List Branch → σ → σ
  | [] => id
  | b :: rest => fun state => v.branches rest (v.branch b state)

def caseBlock (v : Visitor σ) : CaseBlock → σ → σ
  | ⟨clauses, body, _⟩ => fun state =>
    v.around (.block body) (v.statements body) (each v.caseClause clauses state)

def cases (v : Visitor σ) : List CaseBlock → σ → σ
  | [] => id
  | c :: rest => fun state => v.cases rest (v.caseBlock c state)

def optionalBlock (v : Visitor σ) : Option (List Statement) → σ → σ
  | none => id
  | some body => v.around (.block body) (v.statements body)

end

def block (v : Visitor σ) (body : List Statement) : σ → σ :=
  v.around (.block body) (v.statements body)

def procedure (v : Visitor σ) (definition : Procedure) : σ → σ :=
  v.around (.procedure definition) fun state =>
    v.block definition.body (v.parameters definition.head.parameters state)

def itemParts (v : Visitor σ) : Item → σ → σ
  | .comment note => v.comment note
  | .emptyLine _ => id
  | .attributeLine entry => v.leaf (.attributeLine entry)
  | .optionLine line => v.leaf (.optionLine line)
  | .declaration declared => v.declaration declared
  | .procedure definition => v.procedure definition

def item (v : Visitor σ) (item : Item) : σ → σ := v.around (.item item) (v.itemParts item)

def module (v : Visitor σ) (module : Module) : σ → σ :=
  v.around (.module module) (each v.item module.items)

end Visitor

/-- The state that a visitor gathers over a module. -/
def Module.visit {σ : Type} (module : Module) (v : Visitor σ) (state : σ) : σ :=
  v.module module state

end VisualBasic
