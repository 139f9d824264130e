import VisualBasic.Proofs.Visit.Nodes

/-!
# Walks through trees

A visitor that goes into every node acts on the moves of a tour: it enters a node, makes the tour of
its parts and leaves the node. The tour does not depend on the visitor, and the nodes that it enters
come in preorder.
-/

set_option autoImplicit false

namespace VisualBasic

/-- A move of a walk: into a node or out of it. -/
inductive Move where
  | enter (node : Node)
  | leave (node : Node)

namespace Move

def entered? : Move → Option Node
  | .enter node => some node
  | .leave _ => none

end Move

/-- The moves of a walk through the trees of some nodes. -/
inductive Tour : List Node → List Move → Prop where
  | nil : Tour [] []
  | cons {node : Node} {rest : List Node} {inside after : List Move}
      (hinside : Tour node.parts inside) (hafter : Tour rest after) :
      Tour (node :: rest) (.enter node :: (inside ++ .leave node :: after))

namespace Tour

variable {nodes more : List Node} {moves other : List Move}

theorem append (h : Tour nodes moves) (hmore : Tour more other) :
    Tour (nodes ++ more) (moves ++ other) := by
  induction h with
  | nil => exact hmore
  | cons hinside _ _ ih => simpa using Tour.cons hinside ih

theorem preorder (h : Tour nodes moves) : Node.Preorder nodes (moves.filterMap Move.entered?) := by
  induction h with
  | nil => exact .nil
  | cons _ _ ihInside ihAfter =>
    simpa [List.filterMap_cons, Move.entered?] using Node.Preorder.cons ihInside ihAfter

end Tour

namespace Visitor

variable {σ : Type}

/-- What a visitor does at a move. -/
def act (v : Visitor σ) (state : σ) : Move → σ
  | .enter node => v.enter node state
  | .leave node => v.leave node state

def OpensAll (v : Visitor σ) : Prop := ∀ node, v.opens node = true

theorem opensAll_ofEnter (enter : Node → σ → σ) : (ofEnter enter).OpensAll := fun _ => rfl

/-- A way to walk, for any visitor. -/
abbrev Walk : Type 1 := (σ : Type) → Visitor σ → σ → σ

/-- A walk through the trees of some nodes makes their tour. -/
def Walks (walk : Walk) (nodes : List Node) : Prop :=
  ∃ moves, Tour nodes moves ∧
    ∀ (σ : Type) (v : Visitor σ), v.OpensAll → ∀ state, walk σ v state = moves.foldl v.act state

theorem walks_id : Walks (fun _ _ => id) [] := ⟨[], .nil, fun _ _ _ _ => rfl⟩

theorem Walks.andThen {first second : Walk} {nodes more : List Node} (h : Walks first nodes)
    (hmore : Walks second more) :
    Walks (fun σ v state => second σ v (first σ v state)) (nodes ++ more) := by
  obtain ⟨moves, htour, hmoves⟩ := h
  obtain ⟨other, htourMore, hother⟩ := hmore
  refine ⟨moves ++ other, htour.append htourMore, ?_⟩
  intro σ v hopens state
  dsimp only
  rw [List.foldl_append, hmoves σ v hopens, hother σ v hopens]

theorem Walks.around {inside : Walk} {node : Node} (h : Walks inside node.parts) :
    Walks (fun σ v => v.around node (inside σ v)) [node] := by
  obtain ⟨moves, htour, hmoves⟩ := h
  refine ⟨.enter node :: (moves ++ [.leave node]), htour.cons .nil, ?_⟩
  intro σ v hopens state
  simp [Visitor.around, hopens node, hmoves σ v hopens, act]

theorem walks_leaf {node : Node} (h : node.parts = []) : Walks (fun _ v => v.leaf node) [node] := by
  have hinside : Walks (fun _ _ => id) node.parts := by rw [h]; exact walks_id
  exact hinside.around

section Lists

variable {α : Type} {visit : (σ : Type) → Visitor σ → α → σ → σ} {nodes : α → List Node}

theorem walks_each (h : ∀ value, Walks (fun σ v => visit σ v value) (nodes value))
    (values : List α) :
    Walks (fun σ v => each (visit σ v) values) (values.flatMap nodes) := by
  induction values with
  | nil => exact walks_id
  | cons value rest ih => exact (h value).andThen ih

theorem walks_optional (h : ∀ value, Walks (fun σ v => visit σ v value) (nodes value))
    (value : Option α) :
    Walks (fun σ v => optional (visit σ v) value) (value.toList.flatMap nodes) := by
  cases value with
  | none => exact walks_id
  | some value =>
    rw [Option.toList_some, List.flatMap_singleton]
    exact h value

end Lists

/-! ## Expressions -/

theorem walks_literal (value : Literal) : Walks (fun _ v => v.literal value) [.literal value] :=
  walks_leaf rfl

mutual

theorem walks_expression : (e : Expression) → Walks (fun _ v => v.expression e) [.expression e]
  | .literal value _ => by
    simp only [expression]
    exact (walks_literal value).around
  | .reference target => by
    simp only [expression]
    exact (walks_reference target).around
  | .call function => by
    simp only [expression]
    exact (walks_call function).around

theorem walks_call : (function : Call) → Walks (fun _ v => v.call function) [.call function]
  | ⟨_, arguments, _⟩ => by
    simp only [call]
    exact (walks_expressions arguments).around

theorem walks_expressions : (values : List Expression) →
    Walks (fun _ v => v.expressions values) (values.map .expression)
  | [] => by
    simp only [expressions]
    exact walks_id
  | e :: rest => by
    simp only [expressions]
    exact (walks_expression e).andThen (walks_expressions rest)

theorem walks_segment : (s : Segment) → Walks (fun _ v => v.segment s) s.parts
  | .name _ => by
    simp only [segment]
    exact walks_id
  | .call function => by
    simp only [segment]
    exact walks_call function

theorem walks_segments : (segments : List Segment) →
    Walks (fun _ v => v.segments segments) (segments.flatMap Segment.parts)
  | [] => by
    simp only [segments]
    exact walks_id
  | s :: rest => by
    simp only [segments]
    exact (walks_segment s).andThen (walks_segments rest)

theorem walks_reference : (target : Reference) →
    Walks (fun _ v => v.reference target) [.reference target]
  | ⟨⟨_, segments, _⟩, _, _⟩ => by
    simp only [reference]
    exact (walks_segments segments).around

end

/-! ## Declarations -/

theorem walks_declaredVariable (declared : Variable) :
    Walks (fun _ v => v.declaredVariable declared) [.declaredVariable declared] :=
  walks_leaf rfl

/-- The walk through a list whose values are nodes. -/
theorem walks_each_node {α : Type} {visit : (σ : Type) → Visitor σ → α → σ → σ} {node : α → Node}
    (h : ∀ value, Walks (fun σ v => visit σ v value) [node value]) (values : List α) :
    Walks (fun σ v => each (visit σ v) values) (values.map node) := by
  rw [List.map_eq_flatMap]
  exact walks_each h values

theorem walks_optional_node {α : Type} {visit : (σ : Type) → Visitor σ → α → σ → σ}
    {node : α → Node} (h : ∀ value, Walks (fun σ v => visit σ v value) [node value])
    (value : Option α) :
    Walks (fun σ v => optional (visit σ v) value) (value.toList.map node) := by
  rw [List.map_eq_flatMap]
  exact walks_optional h value

theorem walks_parameter (declared : Parameter) :
    Walks (fun _ v => v.parameter declared) [.parameter declared] :=
  ((walks_declaredVariable declared.declared).andThen
    (walks_optional_node walks_literal declared.default)).around

theorem walks_parameters (parameters : List Parameter) :
    Walks (fun _ v => v.parameters parameters) (parameters.map .parameter) :=
  walks_each_node walks_parameter parameters

theorem walks_constant (constant : Constant) :
    Walks (fun _ v => v.constant constant) constant.parts :=
  (walks_declaredVariable constant.declared).andThen (walks_literal constant.value)

theorem walks_declarationParts (declared : Declaration) :
    Walks (fun _ v => v.declarationParts declared) declared.parts := by
  cases declared with
  | variableGroup group => exact walks_each_node walks_declaredVariable group.members
  | constantGroup group => exact walks_each walks_constant group.constants
  | enumeration declared =>
    exact walks_each (fun item => walks_optional_node walks_literal item.value) declared.items
  | record declared => exact walks_each_node walks_declaredVariable declared.members
  | externalSub declared => exact walks_parameters declared.parameters
  | externalFunction declared => exact walks_parameters declared.parameters
  | event head => exact walks_parameters head.parameters

theorem walks_declaration (declared : Declaration) :
    Walks (fun _ v => v.declaration declared) [.declaration declared] :=
  (walks_declarationParts declared).around

/-! ## Statements -/

theorem walks_comment (note : Comment) : Walks (fun _ v => v.comment note) [.comment note] :=
  walks_leaf rfl

theorem walks_caseClause (clause : CaseClause) :
    Walks (fun _ v => v.caseClause clause) clause.parts := by
  cases clause with
  | value subject => exact walks_expression subject
  | range first last => exact (walks_expression first).andThen (walks_expression last)
  | relational _ bound => exact walks_expression bound

mutual

theorem walks_statement : (s : Statement) → Walks (fun _ v => v.statement s) [.statement s]
  | .comment note => by
    simp only [statement]
    exact (walks_comment note).around
  | .emptyLine _ => by
    simp only [statement]
    exact walks_leaf rfl
  | .assign _ target value _ => by
    simp only [statement]
    exact ((walks_reference target).andThen (walks_expression value)).around
  | .localVariables _ declared _ => by
    simp only [statement]
    exact (walks_each_node walks_declaredVariable declared).around
  | .redim _ array dimensions _ => by
    simp only [statement]
    exact ((walks_reference array).andThen (walks_expressions dimensions)).around
  | .exit _ _ => by
    simp only [statement]
    exact walks_leaf rfl
  | .jump _ _ _ => by
    simp only [statement]
    exact walks_leaf rfl
  | .onError _ _ => by
    simp only [statement]
    exact walks_leaf rfl
  | .resume _ _ => by
    simp only [statement]
    exact walks_leaf rfl
  | .label _ _ => by
    simp only [statement]
    exact walks_leaf rfl
  | .call _ arguments _ _ => by
    simp only [statement]
    exact (walks_expressions arguments).around
  | .raiseEvent _ arguments _ => by
    simp only [statement]
    exact (walks_expressions arguments).around
  | .whileLoop condition body _ => by
    simp only [statement]
    exact ((walks_expression condition).andThen (walks_statements body).around).around
  | .endlessLoop body _ => by
    simp only [statement]
    exact (walks_statements body).around.around
  | .testFirstLoop test body _ => by
    simp only [statement]
    exact ((walks_expression test.condition).andThen (walks_statements body).around).around
  | .testLastLoop body test _ => by
    simp only [statement]
    exact ((walks_statements body).around.andThen (walks_expression test.condition)).around
  | .forLoop counter first last step body _ => by
    simp only [statement]
    have hbounds := ((walks_reference counter).andThen (walks_expression first)).andThen
      (walks_expression last)
    have hstep := walks_optional_node walks_expression step
    exact ((hbounds.andThen hstep).andThen (walks_statements body).around).around
  | .forEach element collection body _ => by
    simp only [statement]
    exact (((walks_reference element).andThen (walks_expression collection)).andThen
      (walks_statements body).around).around
  | .conditional first others otherwise _ => by
    simp only [statement]
    exact (((walks_branch first).andThen (walks_branches others)).andThen
      (walks_optionalBlock otherwise)).around
  | .withBlock target body _ => by
    simp only [statement]
    exact ((walks_reference target).andThen (walks_statements body).around).around
  | .select subject cases otherwise _ => by
    simp only [statement]
    exact (((walks_expression subject).andThen (walks_cases cases)).andThen
      (walks_optionalBlock otherwise)).around

theorem walks_statements : (body : List Statement) →
    Walks (fun _ v => v.statements body) (Node.block body).parts
  | [] => by
    simp only [statements]
    exact walks_id
  | s :: rest => by
    simp only [statements]
    exact (walks_statement s).andThen (walks_statements rest)

theorem walks_branch : (b : Branch) → Walks (fun _ v => v.branch b) b.parts
  | ⟨condition, body, _⟩ => by
    simp only [branch]
    exact (walks_expression condition).andThen (walks_statements body).around

theorem walks_branches : (branches : List Branch) →
    Walks (fun _ v => v.branches branches) (branches.flatMap Branch.parts)
  | [] => by
    simp only [branches]
    exact walks_id
  | b :: rest => by
    simp only [branches]
    exact (walks_branch b).andThen (walks_branches rest)

theorem walks_caseBlock : (b : CaseBlock) → Walks (fun _ v => v.caseBlock b) b.parts
  | ⟨clauses, body, _⟩ => by
    simp only [caseBlock]
    exact (walks_each walks_caseClause clauses).andThen (walks_statements body).around

theorem walks_cases : (blocks : List CaseBlock) →
    Walks (fun _ v => v.cases blocks) (blocks.flatMap CaseBlock.parts)
  | [] => by
    simp only [cases]
    exact walks_id
  | b :: rest => by
    simp only [cases]
    exact (walks_caseBlock b).andThen (walks_cases rest)

theorem walks_optionalBlock : (otherwise : Option (List Statement)) →
    Walks (fun _ v => v.optionalBlock otherwise) (otherwise.toList.map .block)
  | none => by
    simp only [optionalBlock]
    exact walks_id
  | some body => by
    simp only [optionalBlock]
    exact (walks_statements body).around

end

/-! ## Modules -/

theorem walks_procedure (definition : Procedure) :
    Walks (fun _ v => v.procedure definition) [.procedure definition] :=
  ((walks_parameters definition.head.parameters).andThen
    (walks_statements definition.body).around).around

theorem walks_itemParts (item : Item) : Walks (fun _ v => v.itemParts item) item.parts := by
  cases item with
  | comment note => exact walks_comment note
  | emptyLine line => exact walks_id
  | attributeLine entry => exact walks_leaf rfl
  | optionLine line => exact walks_leaf rfl
  | declaration declared => exact walks_declaration declared
  | procedure definition => exact walks_procedure definition

theorem walks_item (item : Item) : Walks (fun _ v => v.item item) [.item item] :=
  (walks_itemParts item).around

theorem walks_module (tree : Module) : Walks (fun _ v => v.module tree) [.module tree] :=
  (walks_each_node walks_item tree.items).around

end Visitor

end VisualBasic
