import VisualBasic.Proofs.Span.Module
import VisualBasic.Proofs.Visit.Walk

/-!
# The order of visited nodes

The nodes of a parsed module, in preorder, start one after the other in the source. Regions between
two places stay between them when some are opened, that is, give way to their parts. So it is enough
that the regions of the parts of a node are those of the node, some of them opened.
-/

set_option autoImplicit false

namespace VisualBasic

open Cursor (Reaches)

/-! ## Opened regions -/

/-- Regions, some of which have given way to their parts. -/
inductive Region.Opens : List Region → List Region → Prop where
  | nil : Opens [] []
  | keep {region : Region} {rest opened : List Region} (h : Opens rest opened) :
    Opens (region :: rest) (region :: opened)
  | unwrap {span : Span} {isTight : Bool} {parts inner rest opened : List Region}
    (hparts : Opens parts inner) (h : Opens rest opened) :
    Opens (.mk span isTight parts :: rest) (inner ++ opened)

namespace Region.Opens

variable {regions more opened other : List Region}

theorem refl (regions : List Region) : Opens regions regions := by
  induction regions with
  | nil => exact .nil
  | cons region rest ih => exact .keep ih

theorem of_eq (h : regions = opened) : Opens regions opened := by
  rw [h]
  exact .refl _

theorem append (h : Opens regions opened) (hmore : Opens more other) :
    Opens (regions ++ more) (opened ++ other) := by
  induction h with
  | nil => exact hmore
  | keep _ ih => exact .keep ih
  | unwrap hparts _ _ ih =>
    rw [List.append_assoc]
    exact .unwrap hparts ih

theorem flatMap {α : Type} {f g : α → List Region} (h : ∀ value, Opens (f value) (g value))
    (values : List α) : Opens (values.flatMap f) (values.flatMap g) := by
  induction values with
  | nil => exact .nil
  | cons value rest ih => exact (h value).append ih

/-- A region that gives way to its parts alone. -/
theorem single {span : Span} {isTight : Bool} (h : Opens regions opened) :
    Opens [.mk span isTight regions] opened := by
  have hall : Opens [.mk span isTight regions] (opened ++ []) := .unwrap h .nil
  rwa [List.append_nil] at hall

end Region.Opens

namespace InOrder

variable {c d : Cursor} {regions more opened : List Region}

theorem opens (h : InOrder c d regions) (ho : Region.Opens regions opened) :
    InOrder c d opened := by
  induction ho generalizing c d with
  | nil => exact h
  | keep _ ih =>
    cases h with
    | cons before tight inside after => exact .cons before tight inside (ih after)
  | unwrap _ _ ihParts ih =>
    cases h with
    | cons before tight inside after =>
      exact after_reaches before ((ihParts inside).append (ih after))

/-- Between two lists of regions lies a place. -/
theorem of_append (h : InOrder c d (regions ++ more)) :
    ∃ e, InOrder c e regions ∧ InOrder e d more := by
  induction regions generalizing c with
  | nil => exact ⟨c, .nil (Reaches.refl c), h⟩
  | cons region rest ih =>
    cases h with
    | cons before tight inside after =>
      obtain ⟨e, hrest, hmore⟩ := ih after
      exact ⟨e, .cons before tight inside hrest, hmore⟩

/-- The first region starts at a place from which all of them lie in order. -/
theorem exists_start {span : Span} {isTight : Bool} {parts : List Region}
    (h : InOrder c d (.mk span isTight parts :: regions)) :
    ∃ a, c.Reaches a ∧ span.start = a.offset ∧ InOrder a d (.mk span isTight parts :: regions) := by
  cases h with
  | cons before tight inside after =>
    exact ⟨_, before, rfl, .cons (Reaches.refl _) tight inside after⟩

end InOrder

/-! ## Nodes and their regions -/

namespace Node

/-- The span of a node. Modules, parameters, blocks and literals have none. -/
def span? : Node → Option Span
  | .module _ => none
  | .item found => some found.span
  | .comment note => some note.span
  | .attributeLine entry => some entry.span
  | .optionLine line => some line.span
  | .declaration declared => some declared.span
  | .declaredVariable declared => some declared.span
  | .parameter _ => none
  | .procedure definition => some definition.span
  | .block _ => none
  | .statement found => some found.span
  | .expression found => some found.span
  | .literal _ => none
  | .reference target => some target.span
  | .call function => some function.span

def regions : Node → List Region
  | .module tree => tree.regions
  | .item found => found.regions
  | .comment note => note.regions
  | .attributeLine entry => entry.regions
  | .optionLine line => line.regions
  | .declaration declared => declared.regions
  | .declaredVariable declared => declared.regions
  | .parameter declared => declared.regions
  | .procedure definition => definition.regions
  | .block body => blockRegions body
  | .statement found => found.regions
  | .expression found => found.regions
  | .literal _ => []
  | .reference target => target.regions
  | .call function => function.regions

/-- A node with a span is one region. -/
theorem exists_regions {node : Node} {span : Span} (h : node.span? = some span) :
    ∃ isTight parts, node.regions = [.mk span isTight parts] := by
  cases node with
  | module tree | parameter declared | block body | literal value => contradiction
  | item found =>
    cases h
    exact found.exists_regions
  | declaration declared =>
    cases h
    exact declared.exists_regions
  | procedure definition =>
    cases h
    exact definition.exists_regions
  | statement found =>
    cases h
    exact found.exists_regions
  | expression found =>
    cases h
    exact found.exists_regions
  | reference target =>
    cases h
    exact target.exists_regions
  | call function =>
    cases h
    exact function.exists_regions
  | comment _ | attributeLine _ | optionLine _ | declaredVariable _ =>
    cases h
    exact ⟨_, _, rfl⟩

/-! ## Opening a node -/

section Parts

open Region (Opens)

@[simp] theorem regions_expressions (values : List Expression) :
    (values.map Node.expression).flatMap regions = expressionRegions values := by
  rw [List.flatMap_map, expressionRegions_eq_flatMap]
  rfl

@[simp] theorem regions_declaredVariables (members : List Variable) :
    (members.map Node.declaredVariable).flatMap regions = members.flatMap Variable.regions :=
  List.flatMap_map _ _ _

@[simp] theorem regions_parameters (parameters : List Parameter) :
    (parameters.map Node.parameter).flatMap regions = parameters.flatMap Parameter.regions :=
  List.flatMap_map _ _ _

@[simp] theorem regions_literals (values : List Literal) :
    (values.map Node.literal).flatMap regions = [] := by
  rw [List.flatMap_map]
  exact List.flatMap_eq_nil_iff.mpr fun _ _ => rfl

@[simp] theorem regions_block (body : List Statement) :
    (body.map Node.statement).flatMap regions = blockRegions body := by
  rw [List.flatMap_map, blockRegions_eq_flatMap]
  rfl

@[simp] theorem regions_otherwise (otherwise : Option (List Statement)) :
    (otherwise.toList.map Node.block).flatMap regions = otherwiseRegions otherwise := by
  rw [List.flatMap_map, otherwiseRegions_eq_flatMap]
  rfl

@[simp] theorem regions_segments (segments : List Segment) :
    (segments.flatMap Segment.parts).flatMap regions = segmentRegions segments := by
  rw [List.flatMap_assoc, segmentRegions_eq_flatMap]
  congr 1
  funext s
  cases s <;> simp [Segment.parts, Segment.regions, regions]

@[simp] theorem regions_caseClauses (clauses : List CaseClause) :
    (clauses.flatMap CaseClause.parts).flatMap regions = clauses.flatMap CaseClause.regions := by
  rw [List.flatMap_assoc]
  congr 1
  funext clause
  cases clause <;> simp [CaseClause.parts, CaseClause.regions, regions]

theorem opens_item (item : Item) : Opens item.regions (item.parts.flatMap regions) := by
  cases item with
  | emptyLine line => exact .single .nil
  | _ => exact .of_eq (by simp [Item.parts, Item.regions, regions])

/-- The values of constants and of the items of an enumeration have no spans. -/
theorem opens_declaration (declared : Declaration) :
    Opens declared.regions (declared.parts.flatMap regions) := by
  cases declared with
  | constantGroup group =>
    rw [Declaration.parts, List.flatMap_assoc]
    refine .single (.flatMap (fun constant => ?_) group.constants)
    exact .of_eq (by simp [Constant.parts, Constant.regions, regions])
  | enumeration declared =>
    exact .single (.of_eq (by simp [Declaration.parts, EnumItem.parts, List.flatMap_assoc]))
  | _ => exact .single (.of_eq (by simp [Declaration.parts]))

/-- The head of a procedure has a span, but is no node. -/
theorem opens_procedure (definition : Procedure) :
    Opens definition.regions (definition.parts.flatMap regions) := by
  have hhead (head : Head) (body : List Statement) :
      Opens (head.regions ++ blockRegions body)
        ((head.parameters.map Node.parameter ++ [Node.block body]).flatMap regions) := by
    rw [List.flatMap_append, regions_parameters, List.flatMap_singleton]
    exact (Opens.single (.refl _)).append (.refl _)
  cases definition with
  | sub definition => exact .single (hhead definition.head definition.body)
  | function definition => exact .single (hhead definition.head.toHead definition.body)
  | property definition => exact .single (hhead definition.head.head definition.body)

theorem opens_branch (branch : Branch) : Opens branch.regions (branch.parts.flatMap regions) := by
  cases branch
  exact .single (.of_eq (by simp [Branch.parts, regions]))

theorem opens_caseBlock (block : CaseBlock) :
    Opens block.regions (block.parts.flatMap regions) := by
  cases block
  exact .single (.of_eq (by simp [CaseBlock.parts, regions]))

/-- Branches and cases have spans, but are no nodes. -/
theorem opens_statement (s : Statement) : Opens s.regions (s.parts.flatMap regions) := by
  cases s with
  | comment note => exact .of_eq (by simp [Statement.parts, Statement.regions, regions])
  | forLoop counter first last step body span =>
    refine .single (.of_eq ?_)
    simp [Statement.parts, regions, expressionRegions_eq_flatMap]
  | conditional first others otherwise span =>
    refine .single ?_
    rw [Statement.parts, List.flatMap_append, List.flatMap_append, List.flatMap_assoc,
      branchRegions_eq_flatMap, regions_otherwise]
    exact ((opens_branch first).append (.flatMap opens_branch others)).append (.refl _)
  | select subject cases otherwise span =>
    refine .single ?_
    rw [Statement.parts, List.flatMap_append, List.flatMap_append, List.flatMap_assoc,
      List.flatMap_singleton, caseRegions_eq_flatMap, regions_otherwise]
    exact ((Opens.refl _).append (.flatMap opens_caseBlock cases)).append (.refl _)
  | _ => exact .single (.of_eq (by simp [Statement.parts, regions]))

/-- The parts of a node have its regions, those of what is no node opened. -/
theorem opens_parts (node : Node) : Opens node.regions (node.parts.flatMap regions) := by
  cases node with
  | module tree =>
    rw [parts, List.flatMap_map]
    exact .refl _
  | item found => exact opens_item found
  | comment note | attributeLine entry | optionLine line | declaredVariable declared =>
    exact .single .nil
  | literal value => exact .nil
  | declaration declared => exact opens_declaration declared
  | parameter declared =>
    exact .of_eq (by simp [parts, Parameter.parts, regions, Parameter.regions])
  | procedure definition => exact opens_procedure definition
  | block body => exact .of_eq (regions_block body).symm
  | statement found => exact opens_statement found
  | expression found =>
    cases found with
    | literal value span => exact .single .nil
    | reference target | call function =>
      exact .of_eq (by simp [parts, Expression.parts, regions, Expression.regions])
  | reference target =>
    obtain ⟨⟨leadingDot, segments, place⟩, name, span⟩ := target
    exact .single (.single (.of_eq (regions_segments segments).symm))
  | call function =>
    cases function
    exact .single (.of_eq (regions_expressions _).symm)

end Parts

/-- A node starts at a place after which the regions of its parts follow. -/
theorem exists_start {node : Node} {c d : Cursor} (h : InOrder c d node.regions) :
    ∃ a, c.Reaches a ∧ (∀ span, node.span? = some span → span.start = a.offset) ∧
      InOrder a d (node.parts.flatMap regions) := by
  cases hspan : node.span? with
  | none => exact ⟨c, Reaches.refl c, by simp, h.opens (opens_parts node)⟩
  | some span =>
    obtain ⟨isTight, parts, hregions⟩ := exists_regions hspan
    rw [hregions] at h
    obtain ⟨a, hreaches, hstart, ha⟩ := h.exists_start
    rw [← hregions] at ha
    refine ⟨a, hreaches, ?_, ha.opens (opens_parts node)⟩
    intro other hother
    rw [← Option.some.inj hother, hstart]

/-- Nodes in preorder start one after the other, between the places that their regions lie
between. -/
theorem Preorder.starts {nodes listing : List Node} {c d : Cursor} (h : Preorder nodes listing)
    (hregions : InOrder c d (nodes.flatMap regions)) :
    (∀ span ∈ listing.filterMap span?, c.offset ≤ span.start ∧ span.start ≤ d.offset) ∧
      (listing.filterMap span?).Pairwise fun span next => span.start ≤ next.start := by
  induction h generalizing c d with
  | nil => simp
  | @cons node rest inside after _ _ ihInside ihAfter =>
    rw [List.flatMap_cons] at hregions
    obtain ⟨e, hnode, hrest⟩ := hregions.of_append
    obtain ⟨a, hreaches, hstart, hparts⟩ := exists_start hnode
    obtain ⟨hinside, hinsideRises⟩ := ihInside hparts
    obtain ⟨hafter, hafterRises⟩ := ihAfter hrest
    have hca := hreaches.offset_le
    have hae := hparts.reaches.offset_le
    have hed := hrest.reaches.offset_le
    have hall : ∀ span ∈ (inside ++ after).filterMap span?,
        a.offset ≤ span.start ∧ span.start ≤ d.offset := by
      intro span hspan
      rw [List.filterMap_append, List.mem_append] at hspan
      rcases hspan with hspan | hspan
      · have hbounds := hinside span hspan
        omega
      · have hbounds := hafter span hspan
        omega
    have hrises : ((inside ++ after).filterMap span?).Pairwise
        fun span next => span.start ≤ next.start := by
      rw [List.filterMap_append, List.pairwise_append]
      refine ⟨hinsideRises, hafterRises, ?_⟩
      intro span hspan next hnext
      exact Nat.le_trans (hinside span hspan).2 (hafter next hnext).1
    cases hown : node.span? with
    | none =>
      rw [List.filterMap_cons_none hown]
      refine ⟨?_, hrises⟩
      intro span hspan
      have hbounds := hall span hspan
      omega
    | some own =>
      have hownStart := hstart own hown
      rw [List.filterMap_cons_some hown]
      constructor
      · intro span hspan
        rcases List.mem_cons.mp hspan with rfl | hspan
        · omega
        · have hbounds := hall span hspan
          omega
      · rw [List.pairwise_cons]
        refine ⟨?_, hrises⟩
        intro span hspan
        have hbounds := hall span hspan
        omega

end Node

/-! ## A log of all nodes -/

namespace Visitor

/-- The visitor that writes down every node it comes to. -/
def logger : Visitor (List Node) := .ofEnter fun node log => log ++ [node]

theorem foldl_act_logger (moves : List Move) (log : List Node) :
    moves.foldl logger.act log = log ++ moves.filterMap Move.entered? := by
  induction moves generalizing log with
  | nil => simp
  | cons move rest ih =>
    rw [List.foldl_cons, ih]
    cases move <;> simp [act, logger, ofEnter, Move.entered?, List.filterMap_cons]

theorem preorder_visit_logger (tree : Module) :
    Node.Preorder [.module tree] (tree.visit logger []) := by
  obtain ⟨moves, htour, hmoves⟩ := walks_module tree
  have hlog : tree.visit logger [] = moves.foldl logger.act [] :=
    hmoves _ logger (opensAll_ofEnter _) []
  rw [hlog, foldl_act_logger, List.nil_append]
  exact htour.preorder

end Visitor

/-- A visitor that writes down every node sees each node of a parsed module once, a node before
those inside it, and those with spans as they start one after the other in the source. -/
theorem visit_logger_of_parseModule {source : String} {settings : Settings} {tree : Module}
    (h : parseModule source settings = .ok tree) :
    ∃ addresses, (Node.module tree).Lists (tree.visit .logger []) addresses ∧
      (∀ (outer inner : Nat) (address further : List Nat), addresses[outer]? = some address →
        addresses[inner]? = some (address ++ further) → further ≠ [] → outer < inner) ∧
      ((tree.visit .logger []).filterMap Node.span?).Pairwise
        fun span next => span.start ≤ next.start := by
  have hpreorder := Visitor.preorder_visit_logger tree
  obtain ⟨addresses, hlists⟩ := Node.exists_lists hpreorder
  obtain ⟨d, hregions⟩ := inOrder_of_parseModule h
  refine ⟨addresses, hlists, ?_, ?_⟩
  · intro outer inner address further houter hinner hfurther
    exact hlists.lt_of_inside houter hinner hfurther
  · have hmodule : [Node.module tree].flatMap Node.regions = tree.regions :=
      List.flatMap_singleton _ _
    rw [← hmodule] at hregions
    exact (hpreorder.starts hregions).2

/-- A loop with its condition at the end, in which a call stands inside a reference. -/
theorem visit_logger_of_loop :
    ∃ tree, parseModule "Sub F(x)\nDo\na.b(1).c = x\nLoop While x\nEnd Sub\n" Settings.standard =
        .ok tree ∧
      (tree.visit .logger []).length = 17 ∧
      ((tree.visit .logger []).filterMap Node.span?).Pairwise
        fun span next => span.start ≤ next.start := by
  have h : (parseModule "Sub F(x)\nDo\na.b(1).c = x\nLoop While x\nEnd Sub\n"
      Settings.standard).toOption.map (fun tree => (tree.visit .logger []).length) = some 17 := by
    decide +kernel
  obtain ⟨tree, htree, hlength⟩ := Option.map_eq_some_iff.mp h
  have hparse := Grammar.eq_ok_of_toOption htree
  obtain ⟨_, _, _, hrises⟩ := visit_logger_of_parseModule hparse
  exact ⟨tree, hparse, hlength, hrises⟩

end VisualBasic
