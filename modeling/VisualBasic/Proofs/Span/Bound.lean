import VisualBasic.Proofs.Span.Region
import VisualBasic.Proofs.Tree.Relabel

/-!
# Spans up to an offset

Ending all spans at a given offset at the latest changes nothing in a tree whose spans end there
anyway.
-/

set_option autoImplicit false

namespace VisualBasic

namespace Relabel

/-- Ends every span at a given offset at the latest. -/
def upTo (bound : Nat) : Relabel :=
  ⟨fun span => ⟨min span.start bound, min span.stop bound⟩, id, id⟩

variable {bound : Nat}

@[simp] theorem text_upTo (value : String) : (upTo bound).text value = value := by simp [text, upTo]

@[simp] theorem map_text_upTo (found : Option String) : found.map (upTo bound).text = found := by
  cases found <;> simp

@[simp] theorem remark_upTo (content : String) : (upTo bound).remark content = content := rfl

theorem span_upTo_eq_self_iff {span : Span} :
    (upTo bound).span span = span ↔ span.start ≤ bound ∧ span.stop ≤ bound := by
  obtain ⟨first, last⟩ := span
  simp only [upTo, Span.mk.injEq]
  omega

end Relabel

/-- The span of a region and those of all regions in it lie before an offset. -/
inductive Region.EndsBy (bound : Nat) : Region → Prop where
  | mk {span : Span} {isTight : Bool} {parts : List Region} (start : span.start ≤ bound)
      (stop : span.stop ≤ bound) (inside : ∀ part ∈ parts, part.EndsBy bound) :
      EndsBy bound (.mk span isTight parts)

/-- All regions lie before an offset. -/
def EndBy (bound : Nat) (regions : List Region) : Prop := ∀ region ∈ regions, region.EndsBy bound

theorem InOrder.endBy {c d : Cursor} {regions : List Region} (h : InOrder c d regions) {bound : Nat}
    (hd : d.offset ≤ bound) : EndBy bound regions := by
  induction h with
  | nil =>
    intro region hr
    contradiction
  | @cons c a b d _ _ _ _ _ inside after ihInside ihAfter =>
    have hb : b.offset ≤ bound := Nat.le_trans after.reaches.offset_le hd
    intro region hr
    rcases List.mem_cons.mp hr with rfl | hr
    · exact .mk (Nat.le_trans inside.reaches.offset_le hb) hb (ihInside hb)
    · exact ihAfter hd region hr

variable {bound : Nat}

@[simp] theorem endBy_append {regions more : List Region} :
    EndBy bound (regions ++ more) ↔ EndBy bound regions ∧ EndBy bound more :=
  List.forall_mem_append

@[simp] theorem endBy_region {span : Span} {isTight : Bool} {parts : List Region} :
    EndBy bound [.mk span isTight parts] ↔
      (Relabel.upTo bound).span span = span ∧ EndBy bound parts := by
  rw [EndBy, List.forall_mem_singleton, Relabel.span_upTo_eq_self_iff]
  constructor
  · rintro ⟨hstart, hstop, hinside⟩
    exact ⟨⟨hstart, hstop⟩, hinside⟩
  · rintro ⟨⟨hstart, hstop⟩, hinside⟩
    exact .mk hstart hstop hinside

@[simp] theorem endBy_flatMap {α : Type} {values : List α} {view : α → List Region} :
    EndBy bound (values.flatMap view) ↔ ∀ value ∈ values, EndBy bound (view value) := by
  simp only [EndBy, List.mem_flatMap]
  exact ⟨fun h value hv region hr => h region ⟨value, hv, hr⟩,
    fun h region ⟨value, hv, hr⟩ => h value hv region hr⟩

/-! ## Expressions -/

theorem map_eq_self_of_mem {α : Type} {f : α → α} {values : List α}
    (h : ∀ value ∈ values, f value = value) : values.map f = values :=
  (List.map_congr_left h).trans values.map_id'

theorem option_map_eq_self_of_mem {α : Type} {f : α → α} {found : Option α}
    (h : ∀ value ∈ found, f value = value) : found.map f = found := by
  cases found with
  | none => rfl
  | some value => rw [Option.map_some, h value rfl]

@[simp] theorem Literal.relabel_upTo (literal : Literal) :
    literal.relabel (.upTo bound) = literal := by
  cases literal <;> simp [Literal.relabel]

@[simp] theorem map_literal_upTo (found : Option Literal) :
    found.map (Literal.relabel (.upTo bound)) = found :=
  option_map_eq_self Literal.relabel_upTo found

mutual

theorem Expression.relabel_upTo :
    ∀ e : Expression, EndBy bound e.regions → e.relabel (.upTo bound) = e
  | .literal value span, h => by
    simp only [Expression.regions, endBy_region] at h
    simp [Expression.relabel, h.1]
  | .reference target, h => by rw [Expression.relabel, target.relabel_upTo h]
  | .call call, h => by rw [Expression.relabel, call.relabel_upTo h]

theorem Call.relabel_upTo :
    ∀ call : Call, EndBy bound call.regions → call.relabel (.upTo bound) = call
  | ⟨name, arguments, span⟩, h => by
    simp only [Call.regions, endBy_region] at h
    simp [Call.relabel, h.1, relabelExpressions_upTo arguments h.2]

theorem relabelExpressions_upTo : ∀ values, EndBy bound (expressionRegions values) →
    relabelExpressions (.upTo bound) values = values
  | [], _ => rfl
  | e :: rest, h => by
    simp only [expressionRegions, endBy_append] at h
    rw [relabelExpressions, e.relabel_upTo h.1, relabelExpressions_upTo rest h.2]

theorem Segment.relabel_upTo : ∀ segment : Segment, EndBy bound segment.regions →
    segment.relabel (.upTo bound) = segment
  | .name text, _ => by simp [Segment.relabel]
  | .call call, h => by rw [Segment.relabel, call.relabel_upTo h]

theorem relabelSegments_upTo : ∀ segments, EndBy bound (segmentRegions segments) →
    relabelSegments (.upTo bound) segments = segments
  | [], _ => rfl
  | s :: rest, h => by
    simp only [segmentRegions, endBy_append] at h
    rw [relabelSegments, s.relabel_upTo h.1, relabelSegments_upTo rest h.2]

theorem Qualifier.relabel_upTo : ∀ qualifier : Qualifier, EndBy bound qualifier.regions →
    qualifier.relabel (.upTo bound) = qualifier
  | ⟨leadingDot, segments, span⟩, h => by
    simp only [Qualifier.regions, endBy_region] at h
    simp [Qualifier.relabel, h.1, relabelSegments_upTo segments h.2]

theorem Reference.relabel_upTo : ∀ target : Reference, EndBy bound target.regions →
    target.relabel (.upTo bound) = target
  | ⟨qualifier, name, span⟩, h => by
    simp only [Reference.regions, endBy_region] at h
    simp [Reference.relabel, h.1, qualifier.relabel_upTo h.2]

end

/-! ## Declarations -/

theorem Variable.relabel_upTo {declared : Variable} (h : EndBy bound declared.regions) :
    declared.relabel (.upTo bound) = declared := by
  simp only [Variable.regions, endBy_region] at h
  simp [Variable.relabel, h.1]

theorem Constant.relabel_upTo {constant : Constant} (h : EndBy bound constant.regions) :
    constant.relabel (.upTo bound) = constant := by
  simp [Constant.relabel, Variable.relabel_upTo h]

theorem Parameter.relabel_upTo {parameter : Parameter} (h : EndBy bound parameter.regions) :
    parameter.relabel (.upTo bound) = parameter := by
  simp [Parameter.relabel, Variable.relabel_upTo h]

theorem External.relabel_upTo {declared : External} (h : EndBy bound declared.regions) :
    declared.relabel (.upTo bound) = declared := by
  simp only [External.regions, endBy_region, endBy_flatMap] at h
  have hparameters :=
    map_eq_self_of_mem fun parameter hp => Parameter.relabel_upTo (h.2 parameter hp)
  simp [External.relabel, h.1, hparameters]

theorem Head.relabel_upTo {head : Head} (h : EndBy bound head.regions) :
    head.relabel (.upTo bound) = head := by
  simp only [Head.regions, endBy_region, endBy_flatMap] at h
  have hparameters :=
    map_eq_self_of_mem fun parameter hp => Parameter.relabel_upTo (h.2 parameter hp)
  simp [Head.relabel, h.1, hparameters]

theorem FunctionHead.relabel_upTo {head : FunctionHead} (h : EndBy bound head.toHead.regions) :
    head.relabel (.upTo bound) = head := by
  simp [FunctionHead.relabel, Head.relabel_upTo h]

theorem PropertyHead.relabel_upTo {head : PropertyHead} (h : EndBy bound head.regions) :
    head.relabel (.upTo bound) = head := by
  cases head with
  | letter head => exact congrArg PropertyHead.letter (Head.relabel_upTo h)
  | setter head => exact congrArg PropertyHead.setter (Head.relabel_upTo h)
  | getter head => exact congrArg PropertyHead.getter (FunctionHead.relabel_upTo h)

theorem Declaration.relabel_upTo {declared : Declaration} (h : EndBy bound declared.regions) :
    declared.relabel (.upTo bound) = declared := by
  cases declared with
  | variableGroup group =>
    simp only [Declaration.regions, VariableGroup.regions, endBy_region, endBy_flatMap] at h
    have hmembers := map_eq_self_of_mem fun declared hd => Variable.relabel_upTo (h.2 declared hd)
    simp [Declaration.relabel, VariableGroup.relabel, h.1, hmembers]
  | constantGroup group =>
    simp only [Declaration.regions, ConstantGroup.regions, endBy_region, endBy_flatMap] at h
    have hconstants := map_eq_self_of_mem fun constant hc => Constant.relabel_upTo (h.2 constant hc)
    simp [Declaration.relabel, ConstantGroup.relabel, h.1, hconstants]
  | enumeration declared =>
    simp only [Declaration.regions, Enumeration.regions, endBy_region] at h
    have hitem (item : EnumItem) : item.relabel (.upTo bound) = item := by simp [EnumItem.relabel]
    simp [Declaration.relabel, Enumeration.relabel, h.1, map_eq_self hitem]
  | record record =>
    simp only [Declaration.regions, Record.regions, endBy_region, endBy_flatMap] at h
    have hmembers := map_eq_self_of_mem fun declared hd => Variable.relabel_upTo (h.2 declared hd)
    simp [Declaration.relabel, Record.relabel, h.1, hmembers]
  | externalSub declared => exact congrArg Declaration.externalSub (External.relabel_upTo h)
  | externalFunction declared =>
    simp [Declaration.relabel, ExternalFunction.relabel, External.relabel_upTo h]
  | event head => exact congrArg Declaration.event (Head.relabel_upTo h)

/-! ## Statements -/

theorem CaseClause.relabel_upTo {clause : CaseClause} (h : EndBy bound clause.regions) :
    clause.relabel (.upTo bound) = clause := by
  cases clause with
  | value subject => exact congrArg CaseClause.value (subject.relabel_upTo h)
  | range first last =>
    simp only [CaseClause.regions, endBy_append] at h
    rw [CaseClause.relabel, first.relabel_upTo h.1, last.relabel_upTo h.2]
  | relational relation limit =>
    exact congrArg (CaseClause.relational relation) (limit.relabel_upTo h)

theorem relabelValues_upTo {values : List Expression} (h : EndBy bound (expressionRegions values)) :
    values.map (Expression.relabel (.upTo bound)) = values := by
  rw [← relabelExpressions_eq_map, relabelExpressions_upTo values h]

mutual

theorem Statement.relabel_upTo :
    ∀ s : Statement, EndBy bound s.regions → s.relabel (.upTo bound) = s
  | .comment note, h => by
    simp only [Statement.regions, Comment.regions, endBy_region] at h
    simp [Statement.relabel, Comment.relabel, h.1]
  | .emptyLine line, h => by
    simp only [Statement.regions, EmptyLine.regions, endBy_region] at h
    simp [Statement.relabel, EmptyLine.relabel, h.1]
  | .assign _ target value _, h => by
    simp only [Statement.regions, endBy_region, endBy_append] at h
    simp [Statement.relabel, h.1, target.relabel_upTo h.2.1, value.relabel_upTo h.2.2]
  | .localVariables _ declared _, h => by
    simp only [Statement.regions, endBy_region, endBy_flatMap] at h
    have hdeclared := map_eq_self_of_mem fun declared hd => Variable.relabel_upTo (h.2 declared hd)
    simp [Statement.relabel, h.1, hdeclared]
  | .redim _ array dimensions _, h => by
    simp only [Statement.regions, endBy_region, endBy_append] at h
    simp [Statement.relabel, h.1, array.relabel_upTo h.2.1, relabelValues_upTo h.2.2]
  | .exit _ _, h | .jump _ _ _, h | .label _ _, h => by
    simp only [Statement.regions, endBy_region] at h
    simp [Statement.relabel, h.1]
  | .onError response _, h => by
    simp only [Statement.regions, endBy_region] at h
    cases response <;> simp [Statement.relabel, ErrorResponse.relabel, h.1]
  | .resume point _, h => by
    simp only [Statement.regions, endBy_region] at h
    cases point <;> simp [Statement.relabel, ResumePoint.relabel, h.1]
  | .call _ values _ _, h | .raiseEvent _ values _, h => by
    simp only [Statement.regions, endBy_region] at h
    simp [Statement.relabel, h.1, relabelValues_upTo h.2]
  | .whileLoop condition body _, h => by
    simp only [Statement.regions, endBy_region, endBy_append] at h
    simp [Statement.relabel, h.1, condition.relabel_upTo h.2.1, relabelBlock_upTo body h.2.2]
  | .endlessLoop body _, h => by
    simp only [Statement.regions, endBy_region] at h
    simp [Statement.relabel, h.1, relabelBlock_upTo body h.2]
  | .testFirstLoop test body _, h => by
    simp only [Statement.regions, endBy_region, endBy_append] at h
    simp [Statement.relabel, LoopTest.relabel, h.1, test.condition.relabel_upTo h.2.1,
      relabelBlock_upTo body h.2.2]
  | .testLastLoop body test _, h => by
    simp only [Statement.regions, endBy_region, endBy_append] at h
    simp [Statement.relabel, LoopTest.relabel, h.1, test.condition.relabel_upTo h.2.2,
      relabelBlock_upTo body h.2.1]
  | .forLoop counter first last step body _, h => by
    simp only [Statement.regions, endBy_region, endBy_append, endBy_flatMap, Option.mem_toList] at h
    obtain ⟨hspan, ⟨⟨⟨hcounter, hfirst⟩, hlast⟩, hstep⟩, hbody⟩ := h
    have hstep : step.map (Expression.relabel (.upTo bound)) = step :=
      option_map_eq_self_of_mem fun value hv => Expression.relabel_upTo value (hstep value hv)
    simp [Statement.relabel, hspan, counter.relabel_upTo hcounter, first.relabel_upTo hfirst,
      last.relabel_upTo hlast, hstep, relabelBlock_upTo body hbody]
  | .forEach element collection body _, h => by
    simp only [Statement.regions, endBy_region, endBy_append] at h
    simp [Statement.relabel, h.1, element.relabel_upTo h.2.1.1, collection.relabel_upTo h.2.1.2,
      relabelBlock_upTo body h.2.2]
  | .conditional first others otherwise _, h => by
    simp only [Statement.regions, endBy_region, endBy_append] at h
    simp [Statement.relabel, h.1, first.relabel_upTo h.2.1.1, relabelBranches_upTo others h.2.1.2,
      relabelOtherwise_upTo otherwise h.2.2]
  | .withBlock target body _, h => by
    simp only [Statement.regions, endBy_region, endBy_append] at h
    simp [Statement.relabel, h.1, target.relabel_upTo h.2.1, relabelBlock_upTo body h.2.2]
  | .select subject cases otherwise _, h => by
    simp only [Statement.regions, endBy_region, endBy_append] at h
    simp [Statement.relabel, h.1, subject.relabel_upTo h.2.1.1, relabelCases_upTo cases h.2.1.2,
      relabelOtherwise_upTo otherwise h.2.2]

theorem relabelBlock_upTo : ∀ block, EndBy bound (blockRegions block) →
    relabelBlock (.upTo bound) block = block
  | [], _ => rfl
  | s :: rest, h => by
    simp only [blockRegions, endBy_append] at h
    rw [relabelBlock, s.relabel_upTo h.1, relabelBlock_upTo rest h.2]

theorem relabelOtherwise_upTo : ∀ otherwise, EndBy bound (otherwiseRegions otherwise) →
    relabelOtherwise (.upTo bound) otherwise = otherwise
  | none, _ => rfl
  | some body, h => by rw [relabelOtherwise, relabelBlock_upTo body h]

theorem Branch.relabel_upTo : ∀ branch : Branch, EndBy bound branch.regions →
    branch.relabel (.upTo bound) = branch
  | ⟨condition, body, _⟩, h => by
    simp only [Branch.regions, endBy_region, endBy_append] at h
    simp [Branch.relabel, h.1, condition.relabel_upTo h.2.1, relabelBlock_upTo body h.2.2]

theorem relabelBranches_upTo : ∀ branches, EndBy bound (branchRegions branches) →
    relabelBranches (.upTo bound) branches = branches
  | [], _ => rfl
  | b :: rest, h => by
    simp only [branchRegions, endBy_append] at h
    rw [relabelBranches, b.relabel_upTo h.1, relabelBranches_upTo rest h.2]

theorem CaseBlock.relabel_upTo : ∀ block : CaseBlock, EndBy bound block.regions →
    block.relabel (.upTo bound) = block
  | ⟨clauses, body, _⟩, h => by
    simp only [CaseBlock.regions, endBy_region, endBy_append, endBy_flatMap] at h
    have hclauses := map_eq_self_of_mem fun clause hc => CaseClause.relabel_upTo (h.2.1 clause hc)
    simp [CaseBlock.relabel, h.1, hclauses, relabelBlock_upTo body h.2.2]

theorem relabelCases_upTo : ∀ cases, EndBy bound (caseRegions cases) →
    relabelCases (.upTo bound) cases = cases
  | [], _ => rfl
  | b :: rest, h => by
    simp only [caseRegions, endBy_append] at h
    rw [relabelCases, b.relabel_upTo h.1, relabelCases_upTo rest h.2]

end

/-! ## Items -/

theorem Definition.relabel_upTo {η : Type} {head : Relabel → η → η} {view : η → List Region}
    {definition : Definition η}
    (hhead : ∀ value, EndBy bound (view value) → head (.upTo bound) value = value)
    (h : EndBy bound (definition.regions view)) :
    definition.relabel head (.upTo bound) = definition := by
  simp only [Definition.regions, endBy_region, endBy_append] at h
  simp [Definition.relabel, h.1, hhead _ h.2.1, relabelBlock_upTo _ h.2.2]

theorem Procedure.relabel_upTo {procedure : Procedure} (h : EndBy bound procedure.regions) :
    procedure.relabel (.upTo bound) = procedure := by
  cases procedure with
  | sub definition =>
    exact congrArg Procedure.sub (Definition.relabel_upTo (fun _ => Head.relabel_upTo) h)
  | function definition =>
    exact congrArg Procedure.function
      (Definition.relabel_upTo (fun _ => FunctionHead.relabel_upTo) h)
  | property definition =>
    exact congrArg Procedure.property
      (Definition.relabel_upTo (fun _ => PropertyHead.relabel_upTo) h)

theorem Item.relabel_upTo {item : Item} (h : EndBy bound item.regions) :
    item.relabel (.upTo bound) = item := by
  cases item with
  | comment note =>
    simp only [Item.regions, Comment.regions, endBy_region] at h
    simp [Item.relabel, Comment.relabel, h.1]
  | emptyLine line =>
    simp only [Item.regions, EmptyLine.regions, endBy_region] at h
    simp [Item.relabel, EmptyLine.relabel, h.1]
  | attributeLine entry =>
    simp only [Item.regions, Attribute.regions, endBy_region] at h
    simp [Item.relabel, Attribute.relabel, h.1]
  | optionLine line =>
    simp only [Item.regions, OptionLine.regions, endBy_region] at h
    simp [Item.relabel, OptionLine.relabel, h.1]
  | declaration declared => exact congrArg Item.declaration (Declaration.relabel_upTo h)
  | procedure definition => exact congrArg Item.procedure (Procedure.relabel_upTo h)

end VisualBasic
