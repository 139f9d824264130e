import VisualBasic.Proofs.Cursor.Token
import VisualBasic.Tree.Module

/-!
# The spanned parts of a tree

A region is a node of a tree that has a span, with the regions directly inside it; nodes without a
span are passed through. `InOrder c d regions` places regions between two cursors, one after the
other and each with its own regions inside. `Region.Sound` says the same of the spans alone.
-/

set_option autoImplicit false

namespace VisualBasic

/-- A node with a span. The span of a tight node starts and ends with ink. -/
inductive Region where
  | mk (span : Span) (isTight : Bool) (parts : List Region)

namespace Region

def span : Region → Span
  | mk span _ _ => span

def parts : Region → List Region
  | mk _ _ parts => parts

end Region

/-! ## Regions of trees -/

mutual

def Expression.regions : Expression → List Region
  | .literal _ span => [.mk span true []]
  | .reference target => target.regions
  | .call call => call.regions

def Call.regions : Call → List Region
  | ⟨_, arguments, span⟩ => [.mk span true (expressionRegions arguments)]

def expressionRegions : List Expression → List Region
  | [] => []
  | e :: rest => e.regions ++ expressionRegions rest

def Segment.regions : Segment → List Region
  | .name _ => []
  | .call call => call.regions

def segmentRegions : List Segment → List Region
  | [] => []
  | s :: rest => s.regions ++ segmentRegions rest

/-- An empty qualifier is a place, not a text. -/
def Qualifier.regions : Qualifier → List Region
  | ⟨leadingDot, segments, span⟩ =>
    [.mk span (leadingDot || ! segments.isEmpty) (segmentRegions segments)]

def Reference.regions : Reference → List Region
  | ⟨qualifier, _, span⟩ => [.mk span true qualifier.regions]

end

def Variable.regions (declared : Variable) : List Region := [.mk declared.span true []]

def Parameter.regions (parameter : Parameter) : List Region := parameter.declared.regions

def Constant.regions (constant : Constant) : List Region := constant.declared.regions

def VariableGroup.regions (group : VariableGroup) : List Region :=
  [.mk group.span true (group.members.flatMap Variable.regions)]

def ConstantGroup.regions (group : ConstantGroup) : List Region :=
  [.mk group.span true (group.constants.flatMap Constant.regions)]

def Record.regions (record : Record) : List Region :=
  [.mk record.span true (record.members.flatMap Variable.regions)]

def Enumeration.regions (declared : Enumeration) : List Region := [.mk declared.span true []]

def External.regions (declared : External) : List Region :=
  [.mk declared.span true (declared.parameters.flatMap Parameter.regions)]

def Head.regions (head : Head) : List Region :=
  [.mk head.span true (head.parameters.flatMap Parameter.regions)]

def PropertyHead.regions (head : PropertyHead) : List Region := head.head.regions

def Declaration.regions : Declaration → List Region
  | .variableGroup group => group.regions
  | .constantGroup group => group.regions
  | .enumeration declared => declared.regions
  | .record declared => declared.regions
  | .externalSub declared => declared.regions
  | .externalFunction declared => declared.regions
  | .event head => head.regions

def Comment.regions (note : Comment) : List Region := [.mk note.span false []]

def EmptyLine.regions (line : EmptyLine) : List Region := [.mk line.span false []]

def CaseClause.regions : CaseClause → List Region
  | .value subject => subject.regions
  | .range first last => first.regions ++ last.regions
  | .relational _ bound => bound.regions

mutual

def Statement.regions : Statement → List Region
  | .comment note => note.regions
  | .emptyLine line => line.regions
  | .assign _ target value span => [.mk span true (target.regions ++ value.regions)]
  | .localVariables _ declared span => [.mk span true (declared.flatMap Variable.regions)]
  | .redim _ array dimensions span =>
    [.mk span true (array.regions ++ expressionRegions dimensions)]
  | .exit _ span => [.mk span true []]
  | .jump _ _ span => [.mk span true []]
  | .onError _ span => [.mk span true []]
  | .resume _ span => [.mk span true []]
  | .label _ span => [.mk span true []]
  | .call _ arguments _ span => [.mk span true (expressionRegions arguments)]
  | .raiseEvent _ arguments span => [.mk span true (expressionRegions arguments)]
  | .whileLoop condition body span => [.mk span true (condition.regions ++ blockRegions body)]
  | .endlessLoop body span => [.mk span true (blockRegions body)]
  | .testFirstLoop test body span =>
    [.mk span true (test.condition.regions ++ blockRegions body)]
  | .testLastLoop body test span => [.mk span true (blockRegions body ++ test.condition.regions)]
  | .forLoop counter first last step body span =>
    [.mk span true (counter.regions ++ first.regions ++ last.regions ++
      step.toList.flatMap Expression.regions ++ blockRegions body)]
  | .forEach element collection body span =>
    [.mk span true (element.regions ++ collection.regions ++ blockRegions body)]
  | .conditional first others otherwise span =>
    [.mk span true (first.regions ++ branchRegions others ++ otherwiseRegions otherwise)]
  | .withBlock target body span => [.mk span true (target.regions ++ blockRegions body)]
  | .select subject cases otherwise span =>
    [.mk span true (subject.regions ++ caseRegions cases ++ otherwiseRegions otherwise)]

def blockRegions : List Statement → List Region
  | [] => []
  | s :: rest => s.regions ++ blockRegions rest

def otherwiseRegions : Option (List Statement) → List Region
  | none => []
  | some body => blockRegions body

/-- A branch ends where its block does, breaks and comments included. -/
def Branch.regions : Branch → List Region
  | ⟨condition, body, span⟩ => [.mk span false (condition.regions ++ blockRegions body)]

def branchRegions : List Branch → List Region
  | [] => []
  | b :: rest => b.regions ++ branchRegions rest

def CaseBlock.regions : CaseBlock → List Region
  | ⟨clauses, body, span⟩ =>
    [.mk span false (clauses.flatMap CaseClause.regions ++ blockRegions body)]

def caseRegions : List CaseBlock → List Region
  | [] => []
  | b :: rest => b.regions ++ caseRegions rest

end

def Attribute.regions (entry : Attribute) : List Region := [.mk entry.span true []]

def OptionLine.regions (line : OptionLine) : List Region := [.mk line.span true []]

def Definition.regions {η : Type} (head : η → List Region) (definition : Definition η) :
    List Region :=
  [.mk definition.span true (head definition.head ++ blockRegions definition.body)]

def Procedure.regions : Procedure → List Region
  | .sub definition => definition.regions Head.regions
  | .function definition => definition.regions fun head => head.toHead.regions
  | .property definition => definition.regions PropertyHead.regions

def Item.regions : Item → List Region
  | .comment note => note.regions
  | .emptyLine line => line.regions
  | .attributeLine entry => entry.regions
  | .optionLine line => line.regions
  | .declaration declared => declared.regions
  | .procedure definition => definition.regions

def Module.regions (tree : Module) : List Region := tree.items.flatMap Item.regions

theorem expressionRegions_eq_flatMap (values : List Expression) :
    expressionRegions values = values.flatMap Expression.regions := by
  induction values with
  | nil => rfl
  | cons e rest ih => simp [expressionRegions, ih]

theorem segmentRegions_eq_flatMap (segments : List Segment) :
    segmentRegions segments = segments.flatMap Segment.regions := by
  induction segments with
  | nil => rfl
  | cons s rest ih => simp [segmentRegions, ih]

theorem blockRegions_eq_flatMap (block : List Statement) :
    blockRegions block = block.flatMap Statement.regions := by
  induction block with
  | nil => rfl
  | cons s rest ih => simp [blockRegions, ih]

theorem otherwiseRegions_eq_flatMap (otherwise : Option (List Statement)) :
    otherwiseRegions otherwise = otherwise.toList.flatMap blockRegions := by
  cases otherwise <;> simp [otherwiseRegions]

theorem branchRegions_eq_flatMap (branches : List Branch) :
    branchRegions branches = branches.flatMap Branch.regions := by
  induction branches with
  | nil => rfl
  | cons b rest ih => simp [branchRegions, ih]

theorem caseRegions_eq_flatMap (cases : List CaseBlock) :
    caseRegions cases = cases.flatMap CaseBlock.regions := by
  induction cases with
  | nil => rfl
  | cons b rest ih => simp [caseRegions, ih]

/-! ## Constructs that are one region -/

theorem Reference.exists_regions (target : Reference) :
    ∃ isTight parts, target.regions = [.mk target.span isTight parts] := by
  cases target
  exact ⟨_, _, rfl⟩

theorem Call.exists_regions (function : Call) :
    ∃ isTight parts, function.regions = [.mk function.span isTight parts] := by
  cases function
  exact ⟨_, _, rfl⟩

theorem Expression.exists_regions (e : Expression) :
    ∃ isTight parts, e.regions = [.mk e.span isTight parts] := by
  cases e with
  | literal value span => exact ⟨_, _, rfl⟩
  | reference target => exact target.exists_regions
  | call function => exact function.exists_regions

theorem Declaration.exists_regions (declared : Declaration) :
    ∃ isTight parts, declared.regions = [.mk declared.span isTight parts] := by
  cases declared <;> exact ⟨_, _, rfl⟩

theorem Statement.exists_regions (s : Statement) :
    ∃ isTight parts, s.regions = [.mk s.span isTight parts] := by
  cases s <;> exact ⟨_, _, rfl⟩

theorem Procedure.exists_regions (definition : Procedure) :
    ∃ isTight parts, definition.regions = [.mk definition.span isTight parts] := by
  cases definition <;> exact ⟨_, _, rfl⟩

theorem Item.exists_regions (item : Item) :
    ∃ isTight parts, item.regions = [.mk item.span isTight parts] := by
  cases item with
  | declaration declared => exact declared.exists_regions
  | procedure definition => exact definition.exists_regions
  | _ => exact ⟨_, _, rfl⟩

/-! ## Regions between two places -/

/-- The regions lie one after the other between two places, each with its parts inside it, and the
tight ones over texts that start and end with ink. -/
inductive InOrder : Cursor → Cursor → List Region → Prop where
  | nil {c d : Cursor} (h : c.Reaches d) : InOrder c d []
  | cons {c a b d : Cursor} {isTight : Bool} {parts rest : List Region} (before : c.Reaches a)
      (tight : isTight = true → a.skipBlanks = a ∧ a.Begun b) (inside : InOrder a b parts)
      (after : InOrder b d rest) : InOrder c d (.mk (a.spanTo b) isTight parts :: rest)

namespace InOrder

open Cursor (Reaches)

variable {c d e : Cursor} {regions more : List Region}

theorem reaches (h : InOrder c d regions) : Reaches c d := by
  induction h with
  | nil h => exact h
  | cons before _ _ _ inside after => exact before.trans (inside.trans after)

theorem after_reaches (h : Reaches c d) (hr : InOrder d e regions) : InOrder c e regions := by
  cases hr with
  | nil h' => exact .nil (h.trans h')
  | cons before tight inside after => exact .cons (h.trans before) tight inside after

theorem append (h : InOrder c d regions) (h' : InOrder d e more) :
    InOrder c e (regions ++ more) := by
  induction h with
  | nil h => exact after_reaches h h'
  | cons before tight inside _ _ ih => exact .cons before tight inside (ih h')

theorem before_reaches (h : InOrder c d regions) (hr : Reaches d e) : InOrder c e regions := by
  simpa using h.append (.nil hr)

/-- One tight region over a token. -/
theorem token {parts : List Region} (h : c.Token d) (hp : InOrder c.skipBlanks d parts) :
    InOrder c d [.mk (c.skipBlanks.spanTo d) true parts] :=
  .cons (Cursor.reaches_skipBlanks c)
    (fun _ => ⟨Cursor.skipBlanks_skipBlanks c, (Cursor.token_skipBlanks_iff.mpr h).begun⟩) hp
    (.nil (Reaches.refl d))

end InOrder

/-! ## What holds of the spans -/

/-- A byte offset that falls between two characters, or at an end of the text. -/
def IsBoundary (source : List Char) (offset : Nat) : Prop :=
  ∃ before after, source = before ++ after ∧ offset = byteLength before

/-- The spans of a region and of all regions in it fall on characters of the source; parts lie
inside the region, in order and apart from each other; a tight span starts and ends with ink. -/
inductive Region.Sound (source : String) : Region → Prop where
  | mk {span : Span} {isTight : Bool} {parts : List Region} (ordered : span.start ≤ span.stop)
      (bounded : span.stop ≤ byteLength source.toList)
      (starts : IsBoundary source.toList span.start) (stops : IsBoundary source.toList span.stop)
      (tight : isTight = true → IsInked (span.slice source).toList)
      (inside : ∀ part ∈ parts, span.start ≤ part.span.start ∧ part.span.stop ≤ span.stop)
      (apart : parts.Pairwise fun part next => part.span.stop ≤ next.span.start)
      (sound : ∀ part ∈ parts, part.Sound source) : Sound source (.mk span isTight parts)

namespace Cursor

/-- A cursor in a source has passed over the text before it. -/
theorem Reaches.eq_append {source : List Char} {c : Cursor} (h : Reaches (start source) c) :
    ∃ before, source = before ++ c.rest ∧ c.offset = byteLength before := by
  obtain ⟨n, rfl⟩ := h
  exact ⟨source.take n, by simp [start], by simp [offset_skip, start]⟩

theorem isBoundary_offset {source : List Char} {c : Cursor} (h : Reaches (start source) c) :
    IsBoundary source c.offset := by
  obtain ⟨before, hs, ho⟩ := h.eq_append
  exact ⟨before, c.rest, hs, ho⟩

theorem offset_le_byteLength {source : List Char} {c : Cursor} (h : Reaches (start source) c) :
    c.offset ≤ byteLength source := by
  obtain ⟨before, rfl, ho⟩ := h.eq_append
  simp [ho]

/-- At the last offset no text is left. -/
theorem rest_eq_nil_of_offset {source : List Char} {c : Cursor} (h : Reaches (start source) c)
    (hend : c.offset = byteLength source) : c.rest = [] := by
  obtain ⟨before, hs, ho⟩ := h.eq_append
  rw [ho, hs, byteLength_append] at hend
  cases hrest : c.rest with
  | nil => rfl
  | cons char rest =>
    have hsize := char.utf8Size_pos
    rw [hrest, byteLength_cons] at hend
    omega

/-- The span from one place to the next covers the text between them. -/
theorem slice_spanTo_skip {source : String} {c : Cursor} (h : Reaches (start source.toList) c)
    (n : Nat) : (c.spanTo (c.skip n)).slice source = String.ofList (c.rest.take n) := by
  obtain ⟨before, hs, ho⟩ := h.eq_append
  have hsource : source = String.ofList (before ++ c.rest.take n ++ c.rest.drop n) := by
    rw [List.append_assoc, List.take_append_drop, ← hs, String.ofList_toList]
  rw [hsource, spanTo, offset_skip, ho, Span.slice_ofList]

end Cursor

namespace InOrder

open Cursor (Reaches)

theorem sound {source : String} {c d : Cursor} {regions : List Region}
    (h : InOrder c d regions) (hc : Reaches (Cursor.start source.toList) c) :
    (∀ region ∈ regions, region.Sound source ∧ c.offset ≤ region.span.start ∧
      region.span.stop ≤ d.offset) ∧
      regions.Pairwise fun region next => region.span.stop ≤ next.span.start := by
  induction h with
  | nil => simp
  | @cons c a b d isTight parts rest before tight inside after ihInside ihAfter =>
    have ha := hc.trans before
    have hb := ha.trans inside.reaches
    obtain ⟨hparts, hapart⟩ := ihInside ha
    obtain ⟨hrest, hrestApart⟩ := ihAfter hb
    have hle := inside.reaches.offset_le
    constructor
    · intro region hr
      rcases List.mem_cons.mp hr with rfl | hr
      · refine ⟨.mk hle (Cursor.offset_le_byteLength hb) (Cursor.isBoundary_offset ha)
          (Cursor.isBoundary_offset hb) (fun ht => ?_) (fun part hp => (hparts part hp).2) hapart
          fun part hp => (hparts part hp).1, before.offset_le, after.reaches.offset_le⟩
        obtain ⟨hskip, n, rfl, hn⟩ := tight ht
        rw [hskip] at hn ⊢
        rwa [Cursor.slice_spanTo_skip ha, String.toList_ofList]
      · obtain ⟨hs, h₁, h₂⟩ := hrest region hr
        exact ⟨hs, Nat.le_trans (Nat.le_trans before.offset_le hle) h₁, h₂⟩
    · exact List.pairwise_cons.mpr ⟨fun next hn => (hrest next hn).2.1, hrestApart⟩

end InOrder

end VisualBasic
