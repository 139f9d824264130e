import VisualBasic.Visit

/-!
# Nodes inside nodes

`Node.parts` are the nodes directly inside a node, in the order of the source. An address leads from
a node down to one inside it, part by part, and `Preorder` lists the nodes of some trees: each node
before those inside it, and these before the nodes that follow. Such a list has the nodes of all
addresses, in the order of the addresses as words are ordered in a dictionary.
-/

set_option autoImplicit false

namespace VisualBasic

/-! ## Parts -/

def Item.parts : Item → List Node
  | .comment note => [.comment note]
  | .emptyLine _ => []
  | .attributeLine entry => [.attributeLine entry]
  | .optionLine line => [.optionLine line]
  | .declaration declared => [.declaration declared]
  | .procedure definition => [.procedure definition]

def Constant.parts (constant : Constant) : List Node :=
  [.declaredVariable constant.declared, .literal constant.value]

def EnumItem.parts (item : EnumItem) : List Node := item.value.toList.map .literal

def Parameter.parts (parameter : Parameter) : List Node :=
  .declaredVariable parameter.declared :: parameter.default.toList.map .literal

def Declaration.parts : Declaration → List Node
  | .variableGroup group => group.members.map .declaredVariable
  | .constantGroup group => group.constants.flatMap Constant.parts
  | .enumeration declared => declared.items.flatMap EnumItem.parts
  | .record declared => declared.members.map .declaredVariable
  | .externalSub declared => declared.parameters.map .parameter
  | .externalFunction declared => declared.parameters.map .parameter
  | .event head => head.parameters.map .parameter

def Procedure.parts (definition : Procedure) : List Node :=
  definition.head.parameters.map .parameter ++ [.block definition.body]

def Expression.parts : Expression → List Node
  | .literal value _ => [.literal value]
  | .reference target => [.reference target]
  | .call function => [.call function]

def Segment.parts : Segment → List Node
  | .name _ => []
  | .call function => [.call function]

def CaseClause.parts : CaseClause → List Node
  | .value subject => [.expression subject]
  | .range first last => [.expression first, .expression last]
  | .relational _ bound => [.expression bound]

def Branch.parts (branch : Branch) : List Node := [.expression branch.condition, .block branch.body]

def CaseBlock.parts (block : CaseBlock) : List Node :=
  block.clauses.flatMap CaseClause.parts ++ [.block block.body]

def Statement.parts : Statement → List Node
  | .comment note => [.comment note]
  | .emptyLine _ => []
  | .assign _ target value _ => [.reference target, .expression value]
  | .localVariables _ declared _ => declared.map .declaredVariable
  | .redim _ array dimensions _ => .reference array :: dimensions.map .expression
  | .exit _ _ => []
  | .jump _ _ _ => []
  | .onError _ _ => []
  | .resume _ _ => []
  | .label _ _ => []
  | .call _ arguments _ _ => arguments.map .expression
  | .raiseEvent _ arguments _ => arguments.map .expression
  | .whileLoop condition body _ => [.expression condition, .block body]
  | .endlessLoop body _ => [.block body]
  | .testFirstLoop test body _ => [.expression test.condition, .block body]
  | .testLastLoop body test _ => [.block body, .expression test.condition]
  | .forLoop counter first last step body _ =>
    [.reference counter, .expression first, .expression last] ++
      step.toList.map .expression ++ [.block body]
  | .forEach element collection body _ =>
    [.reference element, .expression collection, .block body]
  | .conditional first others otherwise _ =>
    first.parts ++ others.flatMap Branch.parts ++ otherwise.toList.map .block
  | .withBlock target body _ => [.reference target, .block body]
  | .select subject cases otherwise _ =>
    [.expression subject] ++ cases.flatMap CaseBlock.parts ++ otherwise.toList.map .block

namespace Node

/-- The nodes directly inside a node, those in its groups of fields without a node of their own
included. -/
def parts : Node → List Node
  | .module tree => tree.items.map .item
  | .item found => found.parts
  | .comment _ => []
  | .attributeLine _ => []
  | .optionLine _ => []
  | .declaration declared => declared.parts
  | .declaredVariable _ => []
  | .parameter declared => declared.parts
  | .procedure definition => definition.parts
  | .block body => body.map .statement
  | .statement found => found.parts
  | .expression found => found.parts
  | .literal _ => []
  | .reference target => target.qualifier.segments.flatMap Segment.parts
  | .call function => function.arguments.map .expression

/-! ## Addresses -/

/-- The node at an address: the address of a node itself is empty, and a part has a place among the
parts. -/
def follow (node : Node) : List Nat → Option Node
  | [] => some node
  | place :: rest => node.parts[place]?.bind fun part => part.follow rest

/-- A list has the node of each address of a tree once, in the order of the addresses. -/
structure Lists (root : Node) (listing : List Node) (addresses : List (List Nat)) : Prop where
  nodes : listing.map some = addresses.map root.follow
  ascending : addresses.Pairwise (· < ·)
  all : ∀ address, address ∈ addresses ↔ (root.follow address).isSome

/-- The trees of some nodes, each node in front of what is inside it. -/
inductive Preorder : List Node → List Node → Prop where
  | nil : Preorder [] []
  | cons {node : Node} {rest inside after : List Node} (hinside : Preorder node.parts inside)
      (hafter : Preorder rest after) : Preorder (node :: rest) (node :: (inside ++ after))

namespace Preorder

variable {nodes more listing other : List Node}

theorem append (h : Preorder nodes listing) (hmore : Preorder more other) :
    Preorder (nodes ++ more) (listing ++ other) := by
  induction h with
  | nil => exact hmore
  | cons hinside _ _ ih =>
    have hall := Preorder.cons hinside ih
    rwa [← List.append_assoc] at hall

/-- An address among some nodes starts with the place of one of them. -/
theorem exists_addresses (h : Preorder nodes listing) :
    ∃ places : List (Nat × List Nat),
      listing.map some = places.map (fun place => nodes[place.1]?.bind (·.follow place.2)) ∧
      places.Pairwise (fun place next => place.1 :: place.2 < next.1 :: next.2) ∧
      ∀ place, place ∈ places ↔ (nodes[place.1]?.bind (·.follow place.2)).isSome := by
  induction h with
  | nil => exact ⟨[], by simp⟩
  | @cons node rest inside after _ _ ihInside ihAfter =>
    obtain ⟨inner, hinner, hinnerAscending, hinnerAll⟩ := ihInside
    obtain ⟨outer, houter, houterAscending, houterAll⟩ := ihAfter
    refine ⟨(0, []) :: (inner.map (fun place => (0, place.1 :: place.2)) ++
      outer.map fun place => (place.1 + 1, place.2)), ?_, ?_, ?_⟩
    · simp [hinner, houter, follow, Function.comp_def]
    · rw [List.pairwise_cons, List.pairwise_append, List.pairwise_map, List.pairwise_map]
      refine ⟨?_, ?_, ?_, ?_⟩
      · simp only [List.mem_append, List.mem_map]
        rintro next (⟨place, _, rfl⟩ | ⟨place, _, rfl⟩) <;> simp [List.cons_lt_cons_iff]
      · simpa [List.cons_lt_cons_iff] using hinnerAscending
      · simpa [List.cons_lt_cons_iff] using houterAscending
      · simp only [List.mem_map]
        rintro _ ⟨place, _, rfl⟩ _ ⟨next, _, rfl⟩
        simp [List.cons_lt_cons_iff]
    · rintro ⟨first, address⟩
      cases first with
      | zero =>
        cases address with
        | nil => simp [follow]
        | cons place address => simpa [follow] using hinnerAll (place, address)
      | succ first => simpa using houterAll (first, address)

end Preorder

/-- A tree in preorder has each of its nodes once. -/
theorem exists_lists {root : Node} {listing : List Node} (h : Preorder [root] listing) :
    ∃ addresses, root.Lists listing addresses := by
  cases h with
  | @cons _ _ inside after hinside hafter =>
    cases hafter
    obtain ⟨places, hnodes, hascending, hall⟩ := hinside.exists_addresses
    refine ⟨[] :: places.map fun place => place.1 :: place.2, ?_, ?_, ?_⟩
    · simp [hnodes, follow, Function.comp_def]
    · rw [List.pairwise_cons, List.pairwise_map]
      refine ⟨?_, hascending⟩
      intro address haddress
      obtain ⟨place, _, rfl⟩ := List.mem_map.mp haddress
      exact List.nil_lt_cons _ _
    · intro address
      cases address with
      | nil => simp [follow]
      | cons place address => simpa [follow] using hall (place, address)

theorem lt_append (address : List Nat) {further : List Nat} (h : further ≠ []) :
    address < address ++ further := by
  induction address with
  | nil =>
    obtain ⟨place, rest, rfl⟩ := List.exists_cons_of_ne_nil h
    exact List.nil_lt_cons _ _
  | cons place address ih => exact List.cons_lt_cons_iff.mpr (.inr ⟨rfl, ih⟩)

/-- A node comes before each node inside it. -/
theorem Lists.lt_of_inside {root : Node} {listing : List Node} {addresses : List (List Nat)}
    (h : root.Lists listing addresses) {outer inner : Nat} {address further : List Nat}
    (houter : addresses[outer]? = some address)
    (hinner : addresses[inner]? = some (address ++ further)) (hfurther : further ≠ []) :
    outer < inner := by
  have hlt := lt_append address hfurther
  obtain ⟨hbound, houter⟩ := List.getElem?_eq_some_iff.mp houter
  obtain ⟨hbound', hinner⟩ := List.getElem?_eq_some_iff.mp hinner
  rcases Nat.lt_trichotomy outer inner with hbefore | rfl | hafter
  · exact hbefore
  · rw [houter] at hinner
    rw [← hinner] at hlt
    exact absurd hlt (List.lt_irrefl address)
  · have hback := List.pairwise_iff_getElem.mp h.ascending inner outer hbound' hbound hafter
    rw [houter, hinner] at hback
    exact absurd (List.lt_trans hlt hback) (List.lt_irrefl address)

end Node

end VisualBasic
