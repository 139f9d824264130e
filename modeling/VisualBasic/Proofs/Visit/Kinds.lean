import Mathlib.Data.Set.Card
import VisualBasic.Proofs.Visit.Nodes
import VisualBasic.Section

/-!
# Where the nodes of a kind stand

The places of a kind are the addresses of its nodes in a tree; a listing of the tree has one node of
the kind for each. Comments and the parts of items are inside one node of their own each, and all
other nodes stand inside declarations and procedures, so that such kinds are counted by what holds
them.
-/

set_option autoImplicit false

namespace VisualBasic

namespace Node

variable {nodes listing : List Node}

/-- Where in a tree the nodes of a kind stand. -/
def places (root : Node) (kind : Node → Bool) : Set (List Nat) :=
  {address | (root.follow address).any kind = true}

/-- A listing of a tree has as many nodes of a kind as stand in the tree. -/
theorem Lists.encard_places {root : Node} {addresses : List (List Nat)}
    (h : root.Lists listing addresses) (kind : Node → Bool) :
    (root.places kind).encard = listing.countP kind := by
  have hnodup : addresses.Nodup := by
    refine h.ascending.imp ?_
    rintro address _ hlt rfl
    exact List.lt_irrefl address hlt
  have hplaces : root.places kind =
      (addresses.filter fun address => (root.follow address).any kind).toFinset := by
    ext address
    simp only [places, Set.mem_ofPred_eq, List.coe_toFinset, List.mem_filter, h.all]
    constructor
    · intro hany
      obtain ⟨node, hnode, _⟩ := (Option.any_eq_true _ _).mp hany
      exact ⟨by rw [hnode]; rfl, hany⟩
    · exact And.right
  have hcount : (listing.map some).countP (Option.any kind) =
      (addresses.map root.follow).countP (Option.any kind) := by rw [h.nodes]
  simp only [List.countP_map, Function.comp_def, Option.any_some] at hcount
  rw [hplaces, Set.encard_coe_eq_coe_finsetCard, List.toFinset_card_of_nodup (hnodup.filter _),
    ← List.countP_eq_length_filter, hcount]

/-! ## Kinds -/

/-- A statement other than a comment or an empty line. -/
def isCode : Node → Bool
  | .statement found => ! found.isTrivia
  | _ => false

/-- A comment among the items of a module or the statements of a block. -/
def isRemark : Node → Bool
  | .item (.comment _) => true
  | .statement (.comment _) => true
  | _ => false

def isComment : Node → Bool
  | .comment _ => true
  | _ => false

def isCall : Node → Bool
  | .call _ => true
  | _ => false

def isBlock : Node → Bool
  | .block _ => true
  | _ => false

def isModule : Node → Bool
  | .module _ => true
  | _ => false

def isItemOf (wanted : Section) : Node → Bool
  | .item found => found.section? = some wanted
  | _ => false

/-- What an item of a section consists of. -/
def isPartOf : Section → Node → Bool
  | .attributes, .attributeLine _ => true
  | .options, .optionLine _ => true
  | .declarations, .declaration _ => true
  | .procedures, .procedure _ => true
  | _, _ => false

/-- A node that stands inside declarations and procedures only. -/
def isInner : Node → Bool
  | .module _ => false
  | .item _ => false
  | .comment _ => false
  | .attributeLine _ => false
  | .optionLine _ => false
  | .declaration _ => false
  | .procedure _ => false
  | _ => true

/-- A node with parts that are not inner ones. -/
def isOuter : Node → Bool
  | .module _ => true
  | .item _ => true
  | .statement (.comment _) => true
  | _ => false

theorem all_isInner_declaration (declared : Declaration) : declared.parts.all isInner = true := by
  cases declared <;>
    simp [Declaration.parts, Constant.parts, EnumItem.parts, List.all_flatMap, Function.comp_def,
      isInner]

theorem all_isInner_clause (clause : CaseClause) : clause.parts.all isInner = true := by
  cases clause <;> rfl

theorem all_isInner_statement {found : Statement} (h : (Node.statement found).isOuter = false) :
    found.parts.all isInner = true := by
  cases found with
  | comment => contradiction
  | _ =>
    simp [Statement.parts, Branch.parts, CaseBlock.parts, List.all_flatMap, Function.comp_def,
      all_isInner_clause, isInner]

theorem all_isInner_parts {node : Node} (h : node.isOuter = false) :
    node.parts.all isInner = true := by
  cases node with
  | module => contradiction
  | item => contradiction
  | declaration declared => exact all_isInner_declaration declared
  | statement found => exact all_isInner_statement h
  | reference target =>
    rw [parts, List.all_flatMap, List.all_eq_true]
    intro segment _
    cases segment <;> rfl
  | expression found => cases found <;> rfl
  | _ => simp [parts, Procedure.parts, Parameter.parts, Function.comp_def, isInner]

/-! ## Parts of a kind -/

variable {part whole : Node → Bool}

/-- Of a kind that is not inner, only outer nodes have parts. -/
theorem countP_parts_eq {node : Node}
    (hpart : ∀ found : Node, found.isInner = true → part found = false)
    (hwhole : node.isOuter = false → whole node = false)
    (houter : node.isOuter = true → node.parts.countP part = if whole node then 1 else 0) :
    node.parts.countP part = if whole node then 1 else 0 := by
  cases h : node.isOuter with
  | true => exact houter h
  | false =>
    rw [hwhole h, if_neg Bool.false_ne_true, List.countP_eq_zero]
    intro found hfound
    rw [hpart found (List.all_eq_true.mp (all_isInner_parts h) found hfound)]
    exact Bool.false_ne_true

theorem countP_parts_eq_zero {node : Node}
    (hpart : ∀ found : Node, found.isInner = true → part found = false)
    (houter : node.isOuter = true → node.parts.countP part = 0) : node.parts.countP part = 0 :=
  @countP_parts_eq part (fun _ => false) node hpart (fun _ => rfl) houter

theorem countP_isComment_parts (node : Node) :
    node.parts.countP isComment = if node.isRemark then 1 else 0 := by
  refine countP_parts_eq ?_ ?_ ?_
  · intro found h
    cases found <;> first | rfl | contradiction
  · intro h
    cases node with
    | item => contradiction
    | statement found => cases found <;> first | rfl | contradiction
    | _ => rfl
  · intro h
    cases node with
    | module tree => simp [parts, isComment, isRemark, Function.comp_def]
    | item found => cases found <;> rfl
    | statement found => cases found <;> first | rfl | contradiction
    | _ => contradiction

theorem countP_isPartOf_parts (wanted : Section) (node : Node) :
    node.parts.countP (isPartOf wanted) = if node.isItemOf wanted then 1 else 0 := by
  refine countP_parts_eq ?_ ?_ ?_
  · intro found h
    cases found <;> first | contradiction | cases wanted <;> rfl
  · intro h
    cases node <;> first | rfl | contradiction
  · intro h
    cases node with
    | module tree => cases wanted <;> simp [parts, isPartOf, isItemOf, Function.comp_def]
    | item found => cases found <;> cases wanted <;> rfl
    | statement found => cases found <;> first | contradiction | cases wanted <;> rfl
    | _ => contradiction

theorem countP_isModule_parts (node : Node) : node.parts.countP isModule = 0 := by
  refine countP_parts_eq_zero ?_ ?_
  · intro found h
    cases found <;> first | rfl | contradiction
  · intro h
    cases node with
    | module tree => simp [parts, isModule, Function.comp_def]
    | item found => cases found <;> rfl
    | statement found => cases found <;> first | rfl | contradiction
    | _ => contradiction

theorem countP_isItemOf_parts (wanted : Section) {node : Node} (hmodule : node.isModule = false) :
    node.parts.countP (isItemOf wanted) = 0 := by
  refine countP_parts_eq_zero ?_ ?_
  · intro found h
    cases found <;> first | rfl | contradiction
  · intro h
    cases node with
    | item found => cases found <;> rfl
    | statement found => cases found <;> first | rfl | contradiction
    | _ => contradiction

/-! ## Counting -/

/-- A kind of which each node of another kind has one part and no other node has any. -/
theorem Preorder.countP_eq (h : Preorder nodes listing)
    (hparts : ∀ node ∈ listing, node.parts.countP part = if whole node then 1 else 0) :
    listing.countP part = nodes.countP part + listing.countP whole := by
  induction h with
  | nil => rfl
  | @cons node rest inside after _ _ ihInside ihAfter =>
    have hnode := hparts node List.mem_cons_self
    have hinside := ihInside fun found hfound => hparts found (by simp [hfound])
    have hafter := ihAfter fun found hfound => hparts found (by simp [hfound])
    rw [List.countP_cons, List.countP_append, List.countP_cons, List.countP_cons,
      List.countP_append, hinside, hafter, hnode]
    omega

/-- A kind that is never a part of a listed node. -/
theorem Preorder.countP_eq_of_parts (h : Preorder nodes listing)
    (hparts : ∀ node ∈ listing, node.parts.countP part = 0) :
    listing.countP part = nodes.countP part := by
  have hcount : listing.countP part = nodes.countP part + listing.countP fun _ => false :=
    h.countP_eq hparts
  rwa [List.countP_false] at hcount

/-- Items stand in the module and nowhere else. -/
theorem Preorder.countP_isItemOf {tree : Module} (h : Preorder [.module tree] listing)
    (wanted : Section) :
    listing.countP (isItemOf wanted) = tree.items.countP fun item => item.section? =
    some wanted := by
  cases h with
  | @cons _ _ inside _ hinside hafter =>
    cases hafter
    have hmodules : inside.countP isModule = 0 := by
      rw [hinside.countP_eq_of_parts fun node _ => countP_isModule_parts node]
      simp [parts, isModule, Function.comp_def]
    have hnone : ∀ node ∈ inside, node.isModule = false := by
      simpa [List.countP_eq_zero] using hmodules
    have hitems := hinside.countP_eq_of_parts fun node hnode =>
      countP_isItemOf_parts wanted (hnone node hnode)
    simpa [parts, isItemOf, List.countP_cons, Function.comp_def] using hitems

end Node

end VisualBasic
