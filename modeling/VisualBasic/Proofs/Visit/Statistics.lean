import Mathlib.Order.Bounds.Basic
import VisualBasic.Proofs.Visit.Kinds
import VisualBasic.Proofs.Visit.Walk
import VisualBasic.Statistics

/-!
# What the statistics of a module say

The walk that gathers the statistics counts the nodes of each kind that stand in the tree. It closes
every block that it opens, so that the number of open blocks is at each node the number of blocks
around it, and the greatest such number is the depth of the module.
-/

set_option autoImplicit false

namespace VisualBasic

namespace Node

/-! ## Depths -/

/-- How many blocks are open at an address, with that of the node itself where it is one. -/
def depthAt (root : Node) (address : List Nat) : Nat :=
  address.inits.countP fun above => (root.follow above).any isBlock

/-- The depths of all nodes of some trees. -/
def depths (nodes : List Node) : Set Nat :=
  {depth | ∃ node ∈ nodes, ∃ address, (node.follow address).isSome ∧ node.depthAt address = depth}

theorem depthAt_nil (node : Node) : node.depthAt [] = if node.isBlock then 1 else 0 := by
  cases hblock : node.isBlock <;> simp [depthAt, follow, hblock]

theorem depthAt_cons {node part : Node} {place : Nat} (h : node.parts[place]? = some part)
    (address : List Nat) :
    node.depthAt (place :: address) = (if node.isBlock then 1 else 0) + part.depthAt address := by
  cases hblock : node.isBlock <;>
    simp [depthAt, follow, h, hblock, Function.comp_def, Nat.add_comm]

/-- The depths inside a node are those of its parts, one more where the node is a block. -/
theorem forall_depths_cons {node : Node} {rest : List Node} {P : Nat → Prop} :
    (∀ depth ∈ depths (node :: rest), P depth) ↔
      P (if node.isBlock then 1 else 0) ∧
        (∀ depth ∈ depths node.parts, P ((if node.isBlock then 1 else 0) + depth)) ∧
        ∀ depth ∈ depths rest, P depth := by
  constructor
  · intro h
    refine ⟨?_, ?_, ?_⟩
    · exact h _ ⟨node, List.mem_cons_self, [], rfl, depthAt_nil node⟩
    · rintro _ ⟨part, hpart, address, hfollow, rfl⟩
      obtain ⟨place, hplace⟩ := List.mem_iff_getElem?.mp hpart
      refine h _ ⟨node, List.mem_cons_self, place :: address, ?_, depthAt_cons hplace address⟩
      simpa [follow, hplace] using hfollow
    · rintro _ ⟨other, hother, found⟩
      exact h _ ⟨other, List.mem_cons_of_mem node hother, found⟩
  · rintro ⟨hnode, hparts, hrest⟩ depth ⟨other, hother, address, hfollow, rfl⟩
    rcases List.mem_cons.mp hother with rfl | hother
    · cases address with
      | nil =>
        rw [depthAt_nil]
        exact hnode
      | cons place address =>
        obtain ⟨part, hplace, hpart⟩ : ∃ part, other.parts[place]? = some part ∧
            (part.follow address).isSome := by
          simpa [follow, Option.isSome_bind, Option.any_eq_true] using hfollow
        rw [depthAt_cons hplace]
        exact hparts _ ⟨part, List.mem_of_getElem? hplace, address, hpart, rfl⟩
    · exact hrest _ ⟨other, hother, address, hfollow, rfl⟩

end Node

namespace Statistics

/-! ## Counts -/

/-- A count goes up by one at each node of a kind and stays as it is at all others. -/
def Counts (count : Statistics → Nat) (kind : Node → Bool) : Prop :=
  ∀ node tally, count (enter node tally).counts = count tally.counts + if kind node then 1 else 0

/-- The count of the items of a section. -/
def ofSection (counts : Statistics) : Section → Nat
  | .attributes => counts.attributes
  | .options => counts.options
  | .declarations => counts.declarations
  | .procedures => counts.procedures

theorem counts_statements : Counts statements Node.isCode := by
  intro node tally
  cases node with
  | statement found => cases found <;> rfl
  | _ => rfl

theorem counts_comments : Counts comments Node.isComment := by
  intro node tally
  cases node with
  | statement found => cases found <;> rfl
  | _ => rfl

theorem counts_functionCalls : Counts functionCalls Node.isCall := by
  intro node tally
  cases node with
  | statement found => cases found <;> rfl
  | _ => rfl

theorem counts_ofSection (wanted : Section) :
    Counts (fun counts => counts.ofSection wanted) (Node.isPartOf wanted) := by
  intro node tally
  cases node with
  | statement found => cases found <;> cases wanted <;> rfl
  | _ => cases wanted <;> rfl

theorem counts_leave (node : Node) (tally : Tally) : (leave node tally).counts = tally.counts := by
  cases node <;> rfl

theorem Counts.foldl_act {count : Statistics → Nat} {kind : Node → Bool} (h : Counts count kind)
    (moves : List Move) (tally : Tally) :
    count (moves.foldl visitor.act tally).counts =
      count tally.counts + (moves.filterMap Move.entered?).countP kind := by
  induction moves generalizing tally with
  | nil => rfl
  | cons move rest ih =>
    rw [List.foldl_cons, ih]
    cases move with
    | enter node =>
      have hnode : count (visitor.act tally (.enter node)).counts = _ := h node tally
      have hentered : (Move.enter node :: rest).filterMap Move.entered? =
          node :: rest.filterMap Move.entered? := rfl
      rw [hnode, hentered, List.countP_cons]
      omega
    | leave node =>
      have hnode : (visitor.act tally (.leave node)).counts = tally.counts :=
        counts_leave node tally
      rw [hnode, List.filterMap_cons_none rfl]

/-! ## Open blocks -/

theorem depth_enter (node : Node) (tally : Tally) :
    (enter node tally).depth = tally.depth + if node.isBlock then 1 else 0 := by
  cases node with
  | statement found => cases found <;> rfl
  | _ => rfl

theorem maxDepth_enter (node : Node) {tally : Tally} (h : tally.depth ≤ tally.counts.maxDepth) :
    (enter node tally).counts.maxDepth =
      max tally.counts.maxDepth (tally.depth + if node.isBlock then 1 else 0) := by
  have hmax : max tally.counts.maxDepth tally.depth = tally.counts.maxDepth := Nat.max_eq_left h
  cases node with
  | statement found => cases found <;> exact hmax.symm
  | block => rfl
  | _ => exact hmax.symm

theorem depth_leave (node : Node) (tally : Tally) :
    (leave node tally).depth = tally.depth - if node.isBlock then 1 else 0 := by
  cases node <;> rfl

/-- A tour closes the blocks that it opens, and gets as deep as the deepest node. -/
theorem foldl_act_depth {nodes : List Node} {moves : List Move}
    (h : Tour nodes moves) {tally : Tally}
    (hdepth : tally.depth ≤ tally.counts.maxDepth) :
    (moves.foldl visitor.act tally).depth = tally.depth ∧
      ∀ bound, (moves.foldl visitor.act tally).counts.maxDepth ≤ bound ↔
        tally.counts.maxDepth ≤ bound ∧ ∀ depth ∈ Node.depths nodes, tally.depth +
        depth ≤ bound := by
  induction h generalizing tally with
  | nil => simp [Node.depths]
  | @cons node rest inside after _ _ ihInside ihAfter =>
    rw [List.foldl_cons, List.foldl_append, List.foldl_cons]
    have hopen : (visitor.act tally (.enter node)).depth = _ := depth_enter node tally
    have hopenMax : (visitor.act tally (.enter node)).counts.maxDepth = _ :=
      maxDepth_enter node hdepth
    generalize visitor.act tally (.enter node) = opened at hopen hopenMax ⊢
    obtain ⟨hinside, hinsideMax⟩ := @ihInside opened (by omega)
    generalize inside.foldl visitor.act opened = walked at hinside hinsideMax ⊢
    have hclose : (visitor.act walked (.leave node)).depth = _ := depth_leave node walked
    have hcloseMax : (visitor.act walked (.leave node)).counts = _ := counts_leave node walked
    generalize visitor.act walked (.leave node) = closed at hclose hcloseMax ⊢
    have hback : closed.depth = tally.depth := by omega
    have hkept : opened.counts.maxDepth ≤ walked.counts.maxDepth :=
      ((hinsideMax walked.counts.maxDepth).mp (Nat.le_refl _)).1
    obtain ⟨hafter, hafterMax⟩ := @ihAfter closed (by rw [hback, hcloseMax]; omega)
    refine ⟨hafter.trans hback, fun bound => ?_⟩
    rw [hafterMax, hcloseMax, hinsideMax, hopenMax, hback, hopen,
      Node.forall_depths_cons, Nat.max_le]
    simp only [and_assoc, Nat.add_assoc]

/-! ## Modules -/

/-- The statistics of a tree, told from where its nodes stand. -/
structure Describes (counts : Statistics) (tree : Module) : Prop where
  statements : ((Node.module tree).places Node.isCode).encard = counts.statements
  comments : ((Node.module tree).places Node.isRemark).encard = counts.comments
  functionCalls : ((Node.module tree).places Node.isCall).encard = counts.functionCalls
  items (wanted : Section) :
    counts.ofSection wanted = tree.items.countP fun item => item.section? = some wanted
  maxDepth : IsGreatest (Node.depths [.module tree]) counts.maxDepth

/-- The least bound of some numbers is one of them. -/
theorem isGreatest_of_forall_le_iff {values : Set Nat} {greatest : Nat} (hvalues : values.Nonempty)
    (h : ∀ bound, greatest ≤ bound ↔ ∀ value ∈ values, value ≤ bound) :
    IsGreatest values greatest := by
  have hupper := (h greatest).mp (Nat.le_refl greatest)
  refine ⟨?_, hupper⟩
  by_contra hmem
  have hbelow : ∀ value ∈ values, value ≤ greatest - 1 := by
    intro value hvalue
    have hle := hupper value hvalue
    have hne : value ≠ greatest := fun heq => hmem (heq ▸ hvalue)
    omega
  obtain ⟨value, hvalue⟩ := hvalues
  have hpred := (h (greatest - 1)).mpr hbelow
  have hle := hupper value hvalue
  have heq : value = greatest := by omega
  exact hmem (heq ▸ hvalue)

/-- The statistics of a module count what stands in its tree, and no block is left open by the walk
that gathers them. -/
theorem describes_ofModule (tree : Module) :
    (ofModule tree).Describes tree ∧ (tally tree).depth = 0 := by
  obtain ⟨moves, htour, hmoves⟩ := Visitor.walks_module tree
  have hwalk : tally tree = moves.foldl visitor.act ⟨zero, 0⟩ :=
    hmoves _ visitor (fun _ => rfl) _
  have hpreorder := htour.preorder
  obtain ⟨addresses, hlists⟩ := Node.exists_lists hpreorder
  have hstart : (⟨zero, 0⟩ : Tally).depth ≤ (⟨zero, 0⟩ : Tally).counts.maxDepth := Nat.le_refl 0
  obtain ⟨hdepth, hmax⟩ := foldl_act_depth htour hstart
  have hcount {count : Statistics → Nat} {kind : Node → Bool} (h : Counts count kind)
      (hzero : count zero = 0) :
      count (ofModule tree) = (moves.filterMap Move.entered?).countP kind := by
    rw [ofModule, hwalk, h.foldl_act, hzero, Nat.zero_add]
  have hcounts : (ofModule tree).Describes tree := {
    statements := by
      rw [hlists.encard_places, hcount counts_statements rfl]
    comments := by
      have hremarks := hpreorder.countP_eq fun node _ => Node.countP_isComment_parts node
      rw [hlists.encard_places, hcount counts_comments rfl, hremarks]
      simp [Node.isComment]
    functionCalls := by
      rw [hlists.encard_places, hcount counts_functionCalls rfl]
    items := by
      intro wanted
      have hparts := hpreorder.countP_eq fun node _ => Node.countP_isPartOf_parts wanted node
      have hcounted := hcount (counts_ofSection wanted) (by cases wanted <;> rfl)
      rw [hcounted, hparts, hpreorder.countP_isItemOf]
      cases wanted <;> simp [Node.isPartOf]
    maxDepth := by
      refine isGreatest_of_forall_le_iff ?_ ?_
      · exact ⟨_, _, List.mem_singleton_self _, [], rfl, rfl⟩
      · intro bound
        rw [ofModule, hwalk, hmax]
        simp [zero] }
  exact ⟨hcounts, by rw [hwalk, hdepth]⟩

end Statistics

end VisualBasic
