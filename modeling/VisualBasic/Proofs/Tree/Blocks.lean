import VisualBasic.Tree.Module

/-!
# The blocks of a tree

All blocks of a construct at any depth: those it holds itself and those of the statements in them.
-/

set_option autoImplicit false

namespace VisualBasic

mutual

def Statement.blocks : Statement → List (List Statement)
  | .whileLoop _ body _ => body :: innerBlocks body
  | .endlessLoop body _ => body :: innerBlocks body
  | .testFirstLoop _ body _ => body :: innerBlocks body
  | .testLastLoop body _ _ => body :: innerBlocks body
  | .forLoop _ _ _ _ body _ => body :: innerBlocks body
  | .forEach _ _ body _ => body :: innerBlocks body
  | .conditional first others otherwise _ =>
    first.blocks ++ branchBlocks others ++ otherwiseBlocks otherwise
  | .withBlock _ body _ => body :: innerBlocks body
  | .select _ cases otherwise _ => caseBlocks cases ++ otherwiseBlocks otherwise
  | _ => []

/-- The blocks of the statements of a block. -/
def innerBlocks : List Statement → List (List Statement)
  | [] => []
  | s :: rest => s.blocks ++ innerBlocks rest

def otherwiseBlocks : Option (List Statement) → List (List Statement)
  | none => []
  | some body => body :: innerBlocks body

def Branch.blocks : Branch → List (List Statement)
  | ⟨_, body, _⟩ => body :: innerBlocks body

def branchBlocks : List Branch → List (List Statement)
  | [] => []
  | b :: rest => b.blocks ++ branchBlocks rest

def CaseBlock.blocks : CaseBlock → List (List Statement)
  | ⟨_, body, _⟩ => body :: innerBlocks body

def caseBlocks : List CaseBlock → List (List Statement)
  | [] => []
  | b :: rest => b.blocks ++ caseBlocks rest

end

/-- A block and the blocks inside it. -/
def nestedBlocks (body : List Statement) : List (List Statement) := body :: innerBlocks body

def Item.blocks : Item → List (List Statement)
  | .procedure definition => nestedBlocks definition.body
  | _ => []

def Module.blocks (tree : Module) : List (List Statement) := tree.items.flatMap Item.blocks

variable {P : List Statement → Prop}

theorem forall_mem_innerBlocks {body : List Statement}
    (h : ∀ line ∈ body, ∀ b ∈ line.blocks, P b) : ∀ b ∈ innerBlocks body, P b := by
  induction body with
  | nil => simp [innerBlocks]
  | cons line rest ih =>
    intro b hb
    rcases List.mem_append.mp hb with hb | hb
    · exact h line List.mem_cons_self b hb
    · exact ih (fun other hother => h other (List.mem_cons_of_mem line hother)) b hb

theorem forall_mem_nestedBlocks {body : List Statement} (hbody : P body)
    (h : ∀ line ∈ body, ∀ b ∈ line.blocks, P b) : ∀ b ∈ nestedBlocks body, P b := by
  intro b hb
  rcases List.mem_cons.mp hb with rfl | hb
  · exact hbody
  · exact forall_mem_innerBlocks h b hb

theorem forall_mem_otherwiseBlocks {otherwise : Option (List Statement)}
    (h : ∀ body ∈ otherwise, ∀ b ∈ nestedBlocks body, P b) :
    ∀ b ∈ otherwiseBlocks otherwise, P b := by
  cases otherwise with
  | none => simp [otherwiseBlocks]
  | some body => exact h body rfl

theorem forall_mem_branchBlocks {branches : List Branch}
    (h : ∀ branch ∈ branches, ∀ b ∈ branch.blocks, P b) : ∀ b ∈ branchBlocks branches, P b := by
  induction branches with
  | nil => simp [branchBlocks]
  | cons branch rest ih =>
    intro b hb
    rcases List.mem_append.mp hb with hb | hb
    · exact h branch List.mem_cons_self b hb
    · exact ih (fun other hother => h other (List.mem_cons_of_mem branch hother)) b hb

theorem forall_mem_caseBlocks {cases : List CaseBlock}
    (h : ∀ clause ∈ cases, ∀ b ∈ clause.blocks, P b) : ∀ b ∈ caseBlocks cases, P b := by
  induction cases with
  | nil => simp [caseBlocks]
  | cons clause rest ih =>
    intro b hb
    rcases List.mem_append.mp hb with hb | hb
    · exact h clause List.mem_cons_self b hb
    · exact ih (fun other hother => h other (List.mem_cons_of_mem clause hother)) b hb

end VisualBasic
