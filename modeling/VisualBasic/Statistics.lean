import VisualBasic.Json
import VisualBasic.Visit

/-!
# Statistics of a module

Counts of the nodes of a module and the greatest depth to which blocks are nested. The body of a
procedure has depth 1.
-/

set_option autoImplicit false

namespace VisualBasic

structure Statistics where
  comments : Nat
  attributes : Nat
  options : Nat
  declarations : Nat
  procedures : Nat
  /-- Statements other than comments and empty lines. -/
  statements : Nat
  maxDepth : Nat
  functionCalls : Nat
  deriving DecidableEq, Repr

namespace Statistics

def zero : Statistics := ⟨0, 0, 0, 0, 0, 0, 0, 0⟩

/-- Counts, together with the number of blocks that are open. -/
structure Tally where
  counts : Statistics
  depth : Nat
  deriving DecidableEq, Repr

/-- Counts a node on the way in. -/
def enter (node : Node) (tally : Tally) : Tally :=
  let counts := tally.counts
  match node with
  | .comment _ => { tally with counts := { counts with comments := counts.comments + 1 } }
  | .attributeLine _ => { tally with counts := { counts with attributes := counts.attributes + 1 } }
  | .optionLine _ => { tally with counts := { counts with options := counts.options + 1 } }
  | .declaration _ =>
    { tally with counts := { counts with declarations := counts.declarations + 1 } }
  | .procedure _ => { tally with counts := { counts with procedures := counts.procedures + 1 } }
  | .statement s =>
    if s.isTrivia then tally
    else { tally with counts := { counts with statements := counts.statements + 1 } }
  | .call _ => { tally with counts := { counts with functionCalls := counts.functionCalls + 1 } }
  | .block _ =>
    { counts := { counts with maxDepth := max counts.maxDepth (tally.depth + 1) }
      depth := tally.depth + 1 }
  | _ => tally

/-- A block is closed on the way out. -/
def leave (node : Node) (tally : Tally) : Tally :=
  match node with
  | .block _ => { tally with depth := tally.depth - 1 }
  | _ => tally

def visitor : Visitor Tally := ⟨enter, fun _ => true, leave⟩

def tally (module : Module) : Tally := module.visit visitor ⟨zero, 0⟩

def ofModule (module : Module) : Statistics := (tally module).counts

def toJson (counts : Statistics) : Json :=
  .object
    [("comments", .integer counts.comments), ("attributes", .integer counts.attributes),
      ("options", .integer counts.options), ("declarations", .integer counts.declarations),
      ("procedures", .integer counts.procedures), ("statements", .integer counts.statements),
      ("max_depth", .integer counts.maxDepth), ("function_calls", .integer counts.functionCalls)]

end Statistics

end VisualBasic
