import VisualBasic.Text.Span
import VisualBasic.Tree.Literal

/-!
# Expressions

An expression is a literal, a reference to a variable or a call of a function. A reference such as
`a.b(1).c` ends in a plain name; the segments before it, each followed by a dot, are its qualifier.
A leading dot refers to the target of the enclosing `With` block.
-/

set_option autoImplicit false

namespace VisualBasic

mutual

inductive Expression where
  | literal (value : Literal) (span : Span)
  | reference (target : Reference)
  | call (call : Call)

structure Call where
  name : String
  arguments : List Expression
  span : Span

inductive Segment where
  | name (text : String)
  | call (call : Call)

structure Qualifier where
  leadingDot : Bool
  segments : List Segment
  span : Span

structure Reference where
  qualifier : Qualifier
  name : String
  span : Span

end

/-- A qualifier with nothing in it, at a place of the source. -/
def Qualifier.none (place : Nat) : Qualifier := ⟨false, [], ⟨place, place⟩⟩

def Qualifier.isEmpty (qualifier : Qualifier) : Bool :=
  ! qualifier.leadingDot && qualifier.segments.isEmpty

/-- A plain name that nothing qualifies. -/
def Reference.isSimple (target : Reference) : Bool := target.qualifier.isEmpty

namespace Expression

def span : Expression → Span
  | .literal _ place => place
  | .reference target => target.span
  | .call function => function.span

def literal? : Expression → Option Literal
  | .literal value _ => some value
  | _ => .none

def reference? : Expression → Option Reference
  | .reference target => some target
  | _ => .none

end Expression

end VisualBasic
