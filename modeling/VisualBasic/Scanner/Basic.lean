import VisualBasic.Cursor.Basic

/-!
# Scanners

A scanner looks at the text at a cursor and moves the cursor over it. Nothing puts the cursor back
by itself: a scanner that does not find what it looks for moves back to the place that it has noted.
Besides its value a scanner tells at which offsets it has begun comments.
-/

set_option autoImplicit false

namespace VisualBasic

structure Scanned (α : Type) where
  value : α
  cursor : Cursor
  /-- The offsets of the marks of comments, in the order in which they were met. -/
  comments : List Nat
  deriving DecidableEq, Repr

/-- The outcome of a scanner, and then of one that goes on from there. -/
def Scanned.andThen {α β : Type} (first : Scanned α) (next : α → Cursor → Scanned β) : Scanned β :=
  let last := next first.value first.cursor
  ⟨last.value, last.cursor, first.comments ++ last.comments⟩

structure Scanner (α : Type) where
  run : Cursor → Scanned α

namespace Scanner

variable {α σ : Type}

instance : Monad Scanner where
  pure value := ⟨fun c => ⟨value, c, []⟩⟩
  bind m f := ⟨fun c => (m.run c).andThen fun value d => (f value).run d⟩

def place : Scanner Cursor := ⟨fun c => ⟨c, c, []⟩⟩

def moveTo (place : Cursor) : Scanner Unit := ⟨fun _ => ⟨(), place, []⟩⟩

def rest : Scanner (List Char) := ⟨fun c => ⟨c.rest, c, []⟩⟩

def peekChar : Scanner (Option Char) := ⟨fun c => ⟨c.rest.head?, c, []⟩⟩

def isAtEnd : Scanner Bool := ⟨fun c => ⟨c.isAtEnd, c, []⟩⟩

def isAfterBlank : Scanner Bool := ⟨fun c => ⟨c.afterBlank, c, []⟩⟩

/-- Past the next character. -/
def bump : Scanner Unit := ⟨fun c => ⟨(), c.next, []⟩⟩

/-- Past a number of characters. -/
def advance (n : Nat) : Scanner Unit := ⟨fun c => ⟨(), c.skip n, []⟩⟩

/-- The characters passed over since a place. -/
def passedSince (start : Cursor) : Scanner (List Char) :=
  ⟨fun c => ⟨start.rest.take (start.rest.length - c.rest.length), c, []⟩⟩

/-- Notes that a comment begins at a place. -/
def noteComment (mark : Cursor) : Scanner Unit := ⟨fun c => ⟨(), c, [mark.offset]⟩⟩

/-- Takes turns from a place on. -/
def loopFrom (turn : σ → Scanner (ForInStep σ)) (state : σ) (c : Cursor) : Scanned σ :=
  ((turn state).run c).andThen fun outcome d =>
    match outcome with
    | .done last => ⟨last, d, []⟩
    | .yield next => if d.rest.length < c.rest.length then loopFrom turn next d else ⟨next, d, []⟩
termination_by c.rest.length

/-- Takes turns until one of them is the last. A turn that stays where it started is the last one
too. -/
def loop (turn : σ → Scanner (ForInStep σ)) (state : σ) : Scanner σ := ⟨loopFrom turn state⟩

def skipTurn (p : Char → Bool) (_ : Unit) : Scanner (ForInStep Unit) := do
  if (← peekChar).any p then
    bump
    return .yield ()
  else return .done ()

/-- Passes over characters of a class. -/
def skipWhile (p : Char → Bool) : Scanner Unit := loop (skipTurn p) ()

end Scanner

end VisualBasic
