import VisualBasic.Parse.Failure

/-!
# Parsers

A parser starts at a cursor, inside a list of open constructs with the innermost first. It matches
and ends at a later cursor, or does not match, or fails for good. A parser that does not match
leaves nothing behind, so the next alternative starts at the same cursor; a failure is never taken
back. What a routine comes to from a session is told by the parser that follows it.
-/

set_option autoImplicit false

namespace VisualBasic

inductive Outcome (α : Type) where
  | matched (value : α) (after : Cursor)
  | unmatched
  | failed (failure : Failure)

def Parse (α : Type) : Type := List Construct → Cursor → Outcome α

/-- Readers of tokens and expressions, which never fail for good. -/
abbrev Reader (α : Type) : Type := Cursor → Option (α × Cursor)

namespace Parse

variable {α β : Type}

protected def pure (value : α) : Parse α := fun _ c => .matched value c

protected def bind (p : Parse α) (f : α → Parse β) : Parse β := fun inside c =>
  match p inside c with
  | .matched value after => f value inside after
  | .unmatched => .unmatched
  | .failed failure => .failed failure

instance : Monad Parse where
  pure := Parse.pure
  bind := Parse.bind

def unmatched : Parse α := fun _ _ => .unmatched

/-- The first of two alternatives that does not leave the text unmatched. -/
def orElse (p q : Parse α) : Parse α := fun inside c =>
  match p inside c with
  | .unmatched => q inside c
  | outcome => outcome

def firstOf (alternatives : List (Parse α)) : Parse α := alternatives.foldr orElse unmatched

/-- Matches in any case, with nothing where the parser does not. -/
def opt (p : Parse α) : Parse (Option α) :=
  orElse (p.bind fun value => .pure (some value)) (.pure none)

/-- Whether a parser matches; it is passed over where it does. -/
def flag (p : Parse α) : Parse Bool := orElse (p.bind fun _ => .pure true) (.pure false)

/-- Repeats a parser as long as it matches and moves on. -/
def many (p : Parse α) : Parse (List α) := fun inside c =>
  match p inside c with
  | .unmatched => .matched [] c
  | .failed failure => .failed failure
  | .matched value after =>
    if after.rest.length < c.rest.length then
      match many p inside after with
      | .matched values last => .matched (value :: values) last
      | .unmatched => .matched [value] after
      | .failed failure => .failed failure
    else .matched [value] after
termination_by _ c => c.rest.length

/-- A parser that is used inside itself, after some text at least. -/
def fix (step : Parse α → Parse α) : Parse α := fun inside c =>
  step (fun inner d => if d.rest.length < c.rest.length then fix step inner d
  else .unmatched) inside c
termination_by _ c => c.rest.length

/-- Opens a construct for the time of a parser. -/
def within (construct : Construct) (p : Parse α) : Parse α := fun inside c =>
  p (construct :: inside) c

def read (reader : Reader α) : Parse α := fun _ c =>
  match reader c with
  | some (value, after) => .matched value after
  | none => .unmatched

/-- Passes over a token that has no value of its own. -/
def pass (token : Cursor → Option Cursor) : Parse Unit := fun _ c =>
  match token c with
  | some after => .matched () after
  | none => .unmatched

/-- Moves to the next token and gives its place. -/
def mark : Parse Cursor := fun _ c => .matched c.skipBlanks c.skipBlanks

def here : Parse Cursor := fun _ c => .matched c c

def failAt (place : Cursor) (expected : Expected) : Parse α := fun inside c =>
  .failed ⟨inside.headD .module, expected, place, none, none, c⟩

def fail (expected : Expected) : Parse α := fun inside c => failAt c.skipBlanks expected inside c

/-- Adds to a failure what may help, told from the place of the failure. -/
def advise (f : Failure → Failure) (p : Parse α) : Parse α := fun inside c =>
  match p inside c with
  | .failed failure => .failed (f failure)
  | outcome => outcome

def require (expected : Expected) (p : Parse α) : Parse α := orElse p (fail expected)

end Parse

end VisualBasic
