import VisualBasic.Diagnostic.Report
import VisualBasic.Scanner.Token

/-!
# Sessions and routines

A session parses one source. It holds the place reached, the constructs that are open, the settings
of diagnostics and the report. A routine works on a session: it matches, it does not match, or it
fails for good with a diagnostic, and whatever it comes to, it leaves the session behind as it has
made it.
-/

set_option autoImplicit false

namespace VisualBasic

structure Settings where
  /-- Characters of the remaining text that a diagnostic quotes. -/
  snippetWidth : Nat
  /-- The name of the source in diagnostics. -/
  file : Option String
  deriving DecidableEq, Repr

def Settings.standard : Settings := ⟨40, none⟩

structure Session where
  source : String
  settings : Settings
  /-- The constructs open around what comes next, the innermost first. -/
  inside : List Construct
  cursor : Cursor
  report : Report

/-- What running a routine comes to. -/
inductive Step (α : Type) where
  | matched (value : α)
  | unmatched
  | failed (diagnostic : Diagnostic)

structure Parsed (α : Type) where
  step : Step α
  session : Session
  /-- The offsets of the marks of comments, in the order in which they were met. -/
  comments : List Nat

/-- The outcome of a routine, and after a match that of one that goes on from there. -/
def Parsed.andThen {α β : Type} (first : Parsed α) (next : α → Session → Parsed β) : Parsed β :=
  match first.step with
  | .matched value =>
    let last := next value first.session
    ⟨last.step, last.session, first.comments ++ last.comments⟩
  | .unmatched => ⟨.unmatched, first.session, first.comments⟩
  | .failed diagnostic => ⟨.failed diagnostic, first.session, first.comments⟩

structure Routine (α : Type) where
  run : Session → Parsed α

namespace Routine

variable {α σ : Type}

instance : Monad Routine where
  pure value := ⟨fun s => ⟨.matched value, s, []⟩⟩
  bind m f := ⟨fun s => (m.run s).andThen fun value t => (f value).run t⟩

def unmatched : Routine α := ⟨fun s => ⟨.unmatched, s, []⟩⟩

def raise (diagnostic : Diagnostic) : Routine α := ⟨fun s => ⟨.failed diagnostic, s, []⟩⟩

/-- Scans the text at the cursor of the session. -/
def scan (m : Scanner α) : Routine α := ⟨fun s =>
  let scanned := m.run s.cursor
  ⟨.matched scanned.value, { s with cursor := scanned.cursor }, scanned.comments⟩⟩

def met (token : Scanner Bool) : Routine Unit := do
  if ← scan token then return () else unmatched

def found (token : Scanner (Option α)) : Routine α := do
  match ← scan token with
  | some value => return value
  | none => unmatched

/-- Gives nothing where a routine does not match. The session is as that routine has left it. -/
def attempt (m : Routine α) : Routine (Option α) := ⟨fun s =>
  let tried := m.run s
  match tried.step with
  | .matched value => ⟨.matched (some value), tried.session, tried.comments⟩
  | .unmatched => ⟨.matched none, tried.session, tried.comments⟩
  | .failed diagnostic => ⟨.failed diagnostic, tried.session, tried.comments⟩⟩

def orElse (first second : Routine α) : Routine α := do
  match ← attempt first with
  | some value => return value
  | none => second

def firstOf (alternatives : List (Routine α)) : Routine α := alternatives.foldr orElse unmatched

/-- A part that stands after a token, if the token is there. -/
def optional (token : Scanner Bool) (part : Routine α) : Routine (Option α) := do
  if ← scan token then
    let value ← part
    return some value
  else return none

/-- Runs a routine with a construct open. The construct is closed again, whatever the routine comes
to, and where it does not match, the session goes back to where it started. -/
def rule (construct : Construct) (body : Routine α) : Routine α := ⟨fun s =>
  let start := s.cursor
  let ran := body.run { s with inside := construct :: s.inside }
  let closed := { ran.session with inside := ran.session.inside.tail }
  match ran.step with
  | .matched value => ⟨.matched value, closed, ran.comments⟩
  | .unmatched => ⟨.unmatched, { closed with cursor := start }, ran.comments⟩
  | .failed diagnostic => ⟨.failed diagnostic, closed, ran.comments⟩⟩

def loopFrom (turn : σ → Routine (ForInStep σ)) (state : σ) (s : Session) : Parsed σ :=
  ((turn state).run s).andThen fun outcome t =>
    match outcome with
    | .done last => ⟨.matched last, t, []⟩
    | .yield next =>
      if t.cursor.rest.length < s.cursor.rest.length then loopFrom turn next t
      else ⟨.matched next, t, []⟩
termination_by s.cursor.rest.length

/-- Takes turns until one of them is the last. A turn that stays where it started is the last one
too. -/
def loop (turn : σ → Routine (ForInStep σ)) (state : σ) : Routine σ := ⟨loopFrom turn state⟩

def collectTurn (part : Routine (Option α)) (before : List α) : Routine (ForInStep (List α)) := do
  match ← part with
  | some value => return .yield (before ++ [value])
  | none => return .done before

/-- The parts that one turn after the other gives, until one gives none. -/
def collect (part : Routine (Option α)) : Routine (List α) := loop (collectTurn part) []

/-- Runs a routine that uses itself where less text is left. -/
def recurseFrom (body : Routine α → Routine α) (s : Session) : Parsed α :=
  (body ⟨fun t =>
    if t.cursor.rest.length < s.cursor.rest.length then recurseFrom body t
    else ⟨.unmatched, t, []⟩⟩).run s
termination_by s.cursor.rest.length

def recurse (body : Routine α → Routine α) : Routine α := ⟨recurseFrom body⟩

end Routine

end VisualBasic
