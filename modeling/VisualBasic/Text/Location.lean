import VisualBasic.Text.Span

/-!
# Lines and columns

A line ends with LF, with CR LF or with a lone CR, and its last character is the one that completes
the break; lines and columns count from 1 and columns count characters. `Position.ofOffset` gives
the place of a byte offset, `lineAround` the line it lies on and `snippet` the text that follows,
with its breaks made visible.
-/

set_option autoImplicit false

namespace VisualBasic

structure Position where
  line : Nat
  column : Nat
  deriving DecidableEq, Repr

/-- A character completes a line break when it is LF, or a CR that no LF follows. -/
def endsLine (c : Char) (rest : List Char) : Bool :=
  c = '\n' || (c = '\r' && rest.head? ≠ some '\n')

/-- The place after `bytes` more bytes of the text, from the place of its first character. -/
def Position.advance (place : Position) (bytes : Nat) : List Char → Position
  | [] => place
  | c :: rest =>
    if bytes < c.utf8Size then place
    else if endsLine c rest then
      advance ⟨place.line + 1, 1⟩ (bytes - c.utf8Size) rest
    else
      advance ⟨place.line, place.column + 1⟩ (bytes - c.utf8Size) rest

/-- The place of a byte offset; an offset inside a character counts as the character's start, and
one past the end as the end. -/
def Position.ofOffset (source : List Char) (offset : Nat) : Position :=
  Position.advance ⟨1, 1⟩ offset source

def lineAround (before after : List Char) : List Char :=
  (before.reverse.takeWhile (! isBreak ·)).reverse ++ after.takeWhile (! isBreak ·)

theorem isBreak_eq_false_of_mem_lineAround {before after : List Char} {c : Char}
    (h : c ∈ lineAround before after) : isBreak c = false := by
  have part (text : List Char) (hc : c ∈ text.takeWhile (! isBreak ·)) : isBreak c = false := by
    simpa using List.all_eq_true.mp (List.all_takeWhile (l := text)) c hc
  simp only [lineAround, List.mem_append, List.mem_reverse] at h
  rcases h with h | h <;> exact part _ h

/-- A break or a tab is shown as its escape. -/
def visible (c : Char) : List Char :=
  if c = '\r' then ['\\', 'r']
  else if c = '\n' then ['\\', 'n']
  else if c = '\t' then ['\\', 't']
  else [c]

/-- The first `width` characters of the remaining text, and three dots when more remain. -/
def snippet (rest : List Char) (width : Nat) : String :=
  if rest.isEmpty then "<end of input>"
  else
    let shown := (rest.take width).flatMap visible
    String.ofList (if width < rest.length then shown ++ ['.', '.', '.'] else shown)

/-- A place in a file, or in a text that has no file. -/
structure Location where
  line : Nat
  column : Nat
  file : Option String
  deriving DecidableEq, Repr

def Location.unknown : Location := ⟨0, 0, none⟩

def Location.text (place : Location) : String :=
  let lineAndColumn := toString place.line ++ ":" ++ toString place.column
  match place.file with
  | some file => file ++ ":" ++ lineAndColumn
  | none => lineAndColumn

end VisualBasic
