import VisualBasic.Cursor.Word
import VisualBasic.Scanner.Basic

/-!
# Scanning tokens

Each scanner passes over leading blanks, except those for a character that stands exactly here, for
a line break and for a blank line. One that does not find its token moves back to where it started.
-/

set_option autoImplicit false

namespace VisualBasic

namespace Scanner

/-! ## Blanks and line breaks -/

/-- Past one line break: CR LF, LF or CR. -/
def lineBreak : Scanner Bool := do
  match ← rest with
  | '\r' :: '\n' :: _ =>
    advance 2
    return true
  | '\n' :: _ =>
    advance 1
    return true
  | '\r' :: _ =>
    advance 1
    return true
  | _ => return false

/-- Past an underscore after a blank that, further blanks aside, ends its line. -/
def lineContinuation : Scanner Bool := do
  let text ← rest
  if (← isAfterBlank) && text.head? = some '_' then
    let start ← place
    bump
    skipWhile isBlank
    if ← lineBreak then return true
    else
      moveTo start
      return false
  else return false

def blanksTurn (_ : Unit) : Scanner (ForInStep Unit) := do
  skipWhile isBlank
  if ← lineContinuation then return .yield () else return .done ()

/-- Past blanks and line continuations. -/
def skipBlanks : Scanner Unit := loop blanksTurn ()

/-- Past a line that holds only blanks, its break included. -/
def blankLine : Scanner Bool := do
  let start ← place
  skipWhile isBlank
  if ← lineBreak then return true
  else
    moveTo start
    return false

/-! ## Symbols, words and strings -/

def symbol (char : Char) : Scanner Bool := do
  let start ← place
  skipBlanks
  if (← peekChar) = some char then
    bump
    return true
  else
    moveTo start
    return false

def adjacent (char : Char) : Scanner Bool := do
  if (← peekChar) = some char then
    bump
    return true
  else return false

def exactly (text : List Char) : Scanner Bool := do
  let start ← place
  skipBlanks
  if text.isPrefixOf (← rest) then
    advance text.length
    return true
  else
    moveTo start
    return false

/-- The letters of a keyword in any case, with no word character after them. -/
def keyword (k : Keyword) : Scanner Bool := do
  let start ← place
  skipBlanks
  let text ← rest
  if startsWithLetters k.letters text && !(text.drop k.letters.length).head?.any isWordChar then
    advance k.letters.length
    return true
  else
    moveTo start
    return false

def peekKeyword (k : Keyword) : Scanner Bool := do
  let start ← place
  let isMet ← keyword k
  moveTo start
  return isMet

def word : Scanner (Option String) := do
  let start ← place
  skipBlanks
  let token ← place
  if (← peekChar).any isWordStart then
    bump
    skipWhile isWordChar
    return some (String.ofList (← passedSince token))
  else
    moveTo start
    return none

def peekWord : Scanner (Option String) := do
  let start ← place
  let found ← word
  moveTo start
  return found

def identifier : Scanner (Option String) := do
  let start ← place
  match ← word with
  | none => return none
  | some found =>
    if isReservedWord found then
      moveTo start
      return none
    else return some found

/-- A turn through a quoted string: whether its closing quote has been met, after what was read
before. -/
def quotedTurn (value : List Char × Bool) : Scanner (ForInStep (List Char × Bool)) := do
  match ← peekChar with
  | some '"' =>
    bump
    if (← peekChar) = some '"' then
      bump
      return .yield (value.1 ++ ['"'], false)
    else return .done (value.1, true)
  | some '\r' => return .done (value.1, false)
  | some '\n' => return .done (value.1, false)
  | none => return .done (value.1, false)
  | some c =>
    bump
    return .yield (value.1 ++ [c], false)

/-- The string between quotes on one line; a quote inside it is written twice. -/
def quoted : Scanner (Option String) := do
  let start ← place
  skipBlanks
  if (← peekChar) ≠ some '"' then
    moveTo start
    return none
  else
    bump
    let (value, isClosed) ← loop quotedTurn ([], false)
    if isClosed then return some (String.ofList value)
    else
      moveTo start
      return none

/-! ## Comments and the ends of statements -/

def commentMark : Scanner Bool := do
  if (← peekChar) = some '\x27' then
    bump
    return true
  else keyword .Rem

/-- The text of a comment after its mark, up to but not including the line break. -/
def comment : Scanner (Option String) := do
  let start ← place
  skipBlanks
  let mark ← place
  if ← commentMark then
    noteComment mark
    let body ← place
    skipWhile (! isBreak ·)
    return some (String.ofList (← passedSince body))
  else
    moveTo start
    return none

/-- Past the rest of a line: blanks, a comment or none, and the break or the end of the source. -/
def lineEnd : Scanner Bool := do
  let start ← place
  skipBlanks
  let _ ← comment
  if ← lineBreak then return true
  else if ← isAtEnd then return true
  else
    moveTo start
    return false

def terminator : Scanner Bool := do
  if ← symbol ':' then return true else lineEnd

/-! ## Operators -/

/-- The operator that the next token is or starts with, which is not passed over. -/
def peekOperator : Scanner (Option Operator) := do
  let start ← place
  skipBlanks
  let text ← rest
  let word ← peekWord
  let symbolic := (Operator.symbols.find? fun entry => entry.1.toList.isPrefixOf text).map Prod.snd
  let written := word.bind fun word =>
    (Operator.words.find? fun entry => sameLetters entry.1.toList word.toList).map Prod.snd
  moveTo start
  return symbolic.or written

/-- The first comparison of a table that is written here. -/
def firstRelation : List (String × Operator) → Scanner (Option Relation)
  | [] => return none
  | (text, operator) :: rest =>
    match operator.relation? with
    | none => firstRelation rest
    | some relation => do
      if ← exactly text.toList then return some relation else firstRelation rest

def relation : Scanner (Option Relation) := firstRelation Operator.symbols

end Scanner

end VisualBasic
