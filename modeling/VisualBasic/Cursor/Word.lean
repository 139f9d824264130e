import VisualBasic.Cursor.Blank
import VisualBasic.Word.Keyword
import VisualBasic.Word.Operator

/-!
# Symbols, words and operators

Each reader passes over leading blanks, except `adjacent`. A keyword is met where its letters stand
in any case and no further word character follows, so that `EndValue` does not hold `End`.
-/

set_option autoImplicit false

namespace VisualBasic

/-- Whether a text starts with a word's letters in any case. -/
def startsWithLetters : List Char → List Char → Bool
  | [], _ => true
  | a :: letters, b :: text => a.toLower = b.toLower && startsWithLetters letters text
  | _ :: _, [] => false

namespace Cursor

/-- Whether a word character comes next. -/
def isAtWordChar (c : Cursor) : Bool := c.rest.head?.any isWordChar

/-- Past a character that stands exactly here. -/
def adjacent (char : Char) (c : Cursor) : Option Cursor :=
  if c.rest.head? = some char then some c.next else none

def symbol (char : Char) (c : Cursor) : Option Cursor := c.skipBlanks.adjacent char

/-- Past a given text. -/
def exactly (text : List Char) (c : Cursor) : Option Cursor :=
  let token := c.skipBlanks
  if text.isPrefixOf token.rest then some (token.skip text.length) else none

def keyword (k : Keyword) (c : Cursor) : Option Cursor :=
  let token := c.skipBlanks
  let after := token.skip k.letters.length
  if startsWithLetters k.letters token.rest && ! after.isAtWordChar then some after else none

/-- The next word, reserved or not. -/
def word (c : Cursor) : Option (String × Cursor) :=
  let token := c.skipBlanks
  if token.rest.head?.any isWordStart then
    let text := token.rest.takeWhile isWordChar
    some (String.ofList text, token.skip text.length)
  else none

def peekWord (c : Cursor) : Option String := c.word.map Prod.fst

/-- The keyword that the next word spells. -/
def peekKeyword (c : Cursor) : Option Keyword := c.peekWord.bind Keyword.lookup

/-- The next word, if it is not reserved. -/
def identifier (c : Cursor) : Option (String × Cursor) :=
  c.word.filter fun found => ! isReservedWord found.1

/-- The operator that the next token is or starts with. -/
def peekOperator (c : Cursor) : Option Operator :=
  let token := c.skipBlanks
  match Operator.symbols.find? fun entry => entry.1.toList.isPrefixOf token.rest with
  | some (_, operator) => some operator
  | none =>
    token.peekWord.bind fun word =>
      (Operator.words.find? fun entry => sameLetters entry.1.toList word.toList).map Prod.snd

/-- The comparison written here, the longest spelling first. -/
def relation (c : Cursor) : Option (Relation × Cursor) :=
  Operator.symbols.findSome? fun entry =>
    entry.2.relation?.bind fun relation =>
      (c.exactly entry.1.toList).map fun after => (relation, after)

theorem next_reaches (c : Cursor) : Reaches c c.next := ⟨1, rfl⟩

theorem reaches_of_adjacent {char : Char} {c d : Cursor} (h : c.adjacent char = some d) :
    Reaches c d := by
  unfold adjacent at h
  split at h
  · cases h
    exact next_reaches c
  · contradiction

theorem length_lt_of_adjacent {char : Char} {c d : Cursor} (h : c.adjacent char = some d) :
    d.rest.length < c.rest.length := by
  unfold adjacent at h
  split at h
  · rename_i hc
    cases h
    cases hr : c.rest with
    | nil => simp [hr] at hc
    | cons => simp [hr]
  · contradiction

theorem reaches_of_symbol {char : Char} {c d : Cursor} (h : c.symbol char = some d) :
    Reaches c d :=
  (reaches_skipBlanks c).trans (reaches_of_adjacent h)

theorem length_lt_of_symbol {char : Char} {c d : Cursor} (h : c.symbol char = some d) :
    d.rest.length < c.rest.length :=
  Nat.lt_of_lt_of_le (length_lt_of_adjacent h) (reaches_skipBlanks c).length_le

theorem reaches_of_keyword {k : Keyword} {c d : Cursor} (h : c.keyword k = some d) :
    Reaches c d := by
  simp only [keyword] at h
  split at h
  · cases h
    exact (reaches_skipBlanks c).trans (reaches_skip _ _)
  · contradiction

theorem reaches_of_word {c d : Cursor} {text : String} (h : c.word = some (text, d)) :
    Reaches c d := by
  simp only [word] at h
  split at h
  · cases h
    exact (reaches_skipBlanks c).trans (reaches_skip _ _)
  · contradiction

/-- An identifier is a word that is not reserved. -/
theorem identifier_eq_some_iff {c d : Cursor} {text : String} :
    c.identifier = some (text, d) ↔ c.word = some (text, d) ∧ isReservedWord text = false := by
  simp [identifier, Option.filter_eq_some_iff]

theorem reaches_of_identifier {c d : Cursor} {text : String} (h : c.identifier = some (text, d)) :
    Reaches c d :=
  reaches_of_word (identifier_eq_some_iff.mp h).1

end Cursor

end VisualBasic
