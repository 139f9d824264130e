import VisualBasic.Cursor.Basic

/-!
# Blanks and line breaks

Tokens of a statement are separated by blanks and by line continuations: an underscore after a blank
that, further blanks aside, ends its line. `skipBlanks` passes over the longest run of both;
`lineBreak` passes over one break, which a blank never is.
-/

set_option autoImplicit false

namespace VisualBasic

/-- Length of the line break that a text starts with: CR LF, CR or LF; 0 where there is none. -/
def breakWidth : List Char → Nat
  | '\r' :: '\n' :: _ => 2
  | '\r' :: _ => 1
  | '\n' :: _ => 1
  | _ => 0

/-- Length of the rest of a line continuation, after its underscore. -/
def continuationWidth (rest : List Char) : Option Nat :=
  let blanks := (rest.takeWhile isBlank).length
  match breakWidth (rest.drop blanks) with
  | 0 => none
  | n => some (blanks + n)

/-- Length of the longest run of blanks and line continuations at the start of a text. -/
def blankWidth (afterBlank : Bool) : List Char → Nat
  | [] => 0
  | c :: rest =>
    if isBlank c then 1 + blankWidth true rest
    else if afterBlank && c = '_' then
      match continuationWidth rest with
      | some n => 1 + n + blankWidth false (rest.drop n)
      | none => 0
    else 0
termination_by text => text.length
decreasing_by all_goals simp; try omega

namespace Cursor

def skipBlanks (c : Cursor) : Cursor := c.skip (blankWidth c.afterBlank c.rest)

/-- Past one line break. -/
def lineBreak (c : Cursor) : Option Cursor :=
  match breakWidth c.rest with
  | 0 => none
  | n => some (c.skip n)

/-- Past a line that holds only blanks, its break included. -/
def blankLine (c : Cursor) : Option Cursor :=
  (c.skip (c.rest.takeWhile isBlank).length).lineBreak

theorem reaches_skipBlanks (c : Cursor) : Reaches c c.skipBlanks := reaches_skip _ c

theorem reaches_of_lineBreak {c d : Cursor} (h : c.lineBreak = some d) : Reaches c d := by
  unfold lineBreak at h
  split at h
  · contradiction
  · cases h
    exact reaches_skip _ c

/-- A line break is never empty. -/
theorem length_lt_of_lineBreak {c d : Cursor} (h : c.lineBreak = some d) :
    d.rest.length < c.rest.length := by
  unfold lineBreak at h
  split at h
  · contradiction
  · rename_i hn
    cases h
    have : c.rest ≠ [] := by
      intro he
      exact hn (by simp [he, breakWidth])
    have := List.length_pos_iff.mpr this
    have : breakWidth c.rest ≠ 0 := hn
    simp only [rest_skip, List.length_drop]
    omega

theorem length_lt_of_blankLine {c d : Cursor} (h : c.blankLine = some d) :
    d.rest.length < c.rest.length :=
  Nat.lt_of_lt_of_le (length_lt_of_lineBreak h) (reaches_skip _ c).length_le

end Cursor

end VisualBasic
