import VisualBasic.Cursor.Word

/-!
# Comments and the ends of statements

A comment runs from an apostrophe or the word `Rem` to the end of its line. A statement ends at a
colon or at the end of its line, which may hold a comment first; the end of the source ends the last
line.
-/

set_option autoImplicit false

namespace VisualBasic

namespace Cursor

/-- The end of the line, before its break. -/
def toLineEnd (c : Cursor) : Cursor := c.skip (c.rest.takeWhile (! isBreak ·)).length

/-- Past the mark that starts a comment. -/
def commentMark (c : Cursor) : Option Cursor :=
  let token := c.skipBlanks
  (token.adjacent '\x27').or (token.keyword .Rem)

/-- The text of a comment after its mark, up to but not including the line break. -/
def comment (c : Cursor) : Option (String × Cursor) :=
  c.commentMark.map fun body => (body.textTo body.toLineEnd, body.toLineEnd)

/-- Past a line break, or at the end of the source. -/
def breakOrEnd (c : Cursor) : Option Cursor :=
  c.lineBreak.or (if c.isAtEnd then some c else none)

/-- Past the rest of a line: blanks, a comment or none, and the break or the end of the source. -/
def lineEnd (c : Cursor) : Option Cursor :=
  let token := c.skipBlanks
  ((token.comment.map Prod.snd).getD token).breakOrEnd

/-- Past a colon or the rest of a line. -/
def terminator (c : Cursor) : Option Cursor := (c.symbol ':').or c.lineEnd

theorem reaches_of_commentMark {c d : Cursor} (h : c.commentMark = some d) : Reaches c d := by
  simp only [commentMark] at h
  rcases Option.or_eq_some_iff.mp h with h | ⟨_, h⟩
  · exact (reaches_skipBlanks c).trans (reaches_of_adjacent h)
  · exact (reaches_skipBlanks c).trans (reaches_of_keyword h)

theorem reaches_of_comment {c d : Cursor} {text : String} (h : c.comment = some (text, d)) :
    Reaches c d := by
  obtain ⟨body, hb, hd⟩ := Option.map_eq_some_iff.mp h
  cases hd
  exact (reaches_of_commentMark hb).trans (reaches_skip _ _)

theorem reaches_of_breakOrEnd {c d : Cursor} (h : c.breakOrEnd = some d) : Reaches c d := by
  rcases Option.or_eq_some_iff.mp h with h | ⟨_, h⟩
  · exact reaches_of_lineBreak h
  · split at h
    · cases h
      exact Reaches.refl c
    · contradiction

theorem reaches_of_lineEnd {c d : Cursor} (h : c.lineEnd = some d) : Reaches c d := by
  simp only [lineEnd] at h
  refine (reaches_skipBlanks c).trans (Reaches.trans ?_ (reaches_of_breakOrEnd h))
  cases hc : c.skipBlanks.comment with
  | none => exact Reaches.refl _
  | some found => exact reaches_of_comment hc

theorem reaches_of_terminator {c d : Cursor} (h : c.terminator = some d) : Reaches c d := by
  rcases Option.or_eq_some_iff.mp h with h | ⟨_, h⟩
  · exact reaches_of_symbol h
  · exact reaches_of_lineEnd h

end Cursor

end VisualBasic
