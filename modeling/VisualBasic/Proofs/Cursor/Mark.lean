import VisualBasic.Proofs.Cursor.Place
import VisualBasic.Proofs.Lookahead.Word

/-!
# The two comment marks

Where an apostrophe or the word `Rem` comes next, a comment takes the rest of the line, the blank
after the word included.
-/

set_option autoImplicit false

namespace VisualBasic

/-- Length of the mark of a comment at the start of a text. -/
def markWidth (text : List Char) : Option Nat :=
  if text.head? = some '\x27' then some 1 else if spells .Rem text = true then some 3 else none

/-- A mark is told from the text up to its end. -/
theorem markWidth_take {text : List Char} {k n : Nat} (h : markWidth text = some k) (hn : k ≤ n) :
    markWidth (text.take n) = some k := by
  unfold markWidth at h ⊢
  have hhead (hpos : n ≠ 0) : (text.take n).head? = text.head? := by
    rw [List.head?_take, if_neg hpos]
  split at h
  · rename_i hmark
    cases h
    rw [hhead (by omega), if_pos hmark]
  · rename_i hmark
    split at h
    · rename_i hspells
      cases h
      have hlength := length_eq_of_sameLetters hspells
      have hword : firstWord (text.take n) = firstWord text := by
        rw [firstWord, ← List.take_takeWhile]
        exact List.take_of_length_le (hlength ▸ hn)
      exact (if_neg (by rwa [hhead (by omega)])).trans (if_pos (by rwa [spells, hword]))
    · contradiction

theorem exists_head_of_markWidth {text : List Char} {k : Nat} (h : markWidth text = some k) :
    ∃ char rest, text = char :: rest ∧ isInk char = true := by
  unfold markWidth at h
  split at h
  · obtain ⟨rest, hrest⟩ := List.head?_eq_some_iff.mp ‹_›
    exact ⟨_, rest, hrest, by decide⟩
  · split at h
    · rename_i hspells
      cases text with
      | nil => contradiction
      | cons char rest =>
        refine ⟨char, rest, rfl, isInk_of_isWordChar ?_⟩
        have hlength := length_eq_of_sameLetters hspells
        cases hchar : isWordChar char with
        | true => rfl
        | false =>
          rw [firstWord, List.takeWhile_cons, hchar] at hlength
          contradiction
    · contradiction

namespace Cursor

theorem commentMark_eq {c : Cursor} (h : c.skipBlanks = c) :
    c.commentMark = (markWidth c.rest).map fun n => c.skip n := by
  rw [commentMark, h, adjacent, keyword_eq, h, markWidth]
  split
  · rfl
  · split <;> rfl

/-- The text from a place to the end of its line. -/
theorem textTo_toLineEnd (c : Cursor) :
    c.textTo c.toLineEnd = String.ofList (c.rest.takeWhile (! isBreak ·)) := by
  have hle := (List.takeWhile_prefix (l := c.rest) (! isBreak ·)).length_le
  rw [textTo, toLineEnd, rest_skip, List.length_drop, Nat.sub_sub_self hle, take_length_takeWhile]

/-- A comment is told from its mark. -/
theorem comment_eq {c : Cursor} {k : Nat} (h : c.skipBlanks = c) (hk : markWidth c.rest = some k) :
    c.comment = some (String.ofList ((c.rest.drop k).takeWhile (! isBreak ·)),
      c.skip (k + ((c.rest.drop k).takeWhile (! isBreak ·)).length)) := by
  rw [comment, commentMark_eq h, hk, Option.map_some, Option.map_some, textTo_toLineEnd, toLineEnd,
    rest_skip, skip_add]

/-- The word `Rem` with the blank that ends it. -/
def remMark : List Char := ['R', 'e', 'm', ' ']

variable (before after : List Char)

theorem toLineEnd_between : (between before after).toLineEnd =
    between (before ++ after.takeWhile (! isBreak ·)) (after.dropWhile (! isBreak ·)) := by
  have hskip := skip_between before (after.takeWhile (! isBreak ·)) (after.dropWhile (! isBreak ·))
  rw [List.takeWhile_append_dropWhile] at hskip
  rw [toLineEnd, rest_between, hskip]

theorem skipBlanks_apostrophe :
    (between before ('\x27' :: after)).skipBlanks = between before ('\x27' :: after) :=
  skipBlanks_eq_self rfl rfl (by simp)

theorem skipBlanks_remMark :
    (between before (remMark ++ after)).skipBlanks = between before (remMark ++ after) := by
  have hrest : (between before (remMark ++ after)).rest = 'R' :: 'e' :: 'm' :: ' ' :: after := rfl
  exact skipBlanks_eq_self hrest rfl (by simp)

theorem comment_apostrophe : (between before ('\x27' :: after)).comment =
    some (String.ofList (after.takeWhile (! isBreak ·)),
      between (before ++ '\x27' :: after.takeWhile (! isBreak ·))
        (after.dropWhile (! isBreak ·))) := by
  have hskip := skip_between before ('\x27' :: after.takeWhile (! isBreak ·))
    (after.dropWhile (! isBreak ·))
  rw [List.cons_append, List.takeWhile_append_dropWhile, List.length_cons, Nat.add_comm] at hskip
  rw [comment_eq (skipBlanks_apostrophe before after) rfl, ← hskip]
  rfl

theorem comment_remMark : (between before (remMark ++ after)).comment =
    some (String.ofList (' ' :: after.takeWhile (! isBreak ·)),
      between (before ++ remMark ++ after.takeWhile (! isBreak ·))
        (after.dropWhile (! isBreak ·))) := by
  have hskip := skip_between before (remMark ++ after.takeWhile (! isBreak ·))
    (after.dropWhile (! isBreak ·))
  rw [List.append_assoc, List.takeWhile_append_dropWhile, List.length_append, ← List.append_assoc]
    at hskip
  have hline : ((remMark ++ after).drop 3).takeWhile (! isBreak ·) =
      ' ' :: after.takeWhile (! isBreak ·) :=
    rfl
  have hlength (n : Nat) : 3 + (n + 1) = remMark.length + n := by
    change 3 + (n + 1) = 4 + n
    omega
  rw [comment_eq (skipBlanks_remMark before after) rfl, ← hskip, rest_between, hline,
    List.length_cons, hlength]

end Cursor

end VisualBasic
