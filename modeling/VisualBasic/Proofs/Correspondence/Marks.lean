import VisualBasic.Proofs.Correspondence.Alignment
import VisualBasic.Proofs.Cursor.Mark
import VisualBasic.Proofs.Diagnostic.Reported

/-!
# Comments with either mark

An apostrophe and the word `Rem` begin comments alike, as far as the end of a statement goes. The
word is not reserved, though: where a name may come before the end, it is taken for that name and no
comment begins.
-/

set_option autoImplicit false

namespace VisualBasic

open Cursor (between remMark)

namespace Cursor

theorem breakOrEnd_of_rest {c d : Cursor} (h : c.rest = d.rest) :
    Option.Rel (fun e f => e.rest = f.rest) c.breakOrEnd d.breakOrEnd := by
  by_cases hbreak : breakWidth c.rest = 0
  · have hend : c.isAtEnd = d.isAtEnd := by rw [isAtEnd, isAtEnd, h]
    rw [breakOrEnd, breakOrEnd, lineBreak_eq_none hbreak, lineBreak_eq_none (h ▸ hbreak), hend]
    split
    · exact .some h
    · exact .none
  · rw [breakOrEnd, breakOrEnd, lineBreak_eq_some rfl hbreak, lineBreak_eq_some rfl (h ▸ hbreak)]
    exact .some (by rw [rest_skip, rest_skip, h])

theorem terminator_eq_of_mark (before after : List Char) :
    ∃ c d, (between before ('\x27' :: after)).terminator = some c ∧
      (between before (' ' :: (remMark ++ after))).terminator = some d ∧ c.rest = d.rest := by
  have hblank : (between before (' ' :: (remMark ++ after))).skipBlanks =
      between (before ++ [' ']) (remMark ++ after) := by
    rw [skipBlanks_of_blank rfl rfl]
    exact (congrArg skipBlanks (skip_between before [' '] (remMark ++ after))).trans
      (skipBlanks_remMark _ _)
  have hleft : (between before ('\x27' :: after)).terminator =
      (between (before ++ '\x27' :: after.takeWhile (! isBreak ·))
        (after.dropWhile (! isBreak ·))).breakOrEnd := by
    have hcolon : (between before ('\x27' :: after)).adjacent ':' = none := rfl
    rw [terminator, symbol, skipBlanks_apostrophe, hcolon, Option.none_or, lineEnd,
      skipBlanks_apostrophe, comment_apostrophe]
    rfl
  have hright : (between before (' ' :: (remMark ++ after))).terminator =
      (between (before ++ [' '] ++ remMark ++ after.takeWhile (! isBreak ·))
        (after.dropWhile (! isBreak ·))).breakOrEnd := by
    have hcolon : (between (before ++ [' ']) (remMark ++ after)).adjacent ':' = none := rfl
    rw [terminator, symbol, hblank, hcolon, Option.none_or, lineEnd, hblank, comment_remMark]
    rfl
  have hend := breakOrEnd_toLineEnd (between before after)
  have hplace := breakOrEnd_of_rest (c := (between before after).toLineEnd)
    (d := between (before ++ '\x27' :: after.takeWhile (! isBreak ·))
      (after.dropWhile (! isBreak ·)))
    (by rw [toLineEnd_between, rest_between, rest_between])
  have hboth := breakOrEnd_of_rest
    (c := between (before ++ '\x27' :: after.takeWhile (! isBreak ·))
      (after.dropWhile (! isBreak ·)))
    (d := between (before ++ [' '] ++ remMark ++ after.takeWhile (! isBreak ·))
      (after.dropWhile (! isBreak ·))) rfl
  rw [Pairing.rel_isSome hplace] at hend
  obtain ⟨c, hc⟩ := Option.isSome_iff_exists.mp hend
  rw [hc] at hboth
  generalize hd : breakOrEnd _ = x at hboth
  cases hboth with
  | some hrest => exact ⟨c, _, hleft.trans hc, hright.trans hd, hrest⟩

end Cursor

/-- Wherever a statement may end, a comment with either mark ends it, and the same text is left. -/
theorem Scanner.terminator_of_mark (before after : List Char) :
    let apostrophe := terminator.run (between before ('\x27' :: after))
    let word := terminator.run (between before (' ' :: (remMark ++ after)))
    apostrophe.value = true ∧ word.value = true ∧ apostrophe.cursor.rest = word.cursor.rest := by
  obtain ⟨c, d, hc, hd, hrest⟩ := Cursor.terminator_eq_of_mark before after
  simp only [run_terminator, hc, hd]
  exact ⟨rfl, rfl, hrest⟩

/-- The word takes the place of an argument after a call that has none. -/
theorem exists_remMark_refused :
    ∃ tree, parseModule (String.ofList ("Sub A()\nFoo ".toList ++ '\x27' :: " c\nEnd Sub\n".toList))
        Settings.standard = .ok tree ∧
      byteLength "Sub A()\nFoo ".toList ∈ commentStarts
        (String.ofList ("Sub A()\nFoo ".toList ++ '\x27' :: " c\nEnd Sub\n".toList))
        Settings.standard ∧
      ∀ other, parseModule (String.ofList ("Sub A()\nFoo ".toList ++
        ' ' :: (remMark ++ " c\nEnd Sub\n".toList))) Settings.standard ≠ .ok other := by
  have hleft : (parseModule (String.ofList ("Sub A()\nFoo ".toList ++
      '\x27' :: " c\nEnd Sub\n".toList)) Settings.standard).toOption.isSome =
      true := by decide +kernel
  have hright : (parseModule (String.ofList ("Sub A()\nFoo ".toList ++
      ' ' :: (remMark ++ " c\nEnd Sub\n".toList))) Settings.standard).toOption.isSome = false := by
    decide +kernel
  obtain ⟨tree, htree⟩ := Option.isSome_iff_exists.mp hleft
  refine ⟨tree, Grammar.eq_ok_of_toOption htree, by decide +kernel, fun other hother => ?_⟩
  rw [hother] at hright
  contradiction

end VisualBasic
