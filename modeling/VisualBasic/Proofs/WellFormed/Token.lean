import VisualBasic.Grammar.Expression
import VisualBasic.Proofs.Cursor.Number
import VisualBasic.Proofs.Cursor.Token
import VisualBasic.Proofs.Text.Lead
import VisualBasic.Proofs.Tree.WellFormed

/-!
# Words and texts of a line

A word that is read has the shape of one, and an identifier spells no reserved keyword. A string, a
comment and the text of a literal stay on their line.
-/

set_option autoImplicit false

namespace VisualBasic

/-- A reserved keyword is looked up by its letters in any case. -/
theorem sameLetters_eq_false_of_isReservedWord {name : String} (h : isReservedWord name = false) :
    ∀ k ∈ Keyword.reserved, sameLetters k.letters name.toList = false := by
  intro k hk
  rw [Bool.eq_false_iff]
  intro hsame
  cases hfound : Keyword.lookup name with
  | none =>
    have hnone := List.find?_eq_none.mp hfound k k.mem_all
    exact hnone hsame
  | some other =>
    have hother := List.find?_some hfound
    have hletters : sameLetters other.letters k.letters = true := by
      rw [sameLetters_iff] at hsame hother ⊢
      rw [hother, hsame]
    rw [Keyword.sameLetters_letters, decide_eq_true_eq] at hletters
    have hreserved : Keyword.isReserved k = true := List.contains_iff_mem.mpr hk
    simp [isReservedWord, hfound, hletters, hreserved] at h

theorem isBreak_eq_false_of_mem_quotedBody {text : List Char} {found : List Char × Nat}
    (h : quotedBody text = some found) : ∀ c ∈ found.1, isBreak c = false := by
  fun_induction quotedBody text generalizing found with
  | case1 => contradiction
  | case2 rest ih =>
    obtain ⟨⟨value, n⟩, hn, rfl⟩ := Option.map_eq_some_iff.mp h
    intro c hc
    rcases List.mem_cons.mp hc with rfl | hc
    · rfl
    · exact ih hn c hc
  | case3 =>
    cases h
    simp
  | case4 => contradiction
  | case5 c rest _ _ hbreak ih =>
    obtain ⟨⟨value, n⟩, hn, rfl⟩ := Option.map_eq_some_iff.mp h
    intro d hd
    rcases List.mem_cons.mp hd with rfl | hd
    · exact eq_false_of_ne_true hbreak
    · exact ih hn d hd

namespace Cursor

theorem isWord_of_word {c d : Cursor} {text : String} (h : c.word = some (text, d)) :
    IsWord text := by
  simp only [word] at h
  split at h
  · rename_i hstart
    cases h
    obtain ⟨first, hfirst, hs⟩ := (Option.any_eq_true _ _).mp hstart
    obtain ⟨rest, hrest⟩ := List.head?_eq_some_iff.mp hfirst
    refine ⟨first, rest.takeWhile isWordChar, ?_, hs, fun c hc => of_mem_takeWhile hc⟩
    rw [hrest, String.toList_ofList, List.takeWhile_cons_of_pos (isWordChar_of_isWordStart hs)]
  · contradiction

theorem isIdentifier_of_identifier {c d : Cursor} {name : String}
    (h : c.identifier = some (name, d)) : IsIdentifier name := by
  obtain ⟨hword, hfree⟩ := identifier_eq_some_iff.mp h
  exact ⟨isWord_of_word hword, sameLetters_eq_false_of_isReservedWord hfree⟩

theorem isUnbroken_of_quoted {c d : Cursor} {value : String} (h : c.quoted = some (value, d)) :
    IsUnbroken value := by
  simp only [quoted] at h
  split at h
  · obtain ⟨found, hfound, hvalue⟩ := Option.map_eq_some_iff.mp h
    cases hvalue
    intro c hc
    rw [String.toList_ofList] at hc
    exact isBreak_eq_false_of_mem_quotedBody hfound c hc
  · contradiction

theorem isUnbroken_textTo_skip {c : Cursor} {n : Nat}
    (h : ∀ char ∈ c.rest.take n, isBreak char = false) : IsUnbroken (c.textTo (c.skip n)) := by
  intro char hchar
  rw [textTo, String.toList_ofList, rest_skip, List.length_drop] at hchar
  apply h
  have hmin : c.rest.length - (c.rest.length - n) = min n c.rest.length := by omega
  rw [hmin] at hchar
  rw [List.take_eq_take_min]
  exact hchar

theorem isUnbroken_of_comment {c d : Cursor} {content : String}
    (h : c.comment = some (content, d)) : IsUnbroken content := by
  obtain ⟨body, _, hbody⟩ := Option.map_eq_some_iff.mp h
  cases hbody
  apply isUnbroken_textTo_skip
  intro char hchar
  rw [take_length_takeWhile] at hchar
  simpa using of_mem_takeWhile hchar

end Cursor

end VisualBasic
