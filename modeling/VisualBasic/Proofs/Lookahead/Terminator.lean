import VisualBasic.Proofs.Lookahead.Word
import VisualBasic.Proofs.Parse.Correspondence
import VisualBasic.Proofs.Text.Cut
import VisualBasic.Proofs.Writing.Expression

/-!
# Where a terminator comes next

What a terminator starts with starts no token of a statement but the word `Rem`.
-/

set_option autoImplicit false

namespace VisualBasic

namespace StartsTerminator

variable {text : List Char} (h : StartsTerminator text)
include h

theorem head {c : Char} (hc : text.head? = some c) :
    isBreak c = true ∨ c = ':' ∨ c = '\x27' ∨ c.isAlpha = true := by
  rcases h with hstop | hrem
  · rw [hc, Option.all_some] at hstop
    simp only [Bool.or_eq_true, decide_eq_true_eq] at hstop
    rcases hstop with (hbreak | hcolon) | hmark
    · exact .inl hbreak
    · exact .inr (.inl hcolon)
    · exact .inr (.inr (.inl hmark))
  · obtain ⟨rest, rfl⟩ := List.head?_eq_some_iff.mp hc
    cases halpha : c.isAlpha with
    | true => simp
    | false =>
      rw [spells_cons_eq_false _ _ halpha] at hrem
      contradiction

theorem eq_Rem {k : Keyword} (hk : spells k text = true) : k = .Rem := by
  have hsame {other : Keyword} (ho : spells other text = true) : k = other := by
    rw [spells, sameLetters_iff] at hk ho
    rw [← ho, ← sameLetters_iff, Keyword.sameLetters_letters] at hk
    exact of_decide_eq_true hk
  rcases h with hstop | hrem
  · have halpha : text.head?.any Char.isAlpha = false := by
      cases hhead : text.head? with
      | none => rfl
      | some c =>
        rw [hhead, Option.all_some] at hstop
        simp only [Bool.or_eq_true, decide_eq_true_eq] at hstop
        rw [Option.any_some, Bool.eq_false_iff]
        intro halpha
        rcases hstop with (hbreak | rfl) | rfl
        · simp only [isBreak, Bool.or_eq_true, decide_eq_true_eq] at hbreak
          rcases hbreak with rfl | rfl <;> contradiction
        · contradiction
        · contradiction
    rw [spells_eq_false k halpha] at hk
    contradiction
  · exact hsame hrem

end StartsTerminator

namespace Cursor

theorem commentMark_isSome_iff {c : Cursor} :
    c.commentMark.isSome ↔
      c.skipBlanks.rest.head? = some '\x27' ∨ spells .Rem c.skipBlanks.rest = true := by
  rw [commentMark, Option.isSome_or, Bool.or_eq_true, adjacent, keyword_eq, skipBlanks_skipBlanks]
  split <;> split <;> simp_all

theorem lineEnd_isSome_iff {c : Cursor} :
    c.lineEnd.isSome ↔ c.commentMark.isSome ∨ c.skipBlanks.rest.head?.all isBreak = true := by
  simp only [lineEnd, comment, commentMark_skipBlanks]
  cases c.commentMark with
  | none => simpa using breakOrEnd_isSome_iff
  | some body => simpa using body.breakOrEnd_toLineEnd

/-- A terminator is told from how it starts. -/
theorem terminator_isSome_iff {c : Cursor} :
    c.terminator.isSome ↔ StartsTerminator c.skipBlanks.rest := by
  have hcolon : (c.symbol ':').isSome ↔ c.skipBlanks.rest.head? = some ':' := by
    rw [symbol, adjacent]
    split <;> simp_all
  rw [terminator, Option.isSome_or, Bool.or_eq_true, hcolon, lineEnd_isSome_iff,
    commentMark_isSome_iff, StartsTerminator]
  cases c.skipBlanks.rest.head? with
  | none => simp
  | some char =>
    simp only [Option.some.injEq, Option.all_some, Bool.or_eq_true, decide_eq_true_eq]
    grind

end Cursor

/-! At such a place no token starts but the word `Rem`. -/

namespace Cursor

variable {c d : Cursor} (h : StartsTerminator c.skipBlanks.rest)
include h

theorem adjacent_of_terminator {char : Char} (hchar : char ∈ symbolChars) :
    c.adjacent char = none := by
  have hsigns : (symbolChars.all fun char =>
      isDelimiter char && ! isBreak char && ! char.isAlpha && char ≠ ':' && char ≠ '\x27') =
      true := by
    decide
  have hsign := List.all_eq_true.mp hsigns char hchar
  simp only [Bool.and_eq_true, Bool.not_eq_true', decide_eq_true_eq] at hsign
  cases hd : c.adjacent char with
  | none => rfl
  | some d =>
    obtain ⟨hhead, _⟩ := Cursor.adjacent_eq_some_iff.mp (Cursor.symbol_of_adjacent hsign.1.1.1.1 hd)
    rcases h.head hhead with hbreak | hcolon | hmark | halpha
    · rw [hsign.1.1.1.2] at hbreak
      contradiction
    · exact absurd hcolon hsign.1.2
    · exact absurd hmark hsign.2
    · rw [hsign.1.1.2] at halpha
      contradiction

theorem eq_Rem_of_terminator {k : Keyword} (hk : c.keyword k = some d) : k = .Rem := by
  rw [Cursor.keyword_eq] at hk
  split at hk
  · exact h.eq_Rem ‹_›
  · contradiction

theorem keyword_of_terminator {k : Keyword} (hk : k ≠ .Rem) : c.keyword k = none := by
  cases hd : c.keyword k with
  | none => rfl
  | some d => exact absurd (eq_Rem_of_terminator h hd) hk

theorem peekKeyword_of_terminator : c.peekKeyword.filter (· ≠ .Rem) = none := by
  rw [Cursor.peekKeyword_eq]
  cases hlead : c.lead with
  | none => rfl
  | some found =>
    have hRem := eq_Rem_of_terminator h (keyword_eq_some_iff.mpr hlead)
    simp [hRem]

theorem member_of_terminator : c.member = none := by
  rw [Cursor.member, adjacent_of_terminator h (by decide), Option.bind_none]

theorem number_of_terminator : c.number = none := by
  have hread : readNumber c.skipBlanks.rest = none := by
    cases hrest : c.skipBlanks.rest with
    | nil => rfl
    | cons char rest =>
      have hhead := h.head (c := char) (by rw [hrest]; rfl)
      refine readNumber_eq_none ?_ ?_
      · rcases hhead with hbreak | rfl | rfl | halpha
        · simp only [isBreak, Bool.or_eq_true, decide_eq_true_eq] at hbreak
          rcases hbreak with rfl | rfl <;> rfl
        · rfl
        · rfl
        · refine isNumberStart_eq_false_of_isWordStart ?_
          simp [isWordStart, halpha]
      · rintro rfl
        rcases hhead with hbreak | hcolon | hmark | halpha <;> contradiction
  rw [Cursor.number, hread, Option.bind_none]

theorem quoted_of_terminator : c.quoted = none := by
  have hnone : c.skipBlanks.quoted = none := by
    refine Cursor.quoted_eq_none (Cursor.skipBlanks_skipBlanks c) fun hhead => ?_
    rcases h.head hhead with hbreak | hcolon | hmark | halpha <;> contradiction
  simpa only [Cursor.quoted, Cursor.skipBlanks_skipBlanks] using hnone

theorem relation_of_terminator : c.relation = none := by
  have hsymbols : ∀ entry ∈ Operator.symbols, ∃ char rest, entry.1.toList = char :: rest ∧
      (! isBreak char && ! char.isAlpha && char ≠ ':' && char ≠ '\x27') = true := by
    simp [Operator.symbols]
    decide
  unfold Cursor.relation
  rw [List.findSome?_eq_none_iff]
  intro entry hentry
  obtain ⟨char, rest, htext, hsign⟩ := hsymbols entry hentry
  simp only [Bool.and_eq_true, Bool.not_eq_true', decide_eq_true_eq] at hsign
  have hnone : c.exactly entry.1.toList = none := by
    rw [Cursor.exactly, htext, if_neg]
    intro hpre
    obtain ⟨more, hmore⟩ := List.isPrefixOf_iff_prefix.mp hpre
    have hhead : c.skipBlanks.rest.head? = some char := by rw [← hmore]; rfl
    rcases h.head hhead with hbreak | hcolon | hmark | halpha
    · rw [hsign.1.1.1] at hbreak
      contradiction
    · exact hsign.1.2 hcolon
    · exact hsign.2 hmark
    · rw [hsign.1.1.2] at halpha
      contradiction
  rw [hnone]
  cases entry.2.relation? <;> rfl

end Cursor

end VisualBasic
