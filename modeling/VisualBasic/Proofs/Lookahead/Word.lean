import VisualBasic.Proofs.Cursor.Place
import VisualBasic.Proofs.Text.Gap

/-!
# Looking ahead

What comes next is told without reading it: a keyword, another word, a comment, or the end of a line
that holds nothing. A comment and a line that holds nothing start with no keyword, and `Rem` apart
no keyword starts either.
-/

set_option autoImplicit false

namespace VisualBasic

/-- A keyword is found by its letters: no two keywords share theirs. -/
theorem Keyword.lookup_eq_some_iff {word : String} {k : Keyword} :
    lookup word = some k ↔ sameLetters k.letters word.toList = true := by
  constructor
  · intro h
    exact List.find?_some (p := fun k : Keyword => sameLetters k.letters word.toList) h
  · intro h
    have hfound : (lookup word).isSome := List.find?_isSome.mpr ⟨k, k.mem_all, h⟩
    obtain ⟨other, hother⟩ := Option.isSome_iff_exists.mp hfound
    have hsame : sameLetters other.letters word.toList = true :=
      List.find?_some (p := fun k : Keyword => sameLetters k.letters word.toList) hother
    rw [sameLetters_iff, ← sameLetters_iff.mp h, ← sameLetters_iff, sameLetters_letters] at hsame
    rw [hother, of_decide_eq_true hsame]

namespace Cursor

variable {c d : Cursor} {k : Keyword}

@[simp] theorem peekKeyword_skipBlanks (c : Cursor) : c.skipBlanks.peekKeyword = c.peekKeyword := by
  simp only [peekKeyword, peekWord_skipBlanks]

@[simp] theorem commentMark_skipBlanks (c : Cursor) : c.skipBlanks.commentMark = c.commentMark := by
  simp only [commentMark, skipBlanks_skipBlanks]

/-! ## Keywords -/

theorem word_eq (c : Cursor) :
    c.word =
      if c.skipBlanks.rest.head?.any isWordStart then
        some (String.ofList (firstWord c.skipBlanks.rest),
          c.skipBlanks.skip (firstWord c.skipBlanks.rest).length)
      else none := rfl

/-- The keyword that comes next, and the place after it. -/
def lead (c : Cursor) : Option (Keyword × Cursor) :=
  c.word.bind fun found => (Keyword.lookup found.1).map fun k => (k, found.2)

@[simp] theorem lead_skipBlanks (c : Cursor) : c.skipBlanks.lead = c.lead := by
  rw [lead, lead, word_skipBlanks]

theorem peekKeyword_eq (c : Cursor) : c.peekKeyword = c.lead.map Prod.fst := by
  rw [peekKeyword, peekWord, lead]
  cases c.word with
  | none => rfl
  | some found => cases h : Keyword.lookup found.1 <;> simp [h]

theorem lead_eq_some_iff :
    c.lead = some (k, d) ↔
      spells k c.skipBlanks.rest = true ∧ d = c.skipBlanks.skip k.letters.length := by
  have hword (h : spells k c.skipBlanks.rest = true) :
      c.skipBlanks.rest.head?.any isWordStart = true := by
    cases hrest : c.skipBlanks.rest with
    | nil => simpa [hrest, firstWord, k.letters_ne_nil] using length_eq_of_sameLetters h
    | cons char rest =>
      cases hchar : char.isAlpha with
      | true => simp [isWordStart, hchar]
      | false => rw [hrest, spells_cons_eq_false k rest hchar] at h; contradiction
  have hlookup : Keyword.lookup (String.ofList (firstWord c.skipBlanks.rest)) = some k ↔
      spells k c.skipBlanks.rest = true := by
    rw [Keyword.lookup_eq_some_iff, String.toList_ofList, spells]
  rw [lead, word_eq]
  constructor
  · intro h
    simp only [Option.bind_eq_some_iff, Option.map_eq_some_iff] at h
    obtain ⟨found, hfound, other, hother, heq⟩ := h
    split at hfound
    · cases hfound
      cases heq
      have hspells := hlookup.mp hother
      exact ⟨hspells, by rw [length_eq_of_sameLetters hspells]⟩
    · contradiction
  · rintro ⟨h, rfl⟩
    rw [if_pos (hword h), length_eq_of_sameLetters h, Option.bind_some, hlookup.mpr h,
      Option.map_some]

/-- Reading a keyword and looking the next word up come to the same. -/
theorem keyword_eq_some_iff : c.keyword k = some d ↔ c.lead = some (k, d) := by
  rw [lead_eq_some_iff, keyword_eq]
  split
  · rename_i h
    simp [h, eq_comm]
  · rename_i h
    simp [h]

theorem keyword_eq_none_iff : c.keyword k = none ↔ c.peekKeyword ≠ some k := by
  rw [Option.eq_none_iff_forall_ne_some, peekKeyword_eq]
  simp only [ne_eq, keyword_eq_some_iff, Option.map_eq_some_iff, not_exists, Prod.exists]
  grind

/-! ## Names -/

theorem identifier_isSome_iff :
    c.identifier.isSome ↔ ∃ word, c.peekWord = some word ∧ isReservedWord word = false := by
  rw [identifier, peekWord]
  cases c.word <;> simp

theorem identifier_eq_none_of_isReserved (h : c.peekKeyword = some k) (hk : k.isReserved = true) :
    c.identifier = none := by
  obtain ⟨word, hword, hlookup⟩ := Option.bind_eq_some_iff.mp h
  have hreserved : isReservedWord word = true := by simp [isReservedWord, hlookup, hk]
  rw [← Option.not_isSome_iff_eq_none, identifier_isSome_iff]
  simp [hword, hreserved]

/-! ## Comments and lines that hold nothing -/

theorem exists_isBreak_of_blankLine (h : c.blankLine.isSome) :
    ∃ char rest, c.skipBlanks.rest = char :: rest ∧ isBreak char = true := by
  have hwidth : breakWidth (c.skip (c.rest.takeWhile isBlank).length).rest ≠ 0 := by
    intro hzero
    rw [blankLine, lineBreak_eq_none hzero] at h
    contradiction
  rw [← skipBlanks_skip_blanks]
  generalize c.skip (c.rest.takeWhile isBlank).length = place at hwidth
  cases hrest : place.rest with
  | nil => simp [hrest, breakWidth] at hwidth
  | cons char rest =>
    have hbreak : isBreak char = true := by
      cases hchar : isBreak char with
      | true => rfl
      | false => exact absurd (by rw [hrest, breakWidth_eq_zero hchar]) hwidth
    have hunderscore : char ≠ '_' := by rintro rfl; contradiction
    have hstays := skipBlanks_eq_self hrest (isBlank_eq_false_of_isBreak hbreak)
      fun h => absurd h hunderscore
    exact ⟨char, rest, by rw [hstays, hrest], hbreak⟩

theorem word_eq_none_of_head {char : Char} {rest : List Char}
    (hrest : c.skipBlanks.rest = char :: rest)
    (hchar : isWordStart char = false) : c.word = none := by
  simp [word, hrest, hchar]

theorem word_eq_none_of_blankLine (h : c.blankLine.isSome) : c.word = none := by
  obtain ⟨char, rest, hrest, hbreak⟩ := exists_isBreak_of_blankLine h
  refine word_eq_none_of_head hrest ?_
  cases hchar : isWordStart char with
  | false => rfl
  | true =>
    rw [isBreak_eq_false_of_isInk (isInk_of_isWordChar (isWordChar_of_isWordStart hchar))] at hbreak
    contradiction

theorem breakWidth_ne_zero {char : Char} (h : isBreak char = true) (rest : List Char) :
    breakWidth (char :: rest) ≠ 0 := by
  simp only [isBreak, Bool.or_eq_true, decide_eq_true_eq] at h
  rcases h with rfl | rfl
  · simp [breakWidth]
  · unfold breakWidth
    split <;> simp_all

theorem breakOrEnd_isSome_iff {c : Cursor} :
    c.breakOrEnd.isSome ↔ c.rest.head?.all isBreak = true := by
  cases hrest : c.rest with
  | nil => simp [breakOrEnd, isAtEnd, hrest]
  | cons char rest =>
    cases hchar : isBreak char with
    | true =>
      have hwidth : breakWidth c.rest ≠ 0 := by
        rw [hrest]
        exact breakWidth_ne_zero hchar rest
      simp [breakOrEnd, lineBreak_eq_some rfl hwidth, hchar]
    | false => simp [breakOrEnd, lineBreak, isAtEnd, hrest, breakWidth_eq_zero hchar, hchar]

/-- The rest of a line is followed by a break or by nothing. -/
theorem breakOrEnd_toLineEnd (c : Cursor) : c.toLineEnd.breakOrEnd.isSome := by
  have hrest : c.toLineEnd.rest = c.rest.dropWhile (! isBreak ·) := by
    rw [toLineEnd, rest_skip, drop_length_takeWhile]
  have hhead := any_head?_dropWhile (! isBreak ·) c.rest
  rw [breakOrEnd_isSome_iff, hrest]
  cases hchar : (c.rest.dropWhile (! isBreak ·)).head? with
  | none => rfl
  | some char => simpa [hchar] using hhead

/-- No word but `Rem` starts a comment. -/
theorem eq_Rem_of_commentMark (h : c.commentMark.isSome) (hlead : c.lead = some (k, d)) :
    k = .Rem := by
  obtain ⟨body, hbody⟩ := Option.isSome_iff_exists.mp h
  simp only [commentMark] at hbody
  rcases Option.or_eq_some_iff.mp hbody with hmark | ⟨_, hmark⟩
  · obtain ⟨hhead, _⟩ := adjacent_eq_some_iff.mp hmark
    obtain ⟨rest, hrest⟩ := List.head?_eq_some_iff.mp hhead
    rw [lead, word_eq_none_of_head hrest rfl] at hlead
    contradiction
  · rw [keyword_eq_some_iff, lead_skipBlanks, hlead] at hmark
    simpa using congrArg (Option.map Prod.fst) hmark

theorem commentMark_eq_none_of_word {found : String × Cursor} (h : c.word = some found)
    (hword : c.peekKeyword ≠ some .Rem) : c.commentMark = none := by
  have hmark : c.skipBlanks.adjacent '\x27' = none := adjacent_eq_none_of_word h rfl
  rw [commentMark, hmark, Option.none_or, keyword_eq_none_iff, peekKeyword_skipBlanks]
  exact hword

theorem commentMark_eq_none_of_blankLine (h : c.blankLine.isSome) : c.commentMark = none := by
  obtain ⟨char, rest, hrest, hbreak⟩ := exists_isBreak_of_blankLine h
  have hmark : c.skipBlanks.adjacent '\x27' = none := by
    rw [adjacent, hrest, if_neg]
    rintro heq
    obtain rfl : char = '\x27' := by simpa using heq
    contradiction
  have hword : c.skipBlanks.keyword .Rem = none := by
    rw [keyword_eq_none_iff, peekKeyword_eq, lead_skipBlanks, lead, word_eq_none_of_blankLine h]
    simp
  simp only [commentMark, hmark, hword, Option.or_none]

end Cursor

end VisualBasic
