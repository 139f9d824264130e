import VisualBasic.Proofs.Lookahead.Word
import VisualBasic.Proofs.Scanner.Token
import VisualBasic.Proofs.Tree.WellFormed

/-!
# One word for every scanner of words

Words, keywords and identifiers are found by the same text: the longest word that comes next. A
keyword is there when that word spells it, so no two keywords are found at one place, and an
identifier is there when that word spells no reserved keyword. All three scanners stop at the end of
the word.
-/

set_option autoImplicit false

namespace VisualBasic

/-- The longest of the words that a source starts with. -/
structure IsLongestWord (text : String) (source : List Char) : Prop where
  word : IsWord text
  starts : text.toList <+: source
  longest : ∀ other : String, IsWord other → other.toList <+: source → other.length ≤ text.length

variable {text : String} {source : List Char}

theorem IsWord.isWordChar (h : IsWord text) : ∀ c ∈ text.toList, isWordChar c = true := by
  obtain ⟨first, rest, htext, hfirst, hrest⟩ := h
  rw [htext]
  exact List.forall_mem_cons.mpr ⟨isWordChar_of_isWordStart hfirst, hrest⟩

/-- A word that a source starts with lies in its longest run of word characters. -/
theorem IsWord.length_le_firstWord (h : IsWord text) (hstarts : text.toList <+: source) :
    text.length ≤ (firstWord source).length := by
  obtain ⟨more, rfl⟩ := hstarts
  rw [firstWord, List.takeWhile_append_of_pos h.isWordChar, List.length_append,
    String.length_toList]
  exact Nat.le_add_right _ _

theorem IsWord.any_head? (h : IsWord text) (hstarts : text.toList <+: source) :
    source.head?.any isWordStart = true := by
  obtain ⟨first, rest, htext, hfirst, -⟩ := h
  obtain ⟨more, rfl⟩ := hstarts
  rwa [htext]

theorem isWord_firstWord (h : source.head?.any isWordStart = true) :
    IsWord (String.ofList (firstWord source)) := by
  obtain ⟨first, hfirst, hstart⟩ := (Option.any_eq_true _ _).mp h
  obtain ⟨rest, rfl⟩ := List.head?_eq_some_iff.mp hfirst
  refine ⟨first, firstWord rest, ?_, hstart, fun c hc => of_mem_takeWhile hc⟩
  rw [String.toList_ofList, firstWord,
    List.takeWhile_cons_of_pos (isWordChar_of_isWordStart hstart), firstWord]

/-- From a character that may start a word, the longest word is the whole run of word characters. -/
theorem isLongestWord_iff :
    IsLongestWord text source ↔
      source.head?.any isWordStart = true ∧ text = String.ofList (firstWord source) := by
  have hprefix : firstWord source <+: source := List.takeWhile_prefix isWordChar
  constructor
  · rintro ⟨hword, hstarts, hlongest⟩
    have hhead := hword.any_head? hstarts
    have hle := hlongest _ (isWord_firstWord hhead) (by rwa [String.toList_ofList])
    rw [String.length_ofList] at hle
    refine ⟨hhead, String.toList_injective ?_⟩
    rw [String.toList_ofList]
    have hsame := (List.prefix_of_prefix_length_le hprefix hstarts hle).eq_of_length_le
      (hword.length_le_firstWord hstarts)
    exact hsame.symm
  · rintro ⟨hhead, rfl⟩
    refine ⟨isWord_firstWord hhead, by rwa [String.toList_ofList], fun other hother hstarts => ?_⟩
    rw [String.length_ofList]
    exact hother.length_le_firstWord hstarts

namespace Cursor

variable {c d : Cursor} {k : Keyword}

theorem word_eq_some_iff :
    c.word = some (text, d) ↔
      IsLongestWord text c.skipBlanks.rest ∧ d = c.skipBlanks.skip text.length := by
  rw [isLongestWord_iff, and_assoc, word_eq]
  constructor
  · intro h
    split at h
    · rename_i hhead
      cases h
      exact ⟨hhead, rfl, by rw [String.length_ofList]⟩
    · contradiction
  · rintro ⟨hhead, rfl, rfl⟩
    rw [if_pos hhead, String.length_ofList]

theorem keyword_eq_some_iff_word :
    c.keyword k = some d ↔ ∃ text, c.word = some (text, d) ∧ Keyword.lookup text = some k := by
  simp only [keyword_eq_some_iff, lead, Option.bind_eq_some_iff, Option.map_eq_some_iff]
  constructor
  · rintro ⟨⟨text, after⟩, hword, found, hlookup, heq⟩
    cases heq
    exact ⟨text, hword, hlookup⟩
  · rintro ⟨text, hword, hlookup⟩
    exact ⟨(text, d), hword, k, hlookup, rfl⟩

/-- No two keywords are met at one place. -/
theorem keyword_unique {other : Keyword} {e : Cursor} (h : c.keyword k = some d)
    (hother : c.keyword other = some e) :
    k = other := by
  rw [keyword_eq_some_iff] at h hother
  cases h.symm.trans hother
  rfl

end Cursor

/-- The three scanners of words agree: a word is the longest one that comes next, a keyword is found
exactly where it spells one, two keywords never are, and an identifier exactly where it spells none
that is reserved. -/
theorem Scanner.word_scanners_agree (c : Cursor) :
    (∀ text d, word.run c = ⟨some text, d, []⟩ ↔
      IsLongestWord text c.skipBlanks.rest ∧ d = c.skipBlanks.skip text.length) ∧
    (∀ k d, (keyword k).run c = ⟨true, d, []⟩ ↔
      ∃ text, word.run c = ⟨some text, d, []⟩ ∧ Keyword.lookup text = some k) ∧
    (∀ k other d e, (keyword k).run c = ⟨true, d, []⟩ → (keyword other).run c = ⟨true, e, []⟩ →
      k = other) ∧
    ∀ text d, identifier.run c = ⟨some text, d, []⟩ ↔
      word.run c = ⟨some text, d, []⟩ ∧
        (Keyword.lookup text = none ∨ ∃ k, Keyword.lookup text = some k ∧
          k.isReserved = false) := by
  simp only [run_word, run_keyword, run_identifier, Scanned.taken_eq_some_iff,
    Scanned.passed_eq_true_iff]
  refine ⟨fun _ _ => Cursor.word_eq_some_iff, fun _ _ => Cursor.keyword_eq_some_iff_word,
    fun _ _ _ _ => Cursor.keyword_unique, fun text d => ?_⟩
  rw [Cursor.identifier_eq_some_iff, isReservedWord]
  cases Keyword.lookup text <;> simp

end VisualBasic
