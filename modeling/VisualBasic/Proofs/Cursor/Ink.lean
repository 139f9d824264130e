import VisualBasic.Cursor.Comment
import VisualBasic.Cursor.Numeral
import VisualBasic.Cursor.Quoted

/-!
# Tokens as inked texts

Ink is what is neither blank nor line break. A token, wherever it is met, is a text that starts and
ends with ink; the blanks before it are passed over first. Texts that start and end with ink stay so
when they are joined, whatever stands between them.
-/

set_option autoImplicit false

namespace VisualBasic

/-- A character that is neither a blank nor a line break. -/
def isInk (c : Char) : Bool := ! isBlank c && ! isBreak c

/-- A character that goes on a word or a number. -/
def isJoining (c : Char) : Bool := isWordChar c || ['+', '-', '&', '!', '#', '%'].contains c

def isDelimiter (c : Char) : Bool := isInk c && ! isJoining c

/-- A symbol after which a construct always goes on. -/
def isOpener (c : Char) : Bool := ['(', ',', '.'].contains c

/-- A text that starts and ends with ink. -/
def IsInked (text : List Char) : Prop :=
  text.head?.any isInk = true ∧ text.getLast?.any isInk = true

theorem IsInked.ne_nil {text : List Char} (h : IsInked text) : text ≠ [] := by
  rintro rfl
  exact absurd h.1 (by decide)

theorem isInked_of_all {text : List Char} (hne : text ≠ [])
    (h : ∀ c ∈ text, isInk c = true) : IsInked text := by
  constructor
  · rw [List.head?_eq_some_head hne]
    exact h _ (List.head_mem hne)
  · rw [List.getLast?_eq_some_getLast hne]
    exact h _ (List.getLast_mem hne)

theorem IsInked.append {s t : List Char} (hs : IsInked s) (middle : List Char) (ht : IsInked t) :
    IsInked (s ++ (middle ++ t)) := by
  constructor
  · obtain ⟨a, s, rfl⟩ := List.exists_cons_of_ne_nil hs.ne_nil
    simpa using hs.1
  · obtain ⟨b, hb⟩ := Option.ne_none_iff_exists'.mp (mt List.getLast?_eq_none_iff.mp ht.ne_nil)
    simpa [List.getLast?_append, hb] using ht.2

theorem isInk_of_isWordChar {c : Char} (h : isWordChar c = true) : isInk c = true := by
  unfold isInk
  cases hb : isBlank c with
  | true => simp [isWordChar_eq_false_of_isBlank hb] at h
  | false =>
    cases hk : isBreak c with
    | true => simp [isWordChar_eq_false_of_isBreak hk] at h
    | false => rfl

theorem isInk_of_isAlphanum {c : Char} (h : c.isAlphanum = true) : isInk c = true :=
  isInk_of_isWordChar (by simp [isWordChar, h])

theorem isInk_of_isDigit {c : Char} (h : c.isDigit = true) : isInk c = true :=
  isInk_of_isAlphanum (by simp [Char.isAlphanum, h])

theorem isInk_of_isJoining {c : Char} (h : isJoining c = true) : isInk c = true := by
  simp only [isJoining, Bool.or_eq_true, List.contains_eq_mem, decide_eq_true_eq] at h
  rcases h with h | h
  · exact isInk_of_isWordChar h
  · simp only [List.mem_cons, List.not_mem_nil, or_false] at h
    rcases h with rfl | rfl | rfl | rfl | rfl | rfl <;> decide

theorem isOpener_eq_false_of_isJoining {c : Char} (h : isJoining c = true) :
    isOpener c = false := by
  rw [Bool.eq_false_iff]
  intro hopener
  simp only [isOpener, List.contains_eq_mem, decide_eq_true_eq, List.mem_cons, List.not_mem_nil,
    or_false] at hopener
  rcases hopener with rfl | rfl | rfl <;> contradiction

theorem isBlank_eq_false_of_isInk {c : Char} (h : isInk c = true) : isBlank c = false := by
  simp only [isInk, Bool.and_eq_true, Bool.not_eq_true'] at h
  exact h.1

theorem isBreak_eq_false_of_isInk {c : Char} (h : isInk c = true) : isBreak c = false := by
  simp only [isInk, Bool.and_eq_true, Bool.not_eq_true'] at h
  exact h.2

theorem isAlpha_toLower (c : Char) : c.toLower.isAlpha = c.isAlpha := by
  rw [Bool.eq_iff_iff]
  delta Char.isAlpha Char.isUpper Char.isLower Char.toLower
  split <;> grind [UInt32.toNat_add, Char.toNat_val]

theorem Keyword.isAlpha_of_mem_letters {k : Keyword} {c : Char} (h : c ∈ k.letters) :
    c.isAlpha = true := by
  have all : k.letters.all Char.isAlpha = true := by cases k <;> decide
  exact List.all_eq_true.mp all c h

theorem Keyword.letters_ne_nil (k : Keyword) : k.letters ≠ [] := by
  cases k <;> decide

/-- The letters of a word, in any case, are as many letters of the text. -/
theorem startsWithLetters_iff {letters text : List Char} :
    startsWithLetters letters text = true ↔
      letters.length ≤ text.length ∧ sameLetters letters (text.take letters.length) = true := by
  induction letters generalizing text with
  | nil => simp [startsWithLetters, sameLetters]
  | cons a letters ih =>
    cases text with
    | nil => simp [startsWithLetters]
    | cons b text => simp [startsWithLetters, sameLetters, ih, and_left_comm]

theorem isAlpha_of_sameLetters {letters text : List Char} (h : sameLetters letters text = true)
    (hl : ∀ c ∈ letters, c.isAlpha = true) : ∀ c ∈ text, c.isAlpha = true := by
  intro c hc
  have hm : c.toLower ∈ letters.map Char.toLower := by
    rw [sameLetters_iff.mp h]
    exact List.mem_map_of_mem hc
  obtain ⟨a, ha, hac⟩ := List.mem_map.mp hm
  rw [← isAlpha_toLower, ← hac, isAlpha_toLower]
  exact hl a ha

theorem isWordChar_of_startsWithLetters {k : Keyword} {text : List Char}
    (h : startsWithLetters k.letters text = true) :
    text.take k.letters.length ≠ [] ∧ ∀ c ∈ text.take k.letters.length, isWordChar c = true := by
  obtain ⟨hlen, hsame⟩ := startsWithLetters_iff.mp h
  have hpos := List.length_pos_iff.mpr k.letters_ne_nil
  refine ⟨fun he => ?_, fun c hc => ?_⟩
  · have := congrArg List.length he
    simp only [List.length_take, List.length_nil] at this
    omega
  · have := isAlpha_of_sameLetters hsame (fun a ha => k.isAlpha_of_mem_letters ha) c hc
    simp [isWordChar, Char.isAlphanum, this]

end VisualBasic
