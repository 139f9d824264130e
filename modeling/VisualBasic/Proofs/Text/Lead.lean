import VisualBasic.Proofs.Cursor.Token

/-!
# How a text starts

The blanks that a text starts with are passed over whatever comes before the text, unless it starts
with an underscore that ends its line. What keyword a text starts with is told from its first word.
-/

set_option autoImplicit false

namespace VisualBasic

/-- Nothing is passed over before the text, whatever precedes it. -/
def Solid (text : List Char) : Prop := ∀ afterBlank, blankWidth afterBlank text = 0

theorem solid_cons {c : Char} (rest : List Char) (hb : isBlank c = false) (hu : c ≠ '_') :
    Solid (c :: rest) := fun _ => blankWidth_cons_eq_zero hb fun _ h => absurd h hu

/-- The text, without the blanks at its start, is the token and what follows it. -/
def Leads (text token : List Char) : Prop :=
  ∀ afterBlank, text.drop (blankWidth afterBlank text) = token

variable {text token rest : List Char}

theorem Solid.here (h : Solid text) : Leads text text := fun afterBlank => by
  rw [h afterBlank, List.drop_zero]

theorem Solid.space (h : Solid text) : Leads (' ' :: text) text := fun afterBlank => by
  rw [blankWidth_blank rfl, h true, Nat.zero_add, List.drop_one, List.tail_cons]

theorem Cursor.rest_skipBlanks {c : Cursor} (h : Leads text token) (hc : c.rest = text) :
    c.skipBlanks.rest = token := by
  rw [skipBlanks, rest_skip, hc, h]

/-- The text does not go on with the word that ends before it. -/
def NoWord (text : List Char) : Prop := text.head?.any isWordChar = false

/-- The word characters that a text starts with. -/
def firstWord (text : List Char) : List Char := text.takeWhile isWordChar

theorem firstWord_append {word : List Char} (hw : ∀ c ∈ word, isWordChar c = true)
    (hr : NoWord rest) : firstWord (word ++ rest) = word := by
  rw [firstWord, List.takeWhile_append_of_pos hw]
  cases rest with
  | nil => simp
  | cons c rest =>
    have hc : isWordChar c = false := hr
    simp [hc]

theorem noWord_drop_firstWord (text : List Char) :
    NoWord (text.drop (firstWord text).length) := by
  induction text with
  | nil => rfl
  | cons c rest ih =>
    cases hc : isWordChar c with
    | false => simp [NoWord, firstWord, hc]
    | true => simpa [firstWord, hc] using ih

/-- Whether the first word of a text spells a keyword. -/
def spells (k : Keyword) (text : List Char) : Bool := sameLetters k.letters (firstWord text)

theorem isWordChar_of_mem_letters {k : Keyword} {c : Char} (h : c ∈ k.letters) :
    isWordChar c = true := by
  simp [isWordChar, Char.isAlphanum, k.isAlpha_of_mem_letters h]

theorem length_eq_of_sameLetters {s t : List Char} (h : sameLetters s t = true) :
    s.length = t.length := by
  simpa using congrArg List.length (sameLetters_iff.mp h)

theorem spells_iff {k : Keyword} :
    spells k text = true ↔
      startsWithLetters k.letters text = true ∧ NoWord (text.drop k.letters.length) := by
  constructor
  · intro h
    have hlen := length_eq_of_sameLetters h
    have hle := (List.takeWhile_prefix (l := text) isWordChar).length_le
    have htake : text.take k.letters.length = firstWord text := by
      rw [hlen]
      exact (List.prefix_iff_eq_take.mp (List.takeWhile_prefix isWordChar)).symm
    refine ⟨startsWithLetters_iff.mpr ⟨by rw [hlen]; exact hle, by rw [htake]; exact h⟩, ?_⟩
    rw [hlen]
    exact noWord_drop_firstWord text
  · rintro ⟨hstart, hend⟩
    obtain ⟨_, hsame⟩ := startsWithLetters_iff.mp hstart
    have hword (c : Char) (hc : c ∈ text.take k.letters.length) : isWordChar c = true := by
      have := isAlpha_of_sameLetters hsame (fun a ha => k.isAlpha_of_mem_letters ha) c hc
      simp [isWordChar, Char.isAlphanum, this]
    have hfirst := firstWord_append hword hend
    rw [List.take_append_drop] at hfirst
    rw [spells, hfirst]
    exact hsame

theorem Cursor.keyword_eq (k : Keyword) (c : Cursor) :
    c.keyword k =
      if spells k c.skipBlanks.rest then some (c.skipBlanks.skip k.letters.length) else none := by
  have hiff : (startsWithLetters k.letters c.skipBlanks.rest &&
      ! (c.skipBlanks.skip k.letters.length).isAtWordChar) = spells k c.skipBlanks.rest := by
    rw [Bool.eq_iff_iff, spells_iff, Bool.and_eq_true, Bool.not_eq_true', isAtWordChar, rest_skip]
    rfl
  simp only [keyword, hiff]

/-! ## Keywords -/

namespace Keyword

/-- A keyword and the text after it. -/
def write (k : Keyword) (rest : List Char) : List Char := k.letters ++ rest

theorem sameLetters_letters (k other : Keyword) :
    sameLetters k.letters other.letters = decide (k = other) := by
  have hall : ∀ k ∈ all, ∀ other ∈ all,
      sameLetters k.letters other.letters = decide (k = other) := by
    decide +kernel
  exact hall k k.mem_all other other.mem_all

theorem lookup_letters (k : Keyword) : lookup (String.ofList k.letters) = some k := by
  simp only [lookup, String.toList_ofList, sameLetters_letters]
  cases k <;> decide

theorem isReservedWord_letters (k : Keyword) :
    isReservedWord (String.ofList k.letters) = k.isReserved := by
  rw [isReservedWord, lookup_letters]
  rfl

theorem firstWord_write (k : Keyword) (hr : NoWord rest) : firstWord (k.write rest) = k.letters :=
  firstWord_append (fun _ => isWordChar_of_mem_letters) hr

theorem spells_write (k other : Keyword) (hr : NoWord rest) :
    spells k (other.write rest) = decide (k = other) := by
  rw [spells, other.firstWord_write hr, sameLetters_letters]

theorem isAlpha_head (k : Keyword) (rest : List Char) :
    ∃ c tail, k.write rest = c :: tail ∧ c.isAlpha = true := by
  cases hk : k.letters with
  | nil => exact absurd hk k.letters_ne_nil
  | cons c letters =>
    refine ⟨c, letters ++ rest, by rw [write, hk]; rfl, k.isAlpha_of_mem_letters ?_⟩
    simp [hk]

theorem solid_write (k : Keyword) (rest : List Char) : Solid (k.write rest) := by
  obtain ⟨c, tail, hk, hc⟩ := k.isAlpha_head rest
  rw [hk]
  refine solid_cons tail ?_ ?_
  · exact isBlank_eq_false_of_isInk (isInk_of_isAlphanum (by simp [Char.isAlphanum, hc]))
  · rintro rfl
    contradiction

end Keyword

/-- A text that starts with no letter starts with no keyword. -/
theorem spells_cons_eq_false {c : Char} (k : Keyword) (rest : List Char) (hc : c.isAlpha = false) :
    spells k (c :: rest) = false := by
  rw [Bool.eq_false_iff]
  intro h
  have halpha := isAlpha_of_sameLetters h fun a ha => k.isAlpha_of_mem_letters ha
  have hlen := length_eq_of_sameLetters h
  cases hw : isWordChar c with
  | false => simp [firstWord, hw, k.letters_ne_nil] at hlen
  | true =>
    have := halpha c (by simp [firstWord, hw])
    simp [hc] at this

theorem spells_eq_false (k : Keyword) (h : text.head?.any Char.isAlpha = false) :
    spells k text = false := by
  cases text with
  | nil =>
    rw [Bool.eq_false_iff]
    intro hspells
    exact k.letters_ne_nil (List.length_eq_zero_iff.mp (length_eq_of_sameLetters hspells))
  | cons c rest => exact spells_cons_eq_false k rest h

/-! ## Names -/

/-- A name that can be written: a word that is no lone underscore and spells no keyword. -/
def isNameText (text : List Char) : Bool :=
  text.head?.any isWordStart && text.all isWordChar && text ≠ ['_'] &&
    Keyword.all.all fun k => ! sameLetters k.letters text

structure IsNameText (text : List Char) : Prop where
  head : text.head?.any isWordStart = true
  all : ∀ c ∈ text, isWordChar c = true
  ne_underscore : text ≠ ['_']
  spells : ∀ k : Keyword, sameLetters k.letters text = false

theorem isNameText_iff : isNameText text = true ↔ IsNameText text := by
  simp only [isNameText, Bool.and_eq_true, List.all_eq_true, decide_eq_true_eq, Bool.not_eq_true']
  constructor
  · rintro ⟨⟨⟨head, all⟩, hne⟩, spells⟩
    exact ⟨head, all, hne, fun k => spells k k.mem_all⟩
  · rintro ⟨head, all, hne, spells⟩
    exact ⟨⟨⟨head, all⟩, hne⟩, fun k _ => spells k⟩

namespace IsNameText

variable {name : List Char} (h : IsNameText name)
include h

theorem firstWord_append (hr : NoWord rest) : firstWord (name ++ rest) = name :=
  VisualBasic.firstWord_append h.all hr

theorem spells_append (k : Keyword) (hr : NoWord rest) :
    VisualBasic.spells k (name ++ rest) = false := by
  rw [VisualBasic.spells, h.firstWord_append hr, h.spells]

theorem eq_cons : ∃ c tail, name = c :: tail ∧ isWordStart c = true := by
  obtain ⟨c, hc, hs⟩ := (Option.any_eq_true _ _).mp h.head
  obtain ⟨tail, ht⟩ := List.head?_eq_some_iff.mp hc
  exact ⟨c, tail, ht, hs⟩

/-- An underscore at the start of a name is followed by a word character, not by a line break. -/
theorem solid_append (rest : List Char) : Solid (name ++ rest) := by
  obtain ⟨c, tail, rfl, hs⟩ := h.eq_cons
  have hink := isInk_of_isWordChar (isWordChar_of_isWordStart hs)
  refine fun afterBlank => blankWidth_cons_eq_zero (isBlank_eq_false_of_isInk hink) fun _ hu => ?_
  cases tail with
  | nil => exact absurd (by rw [hu]) h.ne_underscore
  | cons d tail =>
    have hd := isInk_of_isWordChar (h.all d (by simp))
    have hblank := isBlank_eq_false_of_isInk hd
    have hbreak := isBreak_eq_false_of_isInk hd
    rw [isBreak, Bool.or_eq_false_iff, decide_eq_false_iff_not, decide_eq_false_iff_not] at hbreak
    have hwidth : breakWidth (d :: (tail ++ rest)) = 0 := by
      unfold breakWidth
      split <;> simp_all
    change continuationWidth (d :: (tail ++ rest)) = none
    simp [continuationWidth, hblank, hwidth]

theorem lookup_eq_none : Keyword.lookup (String.ofList name) = none := by
  simp [Keyword.lookup, h.spells]

theorem isReservedWord_eq_false : isReservedWord (String.ofList name) = false := by
  rw [isReservedWord, h.lookup_eq_none]
  rfl

end IsNameText

end VisualBasic
