import Mathlib.Data.List.Nodup
import VisualBasic.Proofs.Diagnostic.Pinpoint
import VisualBasic.Proofs.Text.Lead

/-!
# Notes on operators

Where parsing fails at an operator, the diagnostic has a note that operators are not supported. An
operator is the longest sign that a text starts with, or the word that it starts with in any case. A
plus or a minus that starts a number has no note.
-/

set_option autoImplicit false

namespace VisualBasic

/-! ## The operator that a text starts with -/

namespace Operator

/-- A text starts with an operator: with one of its signs and no longer one, or with its word. -/
inductive Starts (operator : Operator) (text : List Char) : Prop
  | sign {spelling : String} (known : (spelling, operator) ∈ symbols)
    (starts : spelling.toList <+: text)
    (longest : ∀ other ∈ symbols, other.1.toList <+: text → other.1.length ≤ spelling.length)
  | word {spelling : String} (known : (spelling, operator) ∈ words)
    (same : sameLetters spelling.toList (firstWord text) = true)

/-- Plus and minus, which a number may start with too. -/
def isSign (operator : Operator) : Bool := operator = .plus || operator = .minus

/-- A spelling begins none of those after it. -/
theorem pairwise_symbols :
    symbols.Pairwise fun earlier later => ¬ earlier.1.toList <+: later.1.toList := by
  decide

theorem nodup_symbols : (symbols.map fun entry => entry.1.toList).Nodup := by
  decide

theorem nodup_words : (words.map fun entry => entry.1.toList.map Char.toLower).Nodup := by
  decide

variable {text : List Char} {entry : String × Operator}

/-- An entry of a table is found if it passes and no other one can be found. -/
theorem find?_eq_some_of_only {table : List (String × Operator)} {passes : String × Operator → Bool}
    (hmem : entry ∈ table) (hpasses : passes entry = true)
    (honly : ∀ found, table.find? passes = some found → found = entry) :
    table.find? passes = some entry := by
  have hsome : (table.find? passes).isSome := by
    rw [List.find?_isSome]
    exact ⟨entry, hmem, hpasses⟩
  obtain ⟨found, hfound⟩ := Option.isSome_iff_exists.mp hsome
  rw [hfound, honly found hfound]

/-- The first sign that a text starts with is the longest, since no spelling begins a later one. -/
theorem longest_of_find?_symbols
    (h : (symbols.find? fun entry => entry.1.toList.isPrefixOf text) = some entry) :
    entry ∈ symbols ∧ entry.1.toList <+: text ∧
      ∀ other ∈ symbols, other.1.toList <+: text → other.1.length ≤ entry.1.length := by
  obtain ⟨hstarts, earlier, later, htable, hearlier⟩ := List.find?_eq_some_iff_append.mp h
  rw [List.isPrefixOf_iff_prefix] at hstarts
  refine ⟨List.mem_of_find?_eq_some h, hstarts, fun other hother hprefix => ?_⟩
  have hordered := pairwise_symbols
  rw [htable] at hother hordered
  rcases List.mem_append.mp hother with hother | hother
  · have hmissed := hearlier other hother
    rw [List.isPrefixOf_iff_prefix.mpr hprefix] at hmissed
    contradiction
  · rcases List.mem_cons.mp hother with rfl | hother
    · exact Nat.le_refl _
    · have hnot := (List.pairwise_cons.mp (List.pairwise_append.mp hordered).2.1).1 other hother
      by_contra hlt
      refine hnot (List.prefix_of_prefix_length_le hstarts hprefix ?_)
      rw [String.length_toList, String.length_toList]
      omega

theorem find?_symbols_eq_some_iff :
    (symbols.find? fun entry => entry.1.toList.isPrefixOf text) = some entry ↔
      entry ∈ symbols ∧ entry.1.toList <+: text ∧
        ∀ other ∈ symbols, other.1.toList <+: text → other.1.length ≤ entry.1.length := by
  constructor
  · exact longest_of_find?_symbols
  · rintro ⟨hmem, hstarts, hmax⟩
    refine find?_eq_some_of_only hmem (List.isPrefixOf_iff_prefix.mpr hstarts)
      fun found hfound => ?_
    obtain ⟨hfoundMem, hfoundStarts, hfoundMax⟩ := longest_of_find?_symbols hfound
    have hlength : found.1.toList.length = entry.1.toList.length := by
      rw [String.length_toList, String.length_toList]
      exact Nat.le_antisymm (hmax found hfoundMem hfoundStarts) (hfoundMax entry hmem hstarts)
    have hspelling : found.1.toList = entry.1.toList :=
      (List.prefix_of_prefix_length_le hfoundStarts hstarts hlength.le).eq_of_length hlength
    exact List.inj_on_of_nodup_map nodup_symbols hfoundMem hmem hspelling

theorem find?_words_eq_some_iff {word : List Char} :
    (words.find? fun entry => sameLetters entry.1.toList word) = some entry ↔
      entry ∈ words ∧ sameLetters entry.1.toList word = true := by
  constructor
  · intro h
    have hsame := List.find?_some h
    exact ⟨List.mem_of_find?_eq_some h, hsame⟩
  · rintro ⟨hmem, hsame⟩
    refine find?_eq_some_of_only hmem hsame fun found hfound => ?_
    have hfoundSame := List.find?_some hfound
    have hletters : found.1.toList.map Char.toLower = entry.1.toList.map Char.toLower := by
      rw [sameLetters_iff.mp hfoundSame, sameLetters_iff.mp hsame]
    exact List.inj_on_of_nodup_map nodup_words (List.mem_of_find?_eq_some hfound) hmem hletters

/-- Signs are no letters. -/
theorem isAlpha_head_of_mem_symbols (h : entry ∈ symbols) :
    entry.1.toList ≠ [] ∧ entry.1.toList.head?.any Char.isAlpha = false := by
  have hall : (symbols.all fun entry =>
      ! entry.1.toList.isEmpty && ! entry.1.toList.head?.any Char.isAlpha) = true := by
    decide
  simpa using List.all_eq_true.mp hall entry h

theorem isAlpha_of_mem_words (h : entry ∈ words) :
    entry.1.toList ≠ [] ∧ ∀ c ∈ entry.1.toList, c.isAlpha = true := by
  have hall : (words.all fun entry =>
      ! entry.1.toList.isEmpty && entry.1.toList.all Char.isAlpha) = true := by
    decide
  simpa using List.all_eq_true.mp hall entry h

/-- The first word of a text that has an operator's letters starts the text with a letter. -/
theorem head?_of_sameLetters (h : entry ∈ words)
    (hsame : sameLetters entry.1.toList (firstWord text) = true) :
    ∃ c rest, text = c :: rest ∧ c.isAlpha = true := by
  obtain ⟨hne, halpha⟩ := isAlpha_of_mem_words h
  have hletters := isAlpha_of_sameLetters hsame halpha
  have hlength := length_eq_of_sameLetters hsame
  cases text with
  | nil => exact absurd (List.eq_nil_of_length_eq_zero hlength) hne
  | cons c rest =>
    refine ⟨c, rest, rfl, ?_⟩
    cases hc : isWordChar c with
    | true => exact hletters c (by simp [firstWord, hc])
    | false =>
      have hnone : firstWord (c :: rest) = [] := by simp [firstWord, hc]
      rw [hnone] at hlength
      exact absurd (List.eq_nil_of_length_eq_zero hlength) hne

theorem find?_symbols_of_alpha {c : Char} (hc : c.isAlpha = true) (rest : List Char) :
    (symbols.find? fun entry => entry.1.toList.isPrefixOf (c :: rest)) = none := by
  rw [List.find?_eq_none]
  intro entry hentry hstarts
  obtain ⟨hne, hhead⟩ := isAlpha_head_of_mem_symbols hentry
  obtain ⟨first, others, hspelling⟩ := List.exists_cons_of_ne_nil hne
  rw [hspelling, List.isPrefixOf_iff_prefix, List.cons_prefix_cons] at hstarts
  rw [hspelling, hstarts.1] at hhead
  simp [hc] at hhead

end Operator

namespace Cursor

open Operator (symbols words)

variable {c : Cursor} {operator : Operator}

theorem peekWord_of_alpha {first : Char} {rest : List Char} (hc : c.skipBlanks = c)
    (hr : c.rest = first :: rest) (hfirst : first.isAlpha = true) :
    c.peekWord = some (String.ofList (firstWord c.rest)) := by
  have hstart : isWordStart first = true := by simp [isWordStart, hfirst]
  simp [peekWord, word, hc, hr, hstart, firstWord]

/-- What is recognised as an operator at a token. -/
theorem peekOperator_eq_some_iff (hc : c.skipBlanks = c) :
    c.peekOperator = some operator ↔ operator.Starts c.rest := by
  simp only [peekOperator, hc]
  constructor
  · intro h
    split at h
    · rename_i spelling found hfound
      obtain rfl := Option.some.inj h
      obtain ⟨hmem, hstarts, hmax⟩ :=
        Operator.find?_symbols_eq_some_iff.mp hfound
      exact .sign hmem hstarts hmax
    · obtain ⟨word, hword, hfound⟩ := Option.bind_eq_some_iff.mp h
      obtain ⟨⟨spelling, found⟩, hfind, rfl⟩ := Option.map_eq_some_iff.mp hfound
      obtain ⟨hmem, hsame⟩ := Operator.find?_words_eq_some_iff.mp hfind
      have hfirst : word.toList = firstWord c.rest := by
        obtain ⟨⟨_, after⟩, hread, rfl⟩ := Option.map_eq_some_iff.mp hword
        simp only [Cursor.word, hc] at hread
        split at hread
        · cases hread
          exact String.toList_ofList
        · contradiction
      exact .word hmem (hfirst ▸ hsame)
  · intro h
    cases h with
    | @sign spelling known starts longest =>
      rw [Operator.find?_symbols_eq_some_iff.mpr ⟨known, starts, longest⟩]
    | @word spelling known same =>
      obtain ⟨first, rest, hrest, hfirst⟩ := Operator.head?_of_sameLetters known same
      have hfound := Operator.find?_words_eq_some_iff.mpr ⟨known, same⟩
      rw [peekWord_of_alpha hc hrest hfirst, hrest, Operator.find?_symbols_of_alpha hfirst, ← hrest,
        Option.bind_some, String.toList_ofList, hfound]
      rfl

theorem isAtOperator_of_peekOperator (h : c.peekOperator = some operator) :
    c.isAtOperator = ! (operator.isSign && c.number.isSome) := by
  rw [isAtOperator, h]
  cases operator <;> simp [Operator.isSign]

end Cursor

/-! ## The note of a diagnostic -/

/-- A failure lies at the offset that it is reported at, and its note is reported. -/
theorem Failure.place_of_reported {source : String} {failure : Failure} {d : Cursor}
    (h : Unified source.toList failure.place d) (settings : Settings) :
    failure.place = Cursor.ofOffset source.toList (failure.reported source settings).offset ∧
      (failure.reported source settings).note = failure.note := by
  generalize hplace : failure.place = place at h
  obtain @⟨before, after, hs, hu⟩ := h
  rw [Failure.reported_between hs hu hplace]
  refine ⟨?_, rfl⟩
  rw [hs, Cursor.ofOffset_append]

/-- A module fails at the token that starts at the offset of its diagnostic. -/
theorem exists_failure_of_parseModule {source : String} {settings : Settings}
    {diagnostic : Diagnostic}
    (h : parseModule source settings = .error diagnostic) :
    ∃ failure : Failure, diagnostic.note = failure.note ∧
      failure.place = Cursor.ofOffset source.toList diagnostic.offset ∧
      failure.place.skipBlanks = failure.place := by
  have hfollows := Grammar.module_unifyBreaks source.toList
  cases hm : Grammar.module [] (Cursor.start source.toList) with
  | unmatched => exact absurd hm (Grammar.module_ne_unmatched _ _)
  | matched tree d =>
    rw [parseModule_of_matched hm] at h
    contradiction
  | failed failure =>
    rw [hm] at hfollows
    obtain ⟨other, _, halike⟩ := hfollows.of_failed trivial
    obtain ⟨hplace, hnote⟩ := Failure.place_of_reported halike.place.1 settings
    rw [parseModule_of_failed hm] at h
    cases h
    exact ⟨failure, hnote, hplace, halike.token.1⟩

open Scanner (peekOperator number run_peekOperator run_number)

/-- The operators that are found at a place are those of `Operator.Starts`. A module that fails to
parse where no operator is found has no note; where one is it has the note on operators, unless the
operator is a plus or a minus and a number is found there too. -/
theorem note_of_parseModule {source : String} {settings : Settings} {diagnostic : Diagnostic}
    (h : parseModule source settings = .error diagnostic) :
    let place := Cursor.ofOffset source.toList diagnostic.offset
    (∀ operator, (peekOperator.run place).value = some operator ↔
      operator.Starts place.rest) ∧
    ((peekOperator.run place).value = none → diagnostic.note = none) ∧
    ∀ operator, (peekOperator.run place).value = some operator →
      diagnostic.note =
        if operator.isSign && (number.run place).value.isSome then none else some operatorNote := by
  obtain ⟨failure, hnote, hplace, htoken⟩ := exists_failure_of_parseModule h
  intro place
  rw [hplace] at htoken
  have hisAt : diagnostic.note = if place.isAtOperator then some operatorNote else none := by
    rw [hnote, Failure.note, hplace]
  simp only [run_peekOperator, run_number, Scanned.taken, Option.isSome_map]
  refine ⟨fun operator => Cursor.peekOperator_eq_some_iff htoken, fun hnone => ?_,
    fun operator hop => ?_⟩
  · rw [hisAt, Cursor.isAtOperator, hnone]
    rfl
  · rw [hisAt, Cursor.isAtOperator_of_peekOperator hop]
    cases operator.isSign && place.number.isSome <;> rfl

/-- A comparison in an assignment has the note. -/
theorem note_of_comparison :
    ∃ diagnostic, parseModule "Sub A()\nx = a <> b\nEnd Sub\n" Settings.standard =
    .error diagnostic ∧
      (peekOperator.run (Cursor.ofOffset "Sub A()\nx = a <> b\nEnd Sub\n".toList
        diagnostic.offset)).value = some (.relational .notEqual) ∧
      diagnostic.note = some operatorNote := by
  have hparsed : (match parseModule "Sub A()\nx = a <> b\nEnd Sub\n" Settings.standard with
      | .error diagnostic => decide (diagnostic.offset = 14)
      | .ok _ => false) = true := by
    decide +kernel
  cases hp : parseModule "Sub A()\nx = a <> b\nEnd Sub\n" Settings.standard with
  | ok tree =>
    rw [hp] at hparsed
    contradiction
  | error diagnostic =>
    rw [hp] at hparsed
    have hoperator : (peekOperator.run (Cursor.ofOffset "Sub A()\nx = a <> b\nEnd Sub\n".toList
        diagnostic.offset)).value = some (.relational .notEqual) := by
      rw [of_decide_eq_true hparsed, run_peekOperator]
      decide +kernel
    exact ⟨diagnostic, rfl, hoperator, (note_of_parseModule hp).2.2 _ hoperator⟩

/-- A minus between two numbers, without blanks, has none. -/
theorem exists_operator_without_note :
    ∃ diagnostic, parseModule "Sub A()\nx = 5-3\nEnd Sub\n" Settings.standard = .error diagnostic ∧
      diagnostic.expected = Expected.endOfStatement.text ∧
      (peekOperator.run (Cursor.ofOffset "Sub A()\nx = 5-3\nEnd Sub\n".toList
        diagnostic.offset)).value = some .minus ∧
      diagnostic.note = none := by
  have hparsed : (match parseModule "Sub A()\nx = 5-3\nEnd Sub\n" Settings.standard with
      | .error diagnostic => decide (diagnostic.expected = Expected.endOfStatement.text ∧
          (Cursor.ofOffset "Sub A()\nx = 5-3\nEnd Sub\n".toList diagnostic.offset).peekOperator =
            some .minus ∧
          diagnostic.note = none)
      | .ok _ => false) = true := by
    decide +kernel
  cases hp : parseModule "Sub A()\nx = 5-3\nEnd Sub\n" Settings.standard with
  | ok tree =>
    rw [hp] at hparsed
    contradiction
  | error diagnostic =>
    rw [hp] at hparsed
    simp only [run_peekOperator]
    exact ⟨diagnostic, rfl, of_decide_eq_true hparsed⟩

end VisualBasic
