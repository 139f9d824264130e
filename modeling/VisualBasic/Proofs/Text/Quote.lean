import VisualBasic.Proofs.Text.Cut
import VisualBasic.Proofs.Text.Gap

/-!
# Open and closed quotes

Read from left to right, a quote opens a string or closes it, and a line break closes it anyway.
After a token that starts outside a string no string is open, so a string does not run past the end
of such a token.
-/

set_option autoImplicit false

namespace VisualBasic

/-- Whether a string is open at the end of a text, given whether one is at its start. -/
def quoteOpen (isOpen : Bool) (text : List Char) : Bool :=
  text.foldl (fun isOpen c => if isBreak c then false else if c = '"' then ! isOpen
  else isOpen) isOpen

variable {isOpen : Bool} {c : Char} {text more : List Char}

theorem quoteOpen_append (isOpen : Bool) (text more : List Char) :
    quoteOpen isOpen (text ++ more) = quoteOpen (quoteOpen isOpen text) more := List.foldl_append

theorem quoteOpen_quote (isOpen : Bool) (rest : List Char) :
    quoteOpen isOpen ('"' :: rest) = quoteOpen (! isOpen) rest := rfl

theorem quoteOpen_break (hc : isBreak c = true) (isOpen : Bool) (rest : List Char) :
    quoteOpen isOpen (c :: rest) = quoteOpen false rest := by
  simp [quoteOpen, hc]

theorem quoteOpen_cons (hquote : c ≠ '"') (hbreak : isBreak c = false) (isOpen : Bool)
    (rest : List Char) : quoteOpen isOpen (c :: rest) = quoteOpen isOpen rest := by
  simp [quoteOpen, hquote, hbreak]

/-- Without a quote no string is opened. -/
theorem quoteOpen_of_notMem (h : '"' ∉ text) : quoteOpen false text = false := by
  induction text with
  | nil => rfl
  | cons c rest ih =>
    simp only [List.mem_cons, not_or] at h
    cases hc : isBreak c with
    | true => rw [quoteOpen_break hc, ih h.2]
    | false => rw [quoteOpen_cons (Ne.symm h.1) hc, ih h.2]

/-- After a line break no string is open. -/
theorem quoteOpen_of_getLast (h : text.getLast?.any isBreak = true) :
    quoteOpen isOpen text = false := by
  obtain ⟨c, hlast, hc⟩ := (Option.any_eq_true _ _).mp h
  obtain ⟨before, rfl⟩ := List.getLast?_eq_some_iff.mp hlast
  rw [quoteOpen_append, quoteOpen_break hc]
  rfl

/-- At its closing quote a string is closed. -/
theorem quoteOpen_take_quotedBody {found : List Char × Nat} (h : quotedBody text = some found) :
    quoteOpen true (text.take found.2) = false := by
  fun_induction quotedBody text generalizing found with
  | case1 => contradiction
  | case2 rest ih =>
    obtain ⟨inner, hinner, rfl⟩ := Option.map_eq_some_iff.mp h
    exact ih hinner
  | case3 rest =>
    cases h
    rfl
  | case4 => contradiction
  | case5 c rest _ hquote hbreak ih =>
    obtain ⟨inner, hinner, rfl⟩ := Option.map_eq_some_iff.mp h
    rw [List.take_succ_cons, quoteOpen_cons hquote (by simpa using hbreak), ih hinner]

/-- A string that ends after the text is open at its end. -/
theorem quoteOpen_of_lt {found : List Char × Nat} (hmore : more.head? ≠ some '"')
    (h : quotedBody (text ++ more) = some found) (hlt : text.length < found.2) :
    quoteOpen true text = true := by
  fun_induction quotedBody text generalizing found with
  | case1 => rfl
  | case2 rest ih =>
    rw [List.cons_append, List.cons_append, quotedBody] at h
    obtain ⟨inner, hinner, rfl⟩ := Option.map_eq_some_iff.mp h
    exact ih hinner (by simpa using hlt)
  | case3 rest hquote =>
    have hhead : (rest ++ more).head? ≠ some '"' := by
      cases rest with
      | nil => exact hmore
      | cons c rest =>
        intro hc
        obtain rfl : c = '"' := by simpa using hc
        exact hquote rest rfl
    rw [List.cons_append, quotedBody_quote hhead] at h
    cases h
    simp at hlt
  | case4 c rest _ _ hbreak =>
    rw [List.cons_append, quotedBody_break hbreak] at h
    contradiction
  | case5 c rest _ hquote hbreak ih =>
    rw [List.cons_append, quotedBody_cons hquote hbreak] at h
    obtain ⟨inner, hinner, rfl⟩ := Option.map_eq_some_iff.mp h
    rw [quoteOpen_cons hquote (by simpa using hbreak)]
    exact ih hinner (by simpa using hlt)

/-- A text at whose end the string is closed holds the whole string. -/
theorem quotedBody_append_of_closed (hmore : more.head? ≠ some '"')
    (hclosed : quoteOpen true text = false) : quotedBody (text ++ more) = quotedBody text := by
  cases h : quotedBody (text ++ more) with
  | some found =>
    by_cases hle : found.2 ≤ text.length
    · rw [quotedBody_of_append h hle]
    · rw [quoteOpen_of_lt hmore h (by omega)] at hclosed
      contradiction
  | none =>
    cases htext : quotedBody text with
    | none => rfl
    | some found => rw [quotedBody_append_of_some hmore htext] at h; contradiction

/-! ## Tokens without quotes -/

theorem notMem_of_all {p : Char → Bool} (hc : p c = false) (h : ∀ d ∈ text, p d = true) :
    c ∉ text := by
  intro hmem
  rw [h c hmem] at hc
  contradiction

theorem quote_notMem_blanks (afterBlank : Bool) (text : List Char) :
    '"' ∉ text.take (blankWidth afterBlank text) := by
  fun_induction blankWidth afterBlank text with
  | case1 => simp
  | case2 afterBlank c rest hc ih =>
    rw [Nat.add_comm, List.take_succ_cons, List.mem_cons, not_or]
    exact ⟨by rintro rfl; contradiction, ih⟩
  | case3 afterBlank c rest _ hu n hn ih =>
    simp only [Bool.and_eq_true, decide_eq_true_eq] at hu
    obtain ⟨hne, rfl⟩ := continuationWidth_eq_some_iff.mp hn
    rw [Nat.add_assoc, Nat.add_comm 1, List.take_succ_cons, List.mem_cons, not_or,
      hu.2, List.take_add, List.take_add, take_length_takeWhile, List.mem_append,
      List.mem_append, not_or, not_or]
    refine ⟨by decide, ⟨notMem_of_all (p := isBlank) rfl fun _ => of_mem_takeWhile, ?_⟩, ih⟩
    rcases isLineBreak_take_breakWidth hne with h | h | h <;> rw [h] <;> decide
  | case4 => simp
  | case5 => simp

theorem quote_notMem_number {found : Literal × Nat} (h : readNumber text = some found) :
    '"' ∉ text.take found.2 := by
  intro hmem
  obtain ⟨s, t, hst⟩ := List.append_of_mem hmem
  have htext : text = s ++ '"' :: (t ++ text.drop found.2) := by
    rw [← List.cons_append, ← List.append_assoc, ← hst, List.take_append_drop]
  have hbreaks : BreaksOff ('"' :: (t ++ text.drop found.2)) := .cons (by decide) (by decide) _
  have hle : found.2 ≤ s.length := by
    rw [htext, hbreaks.readNumber_append] at h
    exact length_le_of_readNumber h
  have hlength := congrArg List.length hst
  simp only [List.length_take, List.length_append, List.length_cons] at hlength
  omega

theorem quote_notMem_word (text : List Char) : '"' ∉ text.takeWhile isWordChar :=
  notMem_of_all (p := isWordChar) rfl fun _ => of_mem_takeWhile

/-- The letters of a keyword are the first word of the text. -/
theorem take_letters {k : Keyword} (h : spells k text = true) :
    text.take k.letters.length = text.takeWhile isWordChar := by
  rw [length_eq_of_sameLetters h]
  exact (List.prefix_iff_eq_take.mp (List.takeWhile_prefix isWordChar)).symm

end VisualBasic
