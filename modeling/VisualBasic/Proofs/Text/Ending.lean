import VisualBasic.Proofs.Text.Stop

/-!
# Texts that end with a line

Nothing that is read from a text with a line feed at its end depends on what follows the text, since
every run of characters stops at the line feed. Only a line continuation would go on past it.
-/

set_option autoImplicit false

namespace VisualBasic

def EndsWithLine (text : List Char) : Prop := text.getLast? = some '\n'

/-- The last line of a text goes on after it: the line ends in a blank, an underscore and perhaps
more blanks. -/
def EndsInContinuation (text : List Char) : Prop :=
  ∃ before blank blanks ending, text = before ++ blank :: '_' :: (blanks ++ ending) ∧
    isBlank blank = true ∧ (∀ c ∈ blanks, isBlank c = true) ∧
      (ending = ['\n'] ∨ ending = ['\r', '\n'])

namespace EndsWithLine

variable {text more : List Char} {c : Char} {p : Char → Bool}

theorem ne_nil (h : EndsWithLine text) : text ≠ [] := by
  rintro rfl
  contradiction

theorem tail (h : EndsWithLine (c :: text)) (hc : c ≠ '\n') : EndsWithLine text := by
  cases text with
  | nil => exact absurd (Option.some.inj h) hc
  | cons d rest => simpa [EndsWithLine, List.getLast?_cons_cons] using h

theorem drop (h : EndsWithLine text) {n : Nat} (hn : n < text.length) :
    EndsWithLine (text.drop n) := by
  unfold EndsWithLine at *
  rw [List.getLast?_drop, if_neg (by omega), h]

theorem head?_append (h : EndsWithLine text) (more : List Char) :
    (text ++ more).head? = text.head? := by
  cases text with
  | nil => exact absurd rfl h.ne_nil
  | cons => rfl

/-- A run of characters other than line feeds ends before the end of the text. -/
theorem length_takeWhile_lt (h : EndsWithLine text) (hp : p '\n' = false) :
    (text.takeWhile p).length < text.length := by
  induction text with
  | nil => exact absurd rfl h.ne_nil
  | cons c rest ih =>
    cases hc : p c with
    | false => simp [hc]
    | true =>
      have hne : c ≠ '\n' := by
        rintro rfl
        simp [hp] at hc
      simpa [hc] using ih (h.tail hne)

theorem takeWhile_append (h : EndsWithLine text) (hp : p '\n' = false) (more : List Char) :
    (text ++ more).takeWhile p = text.takeWhile p := by
  induction text with
  | nil => exact absurd rfl h.ne_nil
  | cons c rest ih =>
    cases hc : p c with
    | false => simp [hc]
    | true =>
      have hne : c ≠ '\n' := by
        rintro rfl
        simp [hp] at hc
      simp [hc, ih (h.tail hne)]

theorem drop_takeWhile (h : EndsWithLine text) (hp : p '\n' = false) :
    EndsWithLine (text.drop (text.takeWhile p).length) := h.drop (h.length_takeWhile_lt hp)

theorem drop_takeWhile_append (h : EndsWithLine text) (hp : p '\n' = false) (more : List Char) :
    (text ++ more).drop (text.takeWhile p).length =
      text.drop (text.takeWhile p).length ++ more :=
  List.drop_append_of_le_length (Nat.le_of_lt (h.length_takeWhile_lt hp))

/-! ## Blanks and breaks -/

theorem breakWidth_append (h : EndsWithLine text) (more : List Char) :
    breakWidth (text ++ more) = breakWidth text := by
  match text, h with
  | [c], h =>
    obtain rfl : c = '\n' := Option.some.inj h
    rfl
  | c :: d :: rest, _ =>
    by_cases hc : c = '\r'
    · subst hc
      by_cases hd : d = '\n'
      · subst hd
        rfl
      · simp [breakWidth, hd]
    · by_cases hc' : c = '\n'
      · subst hc'
        rfl
      · simp [breakWidth, hc, hc']

theorem continuationWidth_append (h : EndsWithLine text) (more : List Char) :
    continuationWidth (text ++ more) = continuationWidth text := by
  simp only [continuationWidth, h.takeWhile_append (p := isBlank) rfl,
    h.drop_takeWhile_append (p := isBlank) rfl,
    (h.drop_takeWhile (p := isBlank) rfl).breakWidth_append]

theorem blankWidth_append {afterBlank : Bool} (h : EndsWithLine text)
    (hlt : blankWidth afterBlank text < text.length) (more : List Char) :
    blankWidth afterBlank (text ++ more) = blankWidth afterBlank text := by
  fun_induction blankWidth afterBlank text with
  | case1 => exact absurd rfl h.ne_nil
  | case2 afterBlank c rest hc ih =>
    have hne : c ≠ '\n' := by
      rintro rfl
      contradiction
    rw [List.cons_append, blankWidth_blank hc, ih (h.tail hne) (by simp at hlt; omega),
      Nat.add_comm]
  | case3 afterBlank c rest hc hu n hn ih =>
    simp only [Bool.and_eq_true, decide_eq_true_eq] at hu
    obtain ⟨rfl, rfl⟩ := hu
    have hrest : EndsWithLine rest := h.tail (by decide)
    have hdrop : n + blankWidth false (rest.drop n) < rest.length := by
      simp at hlt
      omega
    rw [List.cons_append, blankWidth_continuation ((hrest.continuationWidth_append more).trans hn),
      List.drop_append_of_le_length (by omega), ih (hrest.drop (by omega)) (by simp; omega)]
    omega
  | case4 afterBlank c rest hc hu hn =>
    simp only [Bool.and_eq_true, decide_eq_true_eq] at hu
    obtain ⟨rfl, rfl⟩ := hu
    have hrest : EndsWithLine rest := h.tail (by decide)
    exact blankWidth_cons_eq_zero (by simpa using hc) fun _ _ =>
      (hrest.continuationWidth_append more).trans hn
  | case5 afterBlank c rest hc hu =>
    refine blankWidth_cons_eq_zero (by simpa using hc) fun ha hunderscore => ?_
    simp [ha, hunderscore] at hu

/-- A text that is one line break. -/
theorem eq_break (h : EndsWithLine text) (hw : breakWidth text = text.length) :
    text = ['\n'] ∨ text = ['\r', '\n'] := by
  match text, h with
  | [c], h =>
    obtain rfl : c = '\n' := Option.some.inj h
    exact .inl rfl
  | c :: d :: rest, h =>
    unfold breakWidth at hw
    split at hw
    · rename_i heq
      cases heq
      obtain rfl : rest = [] := by simpa using hw.symm
      exact .inr rfl
    all_goals simp at hw

end EndsWithLine

/-- The blanks at a place do not reach the end of the text unless its last line is continued. -/
theorem endsInContinuation_of_blankWidth {afterBlank : Bool} {before text : List Char}
    (hb : afterBlank = before.getLast?.any isBlank) (h : EndsWithLine text)
    (hw : blankWidth afterBlank text = text.length) : EndsInContinuation (before ++ text) := by
  fun_induction blankWidth afterBlank text generalizing before with
  | case1 => exact absurd rfl h.ne_nil
  | case2 afterBlank c rest hc ih =>
    have hne : c ≠ '\n' := by
      rintro rfl
      contradiction
    have hblank : true = (before ++ [c]).getLast?.any isBlank := by simp [hc]
    have := ih hblank (h.tail hne) (by simp at hw; omega)
    simpa using this
  | case3 afterBlank c rest hc hu n hn ih =>
    simp only [Bool.and_eq_true, decide_eq_true_eq] at hu
    obtain ⟨rfl, rfl⟩ := hu
    have hrest : EndsWithLine rest := h.tail (by decide)
    have hwidth : n + blankWidth false (rest.drop n) = rest.length := by
      simp at hw
      omega
    by_cases hlast : n = rest.length
    · obtain ⟨hne, hlength⟩ := continuationWidth_eq_some_iff.mp hn
      have hending := hrest.drop_takeWhile (p := isBlank) rfl
      have hbreak : breakWidth (rest.drop (rest.takeWhile isBlank).length) =
          (rest.drop (rest.takeWhile isBlank).length).length := by
        simp only [List.length_drop]
        omega
      obtain ⟨blank, hl, hblank⟩ := (Option.any_eq_true _ _).mp hb.symm
      obtain ⟨init, rfl⟩ := List.getLast?_eq_some_iff.mp hl
      refine ⟨init, blank, rest.takeWhile isBlank, rest.drop (rest.takeWhile isBlank).length, ?_,
        hblank, fun c hc => of_mem_takeWhile hc, hending.eq_break hbreak⟩
      rw [drop_length_takeWhile, List.takeWhile_append_dropWhile]
      simp
    · have hblank : false = (before ++ '_' :: rest.take n).getLast?.any isBlank := by
        simpa using (any_isBlank_getLast?_take_continuationWidth hn (before ++ ['_'])).symm
      have := ih hblank (hrest.drop (by omega)) (by simp; omega)
      simpa using this
  | case4 => simp at hw
  | case5 => simp at hw

/-! ## Words and strings -/

namespace EndsWithLine

variable {text more : List Char} {c : Char}

theorem startsWithLetters_append {letters : List Char} (hl : ∀ c ∈ letters, c.isAlpha = true)
    (h : EndsWithLine text) (more : List Char) :
    startsWithLetters letters (text ++ more) = startsWithLetters letters text := by
  induction letters generalizing text with
  | nil => rfl
  | cons a letters ih =>
    cases text with
    | nil => exact absurd rfl h.ne_nil
    | cons c rest =>
      by_cases hc : c = '\n'
      · have ha : a.toLower ≠ '\n' := by
          intro he
          have := hl a List.mem_cons_self
          rw [← isAlpha_toLower, he] at this
          contradiction
        subst hc
        have hn : '\n'.toLower = '\n' := rfl
        simp [startsWithLetters, hn, ha]
      · rw [List.cons_append, startsWithLetters, startsWithLetters,
          ih (fun b hb => hl b (List.mem_cons_of_mem a hb)) (h.tail hc)]

theorem isPrefixOf_append {token : List Char} (ht : '\n' ∉ token) (h : EndsWithLine text)
    (more : List Char) : token.isPrefixOf (text ++ more) = token.isPrefixOf text := by
  induction token generalizing text with
  | nil => rfl
  | cons a token ih =>
    simp only [List.mem_cons, not_or] at ht
    cases text with
    | nil => exact absurd rfl h.ne_nil
    | cons c rest =>
      by_cases hc : c = '\n'
      · subst hc
        have ha : (a == '\n') = false := by simpa using Ne.symm ht.1
        simp [List.isPrefixOf, ha]
      · simp [List.isPrefixOf, ih ht.2 (h.tail hc)]

/-- A string ends on its line. -/
theorem quotedBody_append (h : EndsWithLine text) (more : List Char) :
    quotedBody (text ++ more) = quotedBody text := by
  fun_induction quotedBody text with
  | case1 => exact absurd rfl h.ne_nil
  | case2 rest ih =>
    have hrest : EndsWithLine rest := (h.tail (by decide)).tail (by decide)
    rw [List.cons_append, List.cons_append, quotedBody, ih hrest]
  | case3 rest hquote =>
    have hrest : EndsWithLine rest := h.tail (by decide)
    cases rest with
    | nil => exact absurd rfl hrest.ne_nil
    | cons d rest =>
      have hd : d ≠ '"' := by
        rintro rfl
        exact hquote rest rfl
      simp [quotedBody, hd]
  | case4 c rest hq hq' hbreak =>
    have hquote : c ≠ '"' := hq'
    simp [quotedBody, hquote, hbreak]
  | case5 c rest hq hq' hbreak ih =>
    have hc : c ≠ '\n' := by
      rintro rfl
      contradiction
    have hquote : c ≠ '"' := hq'
    simp [quotedBody, hquote, hbreak, ih (h.tail hc)]

/-- A number ends on its line. -/
theorem readNumber_append (h : EndsWithLine text) (more : List Char) :
    readNumber (text ++ more) = readNumber text := by
  obtain ⟨before, rfl⟩ := List.getLast?_eq_some_iff.mp h
  have hline (rest : List Char) : BreaksOff ('\n' :: rest) := .cons (by decide) (by decide) rest
  rw [List.append_assoc, List.singleton_append, (hline _).readNumber_append,
    (hline _).readNumber_append]

end EndsWithLine

end VisualBasic
