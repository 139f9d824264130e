import VisualBasic.Proofs.Cursor.Token

/-!
# Where words and numbers stop

What is read as a word or a number at the start of a text does not depend on what follows the text,
as long as neither goes on there.
-/

set_option autoImplicit false

namespace VisualBasic

/-- Neither a word nor a number goes on with the text. -/
structure BreaksOff (text : List Char) : Prop where
  head : text.head?.any isJoining = false
  point {rest : List Char} (h : text = '.' :: rest) : rest.head?.any Char.isDigit = false

namespace BreaksOff

variable {text more : List Char} (h : BreaksOff more)

theorem cons {c : Char} (hc : isJoining c = false) (hp : c ≠ '.') (rest : List Char) :
    BreaksOff (c :: rest) := ⟨by simpa using hc, fun h => absurd (List.cons.inj h).1 hp⟩

include h

theorem any_eq_false {p : Char → Bool} (hp : ∀ c, p c = true → isJoining c = true) :
    more.head?.any p = false := by
  have hhead := h.head
  cases more with
  | nil => rfl
  | cons c rest =>
    cases hc : p c with
    | false => simp [hc]
    | true => simp [hp c hc] at hhead

theorem word : more.head?.any isWordChar = false :=
  h.any_eq_false fun c hc => by simp [isJoining, hc]

theorem digit (radix : Radix) : more.head?.any radix.isDigit = false := by
  refine h.any_eq_false fun c hc => ?_
  simp [isJoining, isWordChar, Radix.isAlphanum_of_isDigit hc]

theorem takeWhile_isDigit (text : List Char) :
    (text ++ more).takeWhile Char.isDigit = text.takeWhile Char.isDigit :=
  takeWhile_append_of_any (h.digit .decimal) text

theorem ne_suffix {c : Char} (hc : isJoining c = true) : more.head? ≠ some c := by
  intro he
  have hhead := h.head
  rw [he] at hhead
  simp [hc] at hhead

theorem firstWord_append (text : List Char) :
    (text ++ more).takeWhile isWordChar = text.takeWhile isWordChar :=
  takeWhile_append_of_any h.word text

/-! ## Numbers -/

theorem splitSign_append (text : List Char) :
    splitSign (text ++ more) = ((splitSign text).1, (splitSign text).2 ++ more) := by
  cases text with
  | nil =>
    have hplus := h.ne_suffix (c := '+') (by decide)
    have hminus := h.ne_suffix (c := '-') (by decide)
    cases more with
    | nil => rfl
    | cons c more =>
      simp only [List.head?_cons, ne_eq, Option.some.injEq] at hplus hminus
      simp [splitSign, hplus, hminus]
  | cons c text =>
    rw [List.cons_append, splitSign.eq_def, splitSign.eq_def (c :: text)]
    split <;> simp_all

theorem splitFraction_append (text : List Char) :
    splitFraction (text ++ more) = ((splitFraction text).1, (splitFraction text).2 ++ more) := by
  cases text with
  | nil =>
    cases more with
    | nil => rfl
    | cons c more =>
      by_cases hc : c = '.'
      · subst hc
        have hdigits : more.takeWhile Char.isDigit = [] := by
          have := h.point rfl
          cases more <;> simp_all
        simp [splitFraction, hdigits]
      · simp [splitFraction, hc]
  | cons c text =>
    by_cases hc : c = '.'
    · subst hc
      simp only [List.cons_append, splitFraction, h.takeWhile_isDigit]
      split
      · rfl
      · rw [drop_takeWhile_append]
    · simp [splitFraction, hc]

theorem splitExponent_append (text : List Char) :
    splitExponent (text ++ more) = ((splitExponent text).1, (splitExponent text).2 ++ more) := by
  cases text with
  | nil =>
    cases more with
    | nil => rfl
    | cons c more =>
      have hlower := h.ne_suffix (c := 'e') (by decide)
      have hupper := h.ne_suffix (c := 'E') (by decide)
      simp only [List.head?_cons, ne_eq, Option.some.injEq] at hlower hupper
      simp [splitExponent, hlower, hupper]
  | cons c text =>
    rw [List.cons_append, splitExponent, splitExponent]
    split
    · simp only [h.splitSign_append, h.takeWhile_isDigit]
      split
      · rfl
      · rw [drop_takeWhile_append]
    · rfl

theorem readNumeral_append (text : List Char) :
    Numeral.read (text ++ more) =
      (Numeral.read text).map fun found => (found.1, found.2 ++ more) := by
  simp only [Numeral.read, h.splitSign_append, h.takeWhile_isDigit, drop_takeWhile_append,
    h.splitFraction_append, h.splitExponent_append]
  split <;> rfl

theorem literal?_append (n : Numeral) (rest : List Char) :
    n.literal? (rest ++ more) = n.literal? rest := by
  cases rest with
  | cons c rest => rfl
  | nil =>
    have hsingle := h.ne_suffix (c := '!') (by decide)
    have hdouble := h.ne_suffix (c := '#') (by decide)
    have hinteger := h.ne_suffix (c := '%') (by decide)
    have hlong := h.ne_suffix (c := '&') (by decide)
    unfold Numeral.literal?
    simp only [List.nil_append]
    split <;> simp_all

theorem radixLiteral?_append (radix : Radix) (isNegative : Bool) (bits : Nat) (rest : List Char) :
    radix.literal? isNegative bits (rest ++ more) = radix.literal? isNegative bits rest := by
  cases rest with
  | cons c rest => rfl
  | nil =>
    have hinteger := h.ne_suffix (c := '%') (by decide)
    have hlong := h.ne_suffix (c := '&') (by decide)
    unfold Radix.literal?
    simp only [List.nil_append]
    split
    · rfl
    · split <;> simp_all

theorem radixNumber_append (isNegative : Bool) (text : List Char) :
    radixNumber isNegative (text ++ more) = radixNumber isNegative text := by
  cases text with
  | nil =>
    cases more with
    | nil => rfl
    | cons c more =>
      have hmark : radixOfMark c = none := by
        have hne (mark : Char) (hm : isJoining mark = true) : c ≠ mark := by
          rintro rfl
          exact h.ne_suffix hm rfl
        simp [radixOfMark, hne 'H' (by decide), hne 'h' (by decide), hne 'O' (by decide),
          hne 'o' (by decide), hne '0' (by decide)]
      simp [radixNumber, hmark]
  | cons mark body =>
    rw [List.cons_append, radixNumber, radixNumber]
    cases radixOfMark mark with
    | none => rfl
    | some radix =>
      simp only [Option.bind_some, takeWhile_append_of_any (h.digit radix), drop_takeWhile_append,
        h.radixLiteral?_append]

theorem readNumber_append (text : List Char) : readNumber (text ++ more) = readNumber text := by
  rw [readNumber, readNumber, h.splitSign_append, h.readNumeral_append]
  have hplain : ((Numeral.read text).map fun found => (found.1, found.2 ++ more)).bind
      (fun found => (found.1.literal? found.2).map fun literal =>
        (literal.1, found.1.spelling.length + literal.2)) =
      (Numeral.read text).bind fun found => (found.1.literal? found.2).map fun literal =>
        (literal.1, found.1.spelling.length + literal.2) := by
    cases Numeral.read text with
    | none => rfl
    | some found => simp only [Option.map_some, Option.bind_some, h.literal?_append]
  generalize splitSign text = parts
  obtain ⟨sign, unsigned⟩ := parts
  cases unsigned with
  | nil =>
    have hlong := h.ne_suffix (c := '&') (by decide)
    cases more with
    | nil => exact hplain
    | cons c more =>
      simp only [List.head?_cons, ne_eq, Option.some.injEq] at hlong
      simp only [List.nil_append]
      split
      · simp_all
      · exact hplain
  | cons c body =>
    by_cases hc : c = '&'
    · subst hc
      simp only [List.cons_append, h.radixNumber_append]
    · simp only [List.cons_append]
      split
      · simp_all
      · split
        · simp_all
        · exact hplain

end BreaksOff

end VisualBasic
