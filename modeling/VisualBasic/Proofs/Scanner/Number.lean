import VisualBasic.Proofs.Scanner.Token
import VisualBasic.Scanner.Number

/-!
# What is scanned of a number

Part by part the scanner of numbers passes over what the reader of numbers divides the text into,
and last over the suffix.
-/

set_option autoImplicit false

namespace VisualBasic

namespace Scanner

variable {c : Cursor}

@[simp] theorem run_sign (c : Cursor) :
    sign.run c = ⟨(splitSign c.rest).1, c.skip (splitSign c.rest).1.length, []⟩ := by
  simp only [sign, splitSign, run_bind, run_peekChar, Scanned.mk_andThen, Scanned.after_nil]
  rcases c.rest with _ | ⟨first, rest⟩
  · rfl
  · by_cases hminus : first = '-'
    · subst hminus
      rfl
    · by_cases hplus : first = '+'
      · subst hplus
        rfl
      · simp [hminus, hplus]

theorem rest_splitSign (text : List Char) :
    (splitSign text).2 = text.drop (splitSign text).1.length := by
  unfold splitSign
  split <;> rfl

@[simp] theorem run_digits (isDigit : Char → Bool) (c : Cursor) :
    (digits isDigit).run c =
    ⟨c.rest.takeWhile isDigit, c.skip (c.rest.takeWhile isDigit).length, []⟩ := by
  have hpassed := run_passedSince (c := c) (List.takeWhile_prefix isDigit).length_le
  simp [digits, hpassed]

@[simp] theorem run_fraction (c : Cursor) :
    fraction.run c = ⟨(splitFraction c.rest).1, c.skip (splitFraction c.rest).1.length, []⟩ := by
  simp only [fraction, run_bind, run_rest, run_if, run_bump, run_digits, run_pure, Cursor.rest_next,
    Scanned.mk_andThen, Scanned.after_nil]
  rcases c.rest with _ | ⟨first, rest⟩
  · rfl
  · by_cases hpoint : first = '.'
    · subst hpoint
      cases rest with
      | nil => rfl
      | cons second rest => by_cases hdigit : second.isDigit = true <;> simp [splitFraction, hdigit]
    · simp [splitFraction, hpoint]

theorem rest_splitFraction (text : List Char) :
    (splitFraction text).2 = text.drop (splitFraction text).1.length := by
  unfold splitFraction
  split
  · dsimp only
    split <;> simp
  · rfl

@[simp] theorem run_exponent (c : Cursor) :
    exponent.run c = ⟨(splitExponent c.rest).1, c.skip (splitExponent c.rest).1.length, []⟩ := by
  simp only [exponent, run_bind, run_peekChar, Scanned.mk_andThen, Scanned.after_nil]
  cases hrest : c.rest with
  | nil => rfl
  | cons mark rest =>
    by_cases hmark : (mark = 'e' || mark = 'E') = true
    · have hunsigned : (splitSign rest).2 = rest.drop (splitSign rest).1.length :=
        rest_splitSign rest
      simp only [splitExponent, List.head?_cons, hmark, if_true, run_if, run_bind,
        run_place, run_bump, run_sign, run_digits, run_moveTo, run_pure, Scanned.mk_andThen,
        Scanned.after_nil,
        Cursor.rest_next, Cursor.rest_skip, hrest, List.drop_one, List.tail_cons, ← hunsigned]
      generalize (splitSign rest).2.takeWhile Char.isDigit = digits
      cases digits <;> simp [Cursor.skip_add]
    · simp [splitExponent, hmark]

theorem rest_splitExponent (text : List Char) :
    (splitExponent text).2 = text.drop (splitExponent text).1.length := by
  unfold splitExponent
  split
  · rfl
  · split
    · dsimp only
      split
      · rfl
      · rw [rest_splitSign]
        simp [List.drop_drop]
    · rfl

/-- A literal of a given length has been found, or none has; then the cursor may stand anywhere. -/
inductive Finds (c : Cursor) : Option (Literal × Nat) → Scanned (Option Literal) → Prop
  | some (literal : Literal) (n : Nat) : Finds c (some (literal, n)) ⟨some literal, c.skip n, []⟩
  | none (d : Cursor) : Finds c none ⟨none, d, []⟩

theorem finds_map {value : Option Literal} {d : Cursor} {n : Nat} (h : d = c.skip n) :
    Finds c (value.map (·, n)) ⟨value, d, []⟩ := by
  cases value with
  | none => exact .none d
  | some literal =>
    rw [h]
    exact .some literal n

theorem finds_suffixed (n : Numeral) (c : Cursor) :
    Finds c (n.literal? c.rest) ((suffixed n).run c) := by
  have hplain (literal : Literal) : Finds c (some (literal, 0)) ⟨some literal, c, []⟩ :=
    .some literal 0
  have hbump (value : Option Literal) : Finds c (value.map (·, 1)) ⟨value, c.next, []⟩ :=
    finds_map rfl
  simp only [suffixed, Numeral.literal?, run_bind, run_peekChar, Scanned.mk_andThen,
    Scanned.after_nil]
  cases c.rest.head? with
  | none => by_cases hreal : n.isReal = true <;> simp [hreal, hplain]
  | some suffix =>
    by_cases hsingle : suffix = '!'
    · subst hsingle
      exact hbump (some n.toSingle)
    · by_cases hdouble : suffix = '#'
      · subst hdouble
        exact hbump (some n.toDouble)
      · by_cases hreal : n.isReal = true
        · simp [hsingle, hdouble, hreal, hplain]
        · by_cases hinteger : suffix = '%'
          · simp [hinteger, hreal, hbump]
          · by_cases hlong : suffix = '&' <;>
              simp [hsingle, hdouble, hreal, hinteger, hlong, hbump, hplain]

theorem finds_suffixedBits (radix : Radix) (isNegative : Bool) {bits : Nat}
    (h : bits < 4294967296) (c : Cursor) :
    Finds c (radix.literal? isNegative bits c.rest)
      ((suffixedBits radix isNegative bits).run c) := by
  have hplain (literal : Literal) : Finds c (some (literal, 0)) ⟨some literal, c, []⟩ :=
    .some literal 0
  have hbump (literal : Literal) : Finds c (some (literal, 1)) ⟨some literal, c.next, []⟩ :=
    .some literal 1
  have hnone : Finds c none ⟨none, c.next, []⟩ := .none _
  simp only [suffixedBits, Radix.literal?, run_bind, run_peekChar, Scanned.mk_andThen,
    Scanned.after_nil, if_neg (Nat.not_le.mpr h)]
  cases c.rest.head? with
  | none => by_cases hwide : 65536 ≤ bits <;> simp [hwide, hplain]
  | some suffix =>
    by_cases hlong : suffix = '&'
    · subst hlong
      exact hbump _
    · by_cases hinteger : suffix = '%' <;> by_cases hwide : 65536 ≤ bits <;>
        simp [hlong, hinteger, hwide, hplain, hbump, hnone]

/-- What is found after some characters have been passed over. -/
theorem Finds.skip {found : Option (Literal × Nat)} {scanned : Scanned (Option Literal)} {n : Nat}
    (h : Finds (c.skip n) found scanned) :
    Finds c (found.map fun pair => (pair.1, n + pair.2)) scanned := by
  cases h with
  | none d => exact .none d
  | some literal m =>
    rw [← Cursor.skip_add]
    exact .some literal (n + m)

theorem finds_radixNumber {body : List Char} (hrest : c.rest = '&' :: body) (isNegative : Bool) :
    Finds c ((VisualBasic.radixNumber isNegative body).map fun found => (found.1, 1 + found.2))
      ((radixNumber isNegative).run c) := by
  have hnext : c.next.rest = body := by rw [Cursor.rest_next, hrest]; rfl
  simp only [radixNumber, run_bind, run_bump, run_peekChar, hnext, Scanned.mk_andThen,
    Scanned.after_nil]
  cases body with
  | nil => exact .none _
  | cons mark text =>
    rw [VisualBasic.radixNumber, List.head?_cons, Option.bind_some]
    cases radixOfMark mark with
    | none => exact .none _
    | some radix =>
      have hdigits : c.next.next.rest = text := by rw [Cursor.rest_next, hnext]; rfl
      simp only [run_bind, run_bump, run_digits, hdigits, Scanned.mk_andThen,
        Scanned.after_nil, run_if, Option.bind_some]
      by_cases hempty : (text.takeWhile radix.isDigit).isEmpty = true
      · simp only [if_pos hempty]
        exact .none _
      · simp only [if_neg hempty]
        by_cases hlarge : 4294967296 ≤ digitsValue radix.base (text.takeWhile radix.isDigit)
        · simp only [if_pos hlarge, Radix.literal?]
          exact .none _
        · rw [if_neg hlarge]
          have hlength (n : Nat) : 1 + (1 + (text.takeWhile radix.isDigit).length + n) =
              2 + (text.takeWhile radix.isDigit).length + n := by omega
          have hend : c.next.next.skip (text.takeWhile radix.isDigit).length =
              c.skip (2 + (text.takeWhile radix.isDigit).length) := by rw [Cursor.skip_add]; rfl
          have hafter : (c.skip (2 + (text.takeWhile radix.isDigit).length)).rest =
              text.drop (text.takeWhile radix.isDigit).length := by
                rw [← hend, Cursor.rest_skip, hdigits]
          have hsuffix :=
            (finds_suffixedBits radix isNegative (Nat.not_le.mp hlarge) _).skip (c := c)
            (n := 2 + (text.takeWhile radix.isDigit).length)
          rw [hafter] at hsuffix
          simpa only [hend, Option.map_map, Function.comp_def, hlength] using hsuffix

/-- The parts of a decimal number from its first digit on, after a sign. -/
theorem finds_decimalNumber {sign unsigned : List Char} {d : Cursor} (hend : d = c.skip sign.length)
    (hrest : d.rest = unsigned) (hsplit : splitSign c.rest = (sign, unsigned)) :
    Finds c ((Numeral.read c.rest).bind fun (numeral, rest) =>
        (numeral.literal? rest).map
          fun (literal, suffix) => (literal, numeral.spelling.length + suffix))
      ((decimalNumber sign).run d) := by
  simp only [decimalNumber, Numeral.read, hsplit, run_bind, run_digits, run_fraction, hrest,
    Cursor.rest_skip, Scanned.mk_andThen, Scanned.after_nil]
  generalize unsigned.takeWhile Char.isDigit = whole
  have hfraction : (splitFraction (unsigned.drop whole.length)).2 =
      ((d.skip whole.length).skip (splitFraction (unsigned.drop whole.length)).1.length).rest := by
    rw [rest_splitFraction, Cursor.rest_skip, Cursor.rest_skip, hrest]
  generalize splitFraction (unsigned.drop whole.length) = split at hfraction ⊢
  obtain ⟨fraction, afterFraction⟩ := split
  dsimp only at hfraction ⊢
  by_cases hempty : (whole.isEmpty && fraction.isEmpty) = true
  · simp only [if_pos hempty, Option.bind_none]
    exact .none _
  · simp only [if_neg hempty, run_bind, run_exponent, ← hfraction, Scanned.mk_andThen,
      Scanned.after_nil, Option.bind_some]
    have hexponent := rest_splitExponent afterFraction
    generalize splitExponent afterFraction = split at hexponent ⊢
    obtain ⟨exponent, afterExponent⟩ := split
    dsimp only at hexponent ⊢
    have hplace : ((d.skip whole.length).skip fraction.length).skip exponent.length =
        c.skip (Numeral.mk sign whole fraction exponent).spelling.length := by
      simp only [hend, Numeral.spelling, List.length_append, Cursor.skip_add]
    have hafter : (c.skip (Numeral.mk sign whole fraction exponent).spelling.length).rest =
        afterExponent := by
      rw [← hplace, Cursor.rest_skip, ← hfraction, hexponent]
    have hsuffix := finds_suffixed ⟨sign, whole, fraction, exponent⟩
      (c.skip (Numeral.mk sign whole fraction exponent).spelling.length)
    rw [hafter] at hsuffix
    rw [hplace]
    exact hsuffix.skip

theorem finds_numberBody (c : Cursor) : Finds c (readNumber c.rest) (numberBody.run c) := by
  have hrest : (c.skip (splitSign c.rest).1.length).rest = (splitSign c.rest).2 := by
    rw [Cursor.rest_skip, rest_splitSign]
  simp only [numberBody, readNumber, run_bind, run_sign, run_peekChar, hrest, run_if,
    Scanned.mk_andThen, Scanned.after_nil]
  have hdecimal := finds_decimalNumber (c := c) rfl hrest rfl
  by_cases hmark : (splitSign c.rest).2.head? = some '&'
  · obtain ⟨body, hbody⟩ := List.head?_eq_some_iff.mp hmark
    have hradix := (finds_radixNumber (hrest.trans hbody) ((splitSign c.rest).1 = ['-'])).skip
    rw [if_pos hmark]
    generalize splitSign c.rest = split at hbody hradix ⊢
    obtain ⟨sign, unsigned⟩ := split
    dsimp only at hbody
    subst hbody
    simpa only [Option.map_map, Function.comp_def, Nat.add_assoc] using hradix
  · rw [if_neg hmark]
    generalize splitSign c.rest = split at hmark hdecimal ⊢
    obtain ⟨sign, unsigned⟩ := split
    split
    · rename_i hsplit
      cases hsplit
      exact absurd rfl hmark
    · exact hdecimal

@[simp] theorem run_number (c : Cursor) : number.run c = .taken c.number c := by
  have hbody := finds_numberBody c.skipBlanks
  simp only [number, Cursor.number, run_bind, run_place, run_skipBlanks, Scanned.mk_andThen,
    Scanned.after_nil]
  generalize readNumber c.skipBlanks.rest = found at hbody ⊢
  generalize numberBody.run c.skipBlanks = scanned at hbody ⊢
  cases hbody with
  | none d => simp [Scanned.taken]
  | some literal n =>
    have hhead : (c.skipBlanks.skip n).rest.head?.any isWordChar =
      (c.skipBlanks.skip n).isAtWordChar := rfl
    simp only [run_bind, run_peekChar, Scanned.mk_andThen, Scanned.after_nil, run_if,
      Option.isNone_some, Bool.false_or, Option.bind_some, hhead]
    cases (c.skipBlanks.skip n).isAtWordChar <;> rfl

end Scanner

end VisualBasic
