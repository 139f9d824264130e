import Mathlib.Data.Bool.AllAny
import Mathlib.Data.List.Basic
import VisualBasic.Proofs.Text.Cut

/-!
# Texts up to letter case and kinds of blanks

Folding writes the letters of a text in lower case and its tabs as spaces. Two texts are similar
when they are folded to the same text. Words, numbers and blanks are recognised alike in a text and
in the folded one, since every class of characters that they are made of is one of the folded
characters.
-/

set_option autoImplicit false

namespace VisualBasic

def foldChar (c : Char) : Char := if c = '\t' then ' ' else c.toLower

def fold (text : List Char) : List Char := text.map foldChar

/-- The same characters in the same places, up to the case of letters and to the kind of blanks. -/
def Similar (s t : List Char) : Prop := fold s = fold t

variable {text rest : List Char} {c : Char}

@[simp] theorem fold_nil : fold [] = [] := rfl

@[simp] theorem fold_cons (c : Char) (text : List Char) :
    fold (c :: text) = foldChar c :: fold text :=
  rfl

@[simp] theorem fold_append (s t : List Char) : fold (s ++ t) = fold s ++ fold t := List.map_append

@[simp] theorem length_fold (text : List Char) : (fold text).length = text.length :=
  List.length_map _

@[simp] theorem take_fold (n : Nat) (text : List Char) :
    (fold text).take n = fold (text.take n) := by
  rw [fold, fold, List.map_take]

@[simp] theorem drop_fold (n : Nat) (text : List Char) :
    (fold text).drop n = fold (text.drop n) := by
  rw [fold, fold, List.map_drop]

@[simp] theorem fold_eq_nil_iff : fold text = [] ↔ text = [] := List.map_eq_nil_iff

@[simp] theorem isEmpty_fold (text : List Char) : (fold text).isEmpty = text.isEmpty := by
  cases text <;> rfl

/-! ## Classes of characters -/

def upperLetters : List Char :=
  ['A', 'B', 'C', 'D', 'E', 'F', 'G', 'H', 'I', 'J', 'K', 'L', 'M', 'N', 'O', 'P', 'Q',
    'R', 'S', 'T', 'U', 'V', 'W', 'X', 'Y', 'Z']

theorem mem_upperLetters (h : c.isUpper = true) : c ∈ upperLetters := by
  delta Char.isUpper at h
  simp only [decide_eq_true_eq, UInt32.le_iff_toNat_le, ge_iff_le] at h
  have hlow : 65 ≤ c.toNat := h.1
  have hhigh : c.toNat ≤ 90 := h.2
  have hall : ∀ n < 26, Char.ofNat (n + 65) ∈ upperLetters := by decide
  have hc := hall (c.toNat - 65) (by omega)
  rwa [Nat.sub_add_cancel hlow, Char.ofNat_toNat] at hc

theorem toLower_eq_self (h : c.isUpper = false) : c.toLower = c := by
  unfold Char.toLower
  rw [dif_neg]
  delta Char.isUpper at h
  simpa using h

/-- A property of characters that does not tell the case of letters or the kind of blanks. -/
theorem of_foldChar {α : Type} (f : Char → α) (hblank : f ' ' = f '\t')
    (hletter : upperLetters.map (fun c => f c.toLower) = upperLetters.map f) (c : Char) :
    f (foldChar c) = f c := by
  unfold foldChar
  split
  · rename_i htab
    rw [htab, hblank]
  · cases hupper : c.isUpper with
    | true => exact List.map_inj_left.mp hletter c (mem_upperLetters hupper)
    | false => rw [toLower_eq_self hupper]

@[simp] theorem utf8Size_foldChar (c : Char) : (foldChar c).utf8Size = c.utf8Size :=
  of_foldChar _ rfl (by decide) c

@[simp] theorem isBlank_foldChar (c : Char) : isBlank (foldChar c) = isBlank c :=
  of_foldChar _ rfl (by decide) c

@[simp] theorem isBreak_foldChar (c : Char) : isBreak (foldChar c) = isBreak c :=
  of_foldChar _ rfl (by decide) c

@[simp] theorem isWordChar_foldChar (c : Char) : isWordChar (foldChar c) = isWordChar c :=
  of_foldChar _ rfl (by decide) c

@[simp] theorem isWordStart_foldChar (c : Char) : isWordStart (foldChar c) = isWordStart c :=
  of_foldChar _ rfl (by decide) c

@[simp] theorem isDigit_foldChar (radix : Radix) (c : Char) :
    radix.isDigit (foldChar c) = radix.isDigit c := by
  cases radix <;> exact of_foldChar _ (by decide) (by decide) c

@[simp] theorem radixOfMark_foldChar (c : Char) : radixOfMark (foldChar c) = radixOfMark c :=
  of_foldChar _ (by decide) (by decide) c

/-- A character that is neither a letter nor a blank is met in the folded text where it is met. -/
theorem foldChar_eq_iff {char : Char} (h : char.isAlpha = false ∧ isBlank char = false) :
    foldChar c = char ↔ c = char := by
  have hdecide := of_foldChar (fun c => decide (c = char)) ?_ ?_ c
  · simpa using hdecide
  · have hspace : ' ' ≠ char := by rintro rfl; simp [isBlank] at h
    have htab : '\t' ≠ char := by rintro rfl; simp [isBlank] at h
    simp [hspace, htab]
  · refine List.map_congr_left fun c hc => ?_
    have halpha : ∀ c ∈ upperLetters, c.isAlpha = true ∧ c.toLower.isAlpha = true :=
      List.all_iff_forall_prop.mp (by decide)
    obtain ⟨hc, hc'⟩ := halpha c hc
    have hne : c ≠ char := by rintro rfl; rw [hc] at h; simp at h
    have hne' : c.toLower ≠ char := by rintro rfl; rw [hc'] at h; simp at h
    simp [hne, hne']

theorem foldChar_of_isWordChar (h : isWordChar c = true) : foldChar c = c.toLower := by
  have htab : c ≠ '\t' := by
    rintro rfl
    contradiction
  rw [foldChar, if_neg htab]

theorem byteLength_fold (text : List Char) : byteLength (fold text) = byteLength text := by
  induction text with
  | nil => rfl
  | cons c text ih => simp [ih]

/-! ## Runs of characters -/

theorem takeWhile_fold {p : Char → Bool} (hp : ∀ c, p (foldChar c) = p c) (text : List Char) :
    (fold text).takeWhile p = fold (text.takeWhile p) := by
  rw [fold, fold, List.takeWhile_map]
  congr 2
  funext c
  exact hp c

theorem any_head?_fold {p : Char → Bool} (hp : ∀ c, p (foldChar c) = p c) (text : List Char) :
    (fold text).head?.any p = text.head?.any p := by
  cases text <;> simp [hp]

theorem head?_fold_eq_iff {char : Char} (h : char.isAlpha = false ∧ isBlank char = false)
    (text : List Char) : (fold text).head? = some char ↔ text.head? = some char := by
  cases text with
  | nil => simp
  | cons c text => simp [foldChar_eq_iff h]

theorem firstWord_fold (text : List Char) : firstWord (fold text) = fold (firstWord text) :=
  takeWhile_fold isWordChar_foldChar text

theorem toLower_foldChar (h : isWordChar c = true) : (foldChar c).toLower = c.toLower := by
  have hfold := of_foldChar (fun c => bif isWordChar c then c.toLower else ' ') rfl (by decide) c
  simpa [h] using hfold

theorem map_toLower_fold (h : ∀ c ∈ text, isWordChar c = true) :
    (fold text).map Char.toLower = text.map Char.toLower := by
  rw [fold, List.map_map]
  exact List.map_congr_left fun c hc => toLower_foldChar (h c hc)

theorem sameLetters_fold (h : ∀ c ∈ text, isWordChar c = true) (letters : List Char) :
    sameLetters letters (fold text) = sameLetters letters text := by
  rw [Bool.eq_iff_iff, sameLetters_iff, sameLetters_iff, map_toLower_fold h]

@[simp] theorem spells_fold (k : Keyword) (text : List Char) :
    spells k (fold text) = spells k text := by
  have hword : ∀ c ∈ firstWord text, isWordChar c = true := fun c hc => of_mem_takeWhile hc
  rw [spells, spells, firstWord_fold, sameLetters_fold hword]

theorem isPrefixOf_fold {token : List Char}
    (h : ∀ c ∈ token, c.isAlpha = false ∧ isBlank c = false) (text : List Char) :
    token.isPrefixOf (fold text) = token.isPrefixOf text := by
  induction token generalizing text with
  | nil => simp [List.isPrefixOf]
  | cons a token ih =>
    cases text with
    | nil => rfl
    | cons c text =>
      have ha : (a == foldChar c) = (a == c) := by
        rw [Bool.eq_iff_iff, beq_iff_eq, beq_iff_eq, eq_comm,
          foldChar_eq_iff (h a (by simp)), eq_comm]
      simp [List.isPrefixOf, ha, ih fun b hb => h b (List.mem_cons_of_mem a hb)]

/-! ## Blanks and breaks -/

@[simp] theorem breakWidth_fold (text : List Char) : breakWidth (fold text) = breakWidth text := by
  have hcr : ('\r' : Char).isAlpha = false ∧ isBlank '\r' = false := by decide
  have hlf : ('\n' : Char).isAlpha = false ∧ isBlank '\n' = false := by decide
  cases text with
  | nil => rfl
  | cons c text =>
    by_cases hc : c = '\r'
    · subst hc
      cases text with
      | nil => rfl
      | cons d text =>
        by_cases hd : d = '\n'
        · subst hd
          rfl
        · have hd' : foldChar d ≠ '\n' := mt (foldChar_eq_iff hlf).mp hd
          have hfold : foldChar '\r' = '\r' := rfl
          simp [breakWidth, hd, hd', hfold]
    · have hc' : foldChar c ≠ '\r' := mt (foldChar_eq_iff hcr).mp hc
      by_cases hn : c = '\n'
      · subst hn
        rfl
      · have hn' : foldChar c ≠ '\n' := mt (foldChar_eq_iff hlf).mp hn
        simp [breakWidth, hc, hc', hn, hn']

@[simp] theorem continuationWidth_fold (text : List Char) :
    continuationWidth (fold text) = continuationWidth text := by
  simp only [continuationWidth, takeWhile_fold isBlank_foldChar, length_fold, drop_fold,
    breakWidth_fold]

@[simp] theorem blankWidth_fold (afterBlank : Bool) (text : List Char) :
    blankWidth afterBlank (fold text) = blankWidth afterBlank text := by
  have hu : ('_' : Char).isAlpha = false ∧ isBlank '_' = false := by decide
  fun_induction blankWidth afterBlank text with
  | case1 => rw [fold_nil, blankWidth]
  | case2 afterBlank c rest hc ih =>
    rw [fold_cons, blankWidth_blank (by simpa using hc), ih, Nat.add_comm]
  | case3 afterBlank c rest hc h n hn ih =>
    simp only [Bool.and_eq_true, decide_eq_true_eq] at h
    obtain ⟨rfl, rfl⟩ := h
    have hfold : foldChar '_' = '_' := rfl
    rw [fold_cons, hfold, blankWidth_continuation (by simpa using hn), drop_fold, ih]
    omega
  | case4 afterBlank c rest hc h hn =>
    rw [fold_cons]
    exact blankWidth_cons_eq_zero (by simpa using hc) fun _ _ => by simpa using hn
  | case5 afterBlank c rest hc h =>
    rw [fold_cons]
    refine blankWidth_cons_eq_zero (by simpa using hc) fun ha hc' => ?_
    simp [ha, (foldChar_eq_iff hu).mp hc'] at h

/-! ## Numbers -/

theorem splitSign_fold (text : List Char) :
    splitSign (fold text) = ((splitSign text).1, fold (splitSign text).2) := by
  have hplus : ('+' : Char).isAlpha = false ∧ isBlank '+' = false := by decide
  have hminus : ('-' : Char).isAlpha = false ∧ isBlank '-' = false := by decide
  cases text with
  | nil => rfl
  | cons c text =>
    by_cases hm : c = '-'
    · subst hm
      rfl
    · by_cases hp : c = '+'
      · subst hp
        rfl
      · have hm' : foldChar c ≠ '-' := mt (foldChar_eq_iff hminus).mp hm
        have hp' : foldChar c ≠ '+' := mt (foldChar_eq_iff hplus).mp hp
        simp [splitSign, hm, hp, hm', hp']

theorem takeWhile_isDigit_fold (text : List Char) :
    (fold text).takeWhile Char.isDigit = text.takeWhile Char.isDigit := by
  rw [takeWhile_fold (p := Char.isDigit) (isDigit_foldChar .decimal)]
  have hall : ∀ c ∈ text.takeWhile Char.isDigit, foldChar c = c := by
    intro c hc
    have hdigit := of_mem_takeWhile hc
    have hupper : c.isUpper = false := by
      delta Char.isUpper
      simp only [Char.isDigit, Bool.and_eq_true, decide_eq_true_eq, decide_eq_false_iff_not,
        UInt32.le_iff_toNat_le, ge_iff_le] at hdigit ⊢
      simp at hdigit ⊢
      omega
    rw [foldChar_of_isWordChar (by simp [isWordChar, Char.isAlphanum, hdigit]),
      toLower_eq_self hupper]
  exact (List.map_congr_left hall).trans (List.map_id _)

theorem splitFraction_fold (text : List Char) :
    splitFraction (fold text) = ((splitFraction text).1, fold (splitFraction text).2) := by
  have hpoint : ('.' : Char).isAlpha = false ∧ isBlank '.' = false := by decide
  cases text with
  | nil => rfl
  | cons c text =>
    by_cases hc : c = '.'
    · subst hc
      have hfold : foldChar '.' = '.' := rfl
      simp only [fold_cons, hfold, splitFraction, takeWhile_isDigit_fold]
      split
      · simp [hfold]
      · simp
    · have hc' : foldChar c ≠ '.' := mt (foldChar_eq_iff hpoint).mp hc
      simp [splitFraction, hc, hc']

theorem fold_sign (text : List Char) : fold (splitSign text).1 = (splitSign text).1 := by
  unfold splitSign
  split <;> rfl

/-- Of an exponent only the mark is a letter. -/
theorem splitExponent_fold (text : List Char) :
    splitExponent (fold text) = (fold (splitExponent text).1, fold (splitExponent text).2) ∧
      fold ((splitExponent text).1.drop 1) = (splitExponent text).1.drop 1 := by
  cases text with
  | nil => exact ⟨rfl, rfl⟩
  | cons c text =>
    have hmark : (decide (foldChar c = 'e') || decide (foldChar c = 'E')) =
        (decide (c = 'e') || decide (c = 'E')) :=
      of_foldChar (fun c => decide (c = 'e') || decide (c = 'E')) (by decide) (by decide) c
    have hsign := fold_sign text
    have hdigits : fold ((splitSign text).2.takeWhile Char.isDigit) =
        (splitSign text).2.takeWhile Char.isDigit := by
      rw [← takeWhile_fold (p := Char.isDigit) (isDigit_foldChar .decimal)]
      exact takeWhile_isDigit_fold _
    simp only [fold_cons, splitExponent, hmark, splitSign_fold, takeWhile_isDigit_fold]
    split
    · split
      · exact ⟨rfl, rfl⟩
      · simp [hsign, hdigits]
    · exact ⟨rfl, rfl⟩

/-- A numeral with its exponent mark in lower case. -/
def Numeral.fold (n : Numeral) : Numeral := { n with exponent := VisualBasic.fold n.exponent }

theorem readNumeral_fold (text : List Char) :
    Numeral.read (fold text) = (Numeral.read text).map
      fun found => (found.1.fold, fold found.2) := by
  simp only [Numeral.read, splitSign_fold, takeWhile_isDigit_fold, drop_fold, splitFraction_fold,
    (splitExponent_fold _).1]
  split <;> rfl

theorem drop_exponent_fold {found : Numeral × List Char} (h : Numeral.read text = some found) :
    fold (found.1.exponent.drop 1) = found.1.exponent.drop 1 := by
  simp only [Numeral.read] at h
  split at h
  · contradiction
  · cases h
    exact (splitExponent_fold _).2

theorem length_spelling_fold (n : Numeral) : n.fold.spelling.length = n.spelling.length := by
  simp [Numeral.spelling, Numeral.fold]

def suffixChars : List Char := ['!', '#', '%', '&']

/-- The same suffix stands at the start of the folded text, or none on either side. -/
theorem head?_fold_suffix (text : List Char) :
    (fold text).head? = text.head? ∨
      ∀ c ∈ suffixChars, (fold text).head? ≠ some c ∧ text.head? ≠ some c := by
  have hall : ∀ c ∈ suffixChars, c.isAlpha = false ∧ isBlank c = false :=
    List.all_iff_forall_prop.mp (by decide)
  by_cases hc : ∃ c ∈ suffixChars, text.head? = some c
  · obtain ⟨c, hc, htext⟩ := hc
    exact .inl (((head?_fold_eq_iff (hall c hc) text).mpr htext).trans htext.symm)
  · simp only [not_exists, not_and] at hc
    exact .inr fun c hmem => ⟨mt (head?_fold_eq_iff (hall c hmem) text).mp (hc c hmem), hc c hmem⟩

theorem literal?_of_no_suffix (n : Numeral) (h : ∀ c ∈ suffixChars, text.head? ≠ some c) :
    n.literal? text =
      some (if n.isReal then n.toSingle else (n.toInteger?.or n.toLong?).getD n.toDouble, 0) := by
  unfold Numeral.literal?
  split
  · rename_i hs
    exact absurd hs (h _ (by decide))
  · rename_i hs
    exact absurd hs (h _ (by decide))
  · rw [if_neg (h '%' (by decide)), if_neg (h '&' (by decide))]
    split <;> rfl

theorem literal?_fold {n : Numeral} (h : fold (n.exponent.drop 1) = n.exponent.drop 1)
    (text : List Char) : n.fold.literal? (fold text) = n.literal? text := by
  have hexponent : n.fold.exponentValue = n.exponentValue := by
    simp only [Numeral.exponentValue, Numeral.fold, drop_fold, h]
  have hreal : n.fold.isReal = n.isReal := by simp [Numeral.isReal, Numeral.fold]
  have hbits (format : BinaryFormat) : n.fold.bits format = n.bits format := by
    simp only [Numeral.bits, hexponent]
    rfl
  have hsingle : n.fold.toSingle = n.toSingle := by rw [Numeral.toSingle, hbits, Numeral.toSingle]
  have hdouble : n.fold.toDouble = n.toDouble := by rw [Numeral.toDouble, hbits, Numeral.toDouble]
  have hinteger : n.fold.toInteger? = n.toInteger? := rfl
  have hlong : n.fold.toLong? = n.toLong? := rfl
  rcases head?_fold_suffix text with hsuffix | hsuffix
  · unfold Numeral.literal?
    rw [hsuffix]
    simp only [hreal, hsingle, hdouble, hinteger, hlong]
  · rw [literal?_of_no_suffix _ fun c hc => (hsuffix c hc).1,
      literal?_of_no_suffix _ fun c hc => (hsuffix c hc).2, hreal, hsingle, hdouble,
      hinteger, hlong]

/-! Digits have the same value in either case. -/

theorem digitValue_foldChar (h : isHexDigit c = true) : digitValue (foldChar c) = digitValue c := by
  have hvalue :=
    of_foldChar (fun c => if isHexDigit c then digitValue c else 0) (by decide) (by decide) c
  have hdigit : isHexDigit (foldChar c) = true := (isDigit_foldChar .hexadecimal c).trans h
  simpa [h, hdigit] using hvalue

theorem digitsValue_fold {digits : List Char} (h : ∀ c ∈ digits, isHexDigit c = true)
    (radix : Nat) :
    digitsValue radix (fold digits) = digitsValue radix digits := by
  rw [digitsValue, digitsValue, fold, List.foldl_map]
  refine List.foldl_ext _ _ _ fun value c hc => ?_
  rw [digitValue_foldChar (h c hc)]

theorem isHexDigit_of_isDigit {radix : Radix} (h : radix.isDigit c = true) :
    isHexDigit c = true := by
  cases radix with
  | decimal =>
    have hdigit : c.isDigit = true := h
    simp [isHexDigit, hdigit]
  | hexadecimal => exact h
  | octal =>
    simp only [Radix.isDigit, isOctalDigit, Bool.and_eq_true, decide_eq_true_eq] at h
    have hnine : ('7' : Char) ≤ '9' := by decide
    have hdigit : c.isDigit = true := by
      simp only [Char.isDigit, Bool.and_eq_true, decide_eq_true_eq]
      exact ⟨h.1, Char.le_trans h.2 hnine⟩
    simp [isHexDigit, hdigit]

theorem radixLiteral?_of_no_suffix (radix : Radix) (isNegative : Bool) {bits : Nat}
    (hbits : bits < 4294967296) (h : ∀ c ∈ suffixChars, text.head? ≠ some c) :
    radix.literal? isNegative bits text =
      some (if 65536 ≤ bits then radix.longLiteral isNegative bits
        else radix.integerLiteral isNegative bits, 0) := by
  unfold Radix.literal?
  rw [if_neg (Nat.not_le.mpr hbits)]
  split
  · rename_i hs
    exact absurd hs (h _ (by decide))
  · rename_i hs
    exact absurd hs (h _ (by decide))
  · split <;> rfl

theorem radixLiteral?_fold (radix : Radix) (isNegative : Bool) (bits : Nat) (text : List Char) :
    radix.literal? isNegative bits (fold text) = radix.literal? isNegative bits text := by
  rcases head?_fold_suffix text with hsuffix | hsuffix
  · rw [Radix.literal?, hsuffix, Radix.literal?]
  · by_cases hbits : bits < 4294967296
    · rw [radixLiteral?_of_no_suffix _ _ hbits fun c hc => (hsuffix c hc).1,
        radixLiteral?_of_no_suffix _ _ hbits fun c hc => (hsuffix c hc).2]
    · rw [Radix.literal?, Radix.literal?, if_pos (Nat.not_lt.mp hbits),
        if_pos (Nat.not_lt.mp hbits)]

theorem radixNumber_fold (isNegative : Bool) (text : List Char) :
    radixNumber isNegative (fold text) = radixNumber isNegative text := by
  cases text with
  | nil => rfl
  | cons mark body =>
    simp only [fold_cons, radixNumber, radixOfMark_foldChar]
    cases radixOfMark mark with
    | none => rfl
    | some radix =>
      have hdigits : ∀ c ∈ body.takeWhile radix.isDigit, isHexDigit c = true := fun c hc =>
        isHexDigit_of_isDigit (of_mem_takeWhile hc)
      simp only [Option.bind_some, takeWhile_fold (isDigit_foldChar radix),
        isEmpty_fold, length_fold, drop_fold, radixLiteral?_fold, digitsValue_fold hdigits]

theorem decimal_fold (text : List Char) :
    ((Numeral.read (fold text)).bind fun (numeral, rest) =>
      (numeral.literal? rest).map fun (literal, suffix) =>
        (literal, numeral.spelling.length + suffix)) =
    (Numeral.read text).bind fun (numeral, rest) =>
      (numeral.literal? rest).map fun (literal, suffix) =>
        (literal, numeral.spelling.length + suffix) := by
  rw [readNumeral_fold, Option.bind_map]
  refine Option.bind_congr fun found hfound => ?_
  simp only [Function.comp_apply, length_spelling_fold, literal?_fold (drop_exponent_fold hfound)]

theorem readNumber_fold (text : List Char) : readNumber (fold text) = readNumber text := by
  have hampersand : ('&' : Char).isAlpha = false ∧ isBlank '&' = false := by decide
  unfold readNumber
  rw [decimal_fold, splitSign_fold]
  rcases splitSign text with ⟨sign, body⟩
  cases body with
  | nil => rfl
  | cons c body =>
    by_cases hc : c = '&'
    · subst hc
      have hfold : foldChar '&' = '&' := rfl
      simp only [fold_cons, hfold, radixNumber_fold]
    · have hc' : foldChar c ≠ '&' := mt (foldChar_eq_iff hampersand).mp hc
      simp [hc, hc']

/-! ## Strings -/

theorem quotedBody_fold (text : List Char) :
    quotedBody (fold text) = (quotedBody text).map fun found => (fold found.1, found.2) := by
  have hplain : ('"' : Char).isAlpha = false ∧ isBlank '"' = false := by decide
  have hquote : foldChar '"' = '"' := rfl
  fun_induction quotedBody text with
  | case1 => rfl
  | case2 rest ih =>
    simp only [fold_cons, hquote, quotedBody, ih, Option.map_map]
    rfl
  | case3 rest hrest =>
    have hhead : rest.head? ≠ some '"' := by
      intro hhead
      obtain ⟨tail, rfl⟩ := List.head?_eq_some_iff.mp hhead
      exact hrest tail rfl
    rw [fold_cons, hquote, quotedBody_quote (mt (head?_fold_eq_iff hplain rest).mp hhead)]
    rfl
  | case4 c rest hq hq' hbreak =>
    rw [fold_cons, quotedBody_break (by simpa using hbreak)]
    rfl
  | case5 c rest hq hq' hbreak ih =>
    have hc : foldChar c ≠ '"' := mt (foldChar_eq_iff hplain).mp hq'
    rw [fold_cons, quotedBody_cons hc (by simpa using hbreak), ih, Option.map_map, Option.map_map]
    rfl

end VisualBasic
