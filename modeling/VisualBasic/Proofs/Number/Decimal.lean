import VisualBasic.Proofs.Number.Nearest
import VisualBasic.Proofs.Number.Spelling
import VisualBasic.Proofs.Scanner.Number

/-!
# The literal of a decimal number

A decimal number is read exactly where the longest spelling of one stands, no word character follows
it, and a literal of its type has its value. An integer literal has the value itself, a
floating-point literal the bits of the nearest number of its format.
-/

set_option autoImplicit false

namespace VisualBasic

/-- Digits that go on weigh by the radix as often as digits follow them. -/
theorem digitsValue_append (radix : Nat) (digits more : List Char) :
    digitsValue radix (digits ++ more) =
      digitsValue radix digits * radix ^ more.length + digitsValue radix more := by
  have hfrom (value : Nat) :
      more.foldl (fun value c => value * radix + digitValue c) value =
        value * radix ^ more.length + digitsValue radix more := by
    unfold digitsValue
    induction more generalizing value with
    | nil => simp
    | cons c more ih =>
      rw [List.foldl_cons, List.foldl_cons, ih, ih (0 * radix + digitValue c),
        List.length_cons, pow_succ]
      ring
  rw [digitsValue, List.foldl_append]
  exact hfrom _

namespace Numeral

variable {n : Numeral} {format : BinaryFormat} {suffix : Option Char} {literal : Literal}

/-! ## Values -/

/-- The value of the digits with the power of ten, without the sign. -/
def magnitude (n : Numeral) : ℚ :=
  let places := n.fraction.drop 1
  (digitsValue 10 n.whole + digitsValue 10 places / 10 ^ places.length) * 10 ^ n.exponentValue

def value (n : Numeral) : ℚ := if n.isNegative then -n.magnitude else n.magnitude

/-- The bits are those of the nearest number of a format, with the sign in front. -/
def Rounds (n : Numeral) (format : BinaryFormat) (bits : Nat) : Prop :=
  ∃ unsigned, format.IsNearest n.magnitude unsigned ∧ bits = format.withSign n.isNegative unsigned

/-- The literal of a numeral before a suffix, or before none. -/
inductive Denotes (n : Numeral) : Option Char → Literal → Prop
  | integer (v : Int16) (hvalue : (v.toInt : ℚ) = n.value) :
      n.Denotes (some '%') (.integer .decimal v)
  | long (v : Int32) (hvalue : (v.toInt : ℚ) = n.value) : n.Denotes (some '&') (.long .decimal v)
  | single (bits : UInt32) (hbits : n.Rounds .single bits.toNat) :
      n.Denotes (some '!') (.single bits)
  | double (bits : UInt64) (hbits : n.Rounds .double bits.toNat) :
      n.Denotes (some '#') (.double bits)
  | real (hreal : n.isReal = true) (bits : UInt32) (hbits : n.Rounds .single bits.toNat) :
      n.Denotes none (.single bits)
  | narrow (hreal : n.isReal = false) (v : Int16) (hvalue : (v.toInt : ℚ) = n.value) :
      n.Denotes none (.integer .decimal v)
  | wide (hreal : n.isReal = false) (v : Int32) (hvalue : (v.toInt : ℚ) = n.value)
      (hnarrow : ∀ u : Int16, (u.toInt : ℚ) ≠ n.value) : n.Denotes none (.long .decimal v)
  | beyond (hreal : n.isReal = false) (bits : UInt64) (hbits : n.Rounds .double bits.toNat)
      (hnarrow : ∀ u : Int16, (u.toInt : ℚ) ≠ n.value)
      (hwide : ∀ u : Int32, (u.toInt : ℚ) ≠ n.value) :
      n.Denotes none (.double bits)

theorem magnitude_eq (n : Numeral) :
    n.magnitude = (digitsValue 10 (n.whole ++ n.fraction.drop 1) : ℕ) *
      10 ^ (n.exponentValue - ((n.fraction.drop 1).length : ℤ)) := by
  have hten : (10 : ℚ) ≠ 0 := by norm_num
  have hpower : (10 : ℚ) ^ (n.fraction.drop 1).length ≠ 0 := pow_ne_zero _ hten
  rw [digitsValue_append, zpow_sub₀ hten, zpow_natCast, magnitude]
  push_cast
  field_simp

/-- Without fraction and exponent the value is an integer. -/
theorem value_eq_wholeValue (hreal : n.isReal = false) : n.value = n.wholeValue := by
  simp only [isReal, Bool.or_eq_false_iff, Bool.not_eq_false', List.isEmpty_iff] at hreal
  have hmagnitude : n.magnitude = (digitsValue 10 n.whole : ℕ) := by
    simp [magnitude, exponentValue, hreal.1, hreal.2, splitSign, digitsValue]
  rw [value, wholeValue, hmagnitude]
  split <;> simp

/-! ## Integers -/

theorem toInteger?_eq_some_iff (hreal : n.isReal = false) :
    n.toInteger? = some literal ↔ ∃ v : Int16, (v.toInt : ℚ) = n.value ∧ literal =
    .integer .decimal v := by
  simp only [value_eq_wholeValue hreal, Int.cast_inj]
  unfold toInteger?
  dsimp only
  constructor
  · intro h
    split at h
    · rename_i hfits
      cases h
      exact ⟨_, Int16.toInt_ofInt_of_le hfits.1 hfits.2, rfl⟩
    · contradiction
  · rintro ⟨v, hv, rfl⟩
    rw [← hv, if_pos ⟨v.le_toInt, v.toInt_lt⟩, Int16.ofInt_toInt]

theorem toLong?_eq_some_iff (hreal : n.isReal = false) :
    n.toLong? = some literal ↔ ∃ v : Int32, (v.toInt : ℚ) = n.value ∧ literal =
    .long .decimal v := by
  simp only [value_eq_wholeValue hreal, Int.cast_inj]
  unfold toLong?
  dsimp only
  constructor
  · intro h
    split at h
    · rename_i hfits
      cases h
      exact ⟨_, Int32.toInt_ofInt_of_le hfits.1 hfits.2, rfl⟩
    · contradiction
  · rintro ⟨v, hv, rfl⟩
    rw [← hv, if_pos ⟨v.le_toInt, v.toInt_lt⟩, Int32.ofInt_toInt]

theorem toInteger?_eq_none_iff (hreal : n.isReal = false) :
    n.toInteger? = none ↔ ∀ v : Int16, (v.toInt : ℚ) ≠ n.value := by
  simp only [Option.eq_none_iff_forall_ne_some, ne_eq, toInteger?_eq_some_iff hreal]
  exact ⟨fun h v hv => h _ ⟨v, hv, rfl⟩, fun h _ ⟨v, hv, _⟩ => h v hv⟩

theorem toLong?_eq_none_iff (hreal : n.isReal = false) :
    n.toLong? = none ↔ ∀ v : Int32, (v.toInt : ℚ) ≠ n.value := by
  simp only [Option.eq_none_iff_forall_ne_some, ne_eq, toLong?_eq_some_iff hreal]
  exact ⟨fun h v hv => h _ ⟨v, hv, rfl⟩, fun h _ ⟨v, hv, _⟩ => h v hv⟩

/-! ## Floating-point numbers -/

theorem rounds_iff (hproper : format.IsProper) {bits : Nat} :
    n.Rounds format bits ↔ bits = n.bits format := by
  have hnearest :=
    BinaryFormat.isNearest_ofDecimal hproper (digitsValue 10 (n.whole ++ n.fraction.drop 1))
    (n.exponentValue - ((n.fraction.drop 1).length : ℤ))
  rw [← magnitude_eq] at hnearest
  constructor
  · rintro ⟨unsigned, hunsigned, rfl⟩
    rw [hunsigned.unique hnearest]
    rfl
  · rintro rfl
    exact ⟨_, hnearest, rfl⟩

theorem bits_lt {bound : Nat} (hproper : format.IsProper)
    (hbound : format.signBit + format.infinity < bound) :
    n.bits format < bound := by
  obtain ⟨unsigned, hunsigned, hbits⟩ := (rounds_iff hproper).mpr (Eq.refl (n.bits format))
  have hle := hunsigned.le_infinity
  rw [hbits, BinaryFormat.withSign]
  split <;> omega

theorem rounds_single_iff {bits : UInt32} :
    n.Rounds .single bits.toNat ↔ n.toSingle = .single bits := by
  rw [rounds_iff BinaryFormat.isProper_single, toSingle, Literal.single.injEq, ← UInt32.toNat_inj,
    UInt32.toNat_ofNat_of_lt' (bits_lt BinaryFormat.isProper_single (by decide))]
  exact eq_comm

theorem rounds_double_iff {bits : UInt64} :
    n.Rounds .double bits.toNat ↔ n.toDouble = .double bits := by
  rw [rounds_iff BinaryFormat.isProper_double, toDouble, Literal.double.injEq, ← UInt64.toNat_inj,
    UInt64.toNat_ofNat_of_lt' (bits_lt BinaryFormat.isProper_double (by decide))]
  exact eq_comm

/-! ## The literal before a suffix -/

theorem denotes_single_iff : n.Denotes (some '!') literal ↔ n.toSingle = literal := by
  constructor
  · intro h
    cases h with
    | single bits hbits => exact rounds_single_iff.mp hbits
  · rintro rfl
    exact .single _ (rounds_single_iff.mpr rfl)

theorem denotes_double_iff : n.Denotes (some '#') literal ↔ n.toDouble = literal := by
  constructor
  · intro h
    cases h with
    | double bits hbits => exact rounds_double_iff.mp hbits
  · rintro rfl
    exact .double _ (rounds_double_iff.mpr rfl)

theorem denotes_integer_iff (hreal : n.isReal = false) :
    n.Denotes (some '%') literal ↔ n.toInteger? = some literal := by
  rw [toInteger?_eq_some_iff hreal]
  constructor
  · intro h
    cases h with
    | integer v hvalue => exact ⟨v, hvalue, rfl⟩
  · rintro ⟨v, hvalue, rfl⟩
    exact .integer v hvalue

theorem denotes_long_iff (hreal : n.isReal = false) :
    n.Denotes (some '&') literal ↔ n.toLong? = some literal := by
  rw [toLong?_eq_some_iff hreal]
  constructor
  · intro h
    cases h with
    | long v hvalue => exact ⟨v, hvalue, rfl⟩
  · rintro ⟨v, hvalue, rfl⟩
    exact .long v hvalue

theorem denotes_real_iff (hreal : n.isReal = true) :
    n.Denotes none literal ↔ n.toSingle = literal := by
  constructor
  · intro h
    cases h with
    | real _ bits hbits => exact rounds_single_iff.mp hbits
    | narrow hwhole => simp [hreal] at hwhole
    | wide hwhole => simp [hreal] at hwhole
    | beyond hwhole => simp [hreal] at hwhole
  · rintro rfl
    exact .real hreal _ (rounds_single_iff.mpr rfl)

theorem denotes_whole_iff (hreal : n.isReal = false) :
    n.Denotes none literal ↔ (n.toInteger?.or n.toLong?).getD n.toDouble = literal := by
  constructor
  · intro h
    cases h with
    | real hpoint => simp [hreal] at hpoint
    | narrow _ v hvalue =>
      rw [(toInteger?_eq_some_iff hreal).mpr ⟨v, hvalue, rfl⟩]
      rfl
    | wide _ v hvalue hnarrow =>
      rw [(toInteger?_eq_none_iff hreal).mpr hnarrow,
        (toLong?_eq_some_iff hreal).mpr ⟨v, hvalue, rfl⟩]
      rfl
    | beyond _ bits hbits hnarrow hwide =>
      rw [(toInteger?_eq_none_iff hreal).mpr hnarrow, (toLong?_eq_none_iff hreal).mpr hwide]
      exact rounds_double_iff.mp hbits
  · rintro rfl
    cases hinteger : n.toInteger? with
    | some narrow =>
      obtain ⟨v, hvalue, rfl⟩ := (toInteger?_eq_some_iff hreal).mp hinteger
      exact .narrow hreal v hvalue
    | none =>
      have hnarrow := (toInteger?_eq_none_iff hreal).mp hinteger
      cases hlong : n.toLong? with
      | some wide =>
        obtain ⟨v, hvalue, rfl⟩ := (toLong?_eq_some_iff hreal).mp hlong
        exact .wide hreal v hvalue hnarrow
      | none =>
        exact .beyond hreal _ (rounds_double_iff.mpr rfl) hnarrow
          ((toLong?_eq_none_iff hreal).mp hlong)

/-- No other character is a suffix, and a real number does not have those of the integer types. -/
theorem filter_isSuffix_eq_none {mark : Option Char} (hsingle : mark ≠ some '!')
    (hdouble : mark ≠ some '#')
    (hwhole : n.isReal = false → mark ≠ some '%' ∧ mark ≠ some '&') :
    mark.filter n.isSuffix = none := by
  rw [Option.filter_eq_none_iff]
  rintro c rfl
  simp only [ne_eq, Option.some.injEq] at hsingle hdouble hwhole
  simp only [isSuffix, Bool.or_eq_true, Bool.and_eq_true, Bool.not_eq_true', decide_eq_true_eq]
  tauto

/-- The literal is that of the numeral and of the suffix that follows it, if one fits. -/
theorem literal?_eq_some_iff {tail : List Char} {width : Nat} :
    n.literal? tail = some (literal, width) ↔
      n.Denotes (tail.head?.filter n.isSuffix) literal ∧
        width = (tail.head?.filter n.isSuffix).toList.length := by
  unfold literal?
  split
  · rename_i hmark
    simp [hmark, Option.filter, isSuffix, denotes_single_iff, eq_comm]
  · rename_i hmark
    simp [hmark, Option.filter, isSuffix, denotes_double_iff, eq_comm]
  · rename_i hsingle hdouble
    cases hreal : n.isReal with
    | true =>
      rw [filter_isSuffix_eq_none hsingle hdouble (by simp [hreal]), denotes_real_iff hreal]
      simp [eq_comm]
    | false =>
      by_cases hinteger : tail.head? = some '%'
      · simp [hinteger, hreal, Option.filter, isSuffix, denotes_integer_iff, eq_comm]
      by_cases hlong : tail.head? = some '&'
      · simp [hlong, hreal, Option.filter, isSuffix, denotes_long_iff, eq_comm]
      · rw [filter_isSuffix_eq_none hsingle hdouble fun _ => ⟨hinteger, hlong⟩,
          denotes_whole_iff hreal]
        simp [hinteger, hlong, eq_comm]

end Numeral

/-! ## Reading -/

theorem readNumber_of_not_mark {text : List Char}
    (h : ∀ sign, IsSignText sign → ¬ sign ++ ['&'] <+: text) :
    readNumber text = (Numeral.read text).bind fun found =>
      (found.1.literal? found.2).map
        fun (literal, suffix) => (literal, found.1.spelling.length + suffix) := by
  unfold readNumber
  split
  · rename_i sign body hsplit
    refine absurd ?_ (h sign (by simpa [hsplit] using isSignText_splitSign text))
    rw [← splitSign_append text, hsplit]
    simp
  · rfl

theorem Cursor.number_eq_some_iff {c after : Cursor} {literal : Literal}
    (hmark : ∀ sign, IsSignText sign → ¬ sign ++ ['&'] <+: c.skipBlanks.rest) :
    c.number = some (literal, after) ↔
      ∃ (n : Numeral) (suffix : Option Char) (text : List Char),
        n.SpellsLongest suffix text c.skipBlanks.rest ∧ n.Denotes suffix literal ∧
          after = c.skipBlanks.skip text.length ∧ after.isAtWordChar = false := by
  simp only [Cursor.number, readNumber_of_not_mark hmark, Numeral.spellsLongest_iff]
  constructor
  · intro h
    obtain ⟨⟨found, width⟩, hfound, hafter⟩ := Option.bind_eq_some_iff.mp h
    obtain ⟨⟨n, tail⟩, hread, hliteral⟩ := Option.bind_eq_some_iff.mp hfound
    obtain ⟨⟨value, more⟩, hvalue, hwidth⟩ := Option.map_eq_some_iff.mp hliteral
    cases hwidth
    obtain ⟨hdenotes, rfl⟩ := Numeral.literal?_eq_some_iff.mp hvalue
    dsimp only at hafter
    split at hafter
    · contradiction
    · rename_i hword
      cases hafter
      refine ⟨n, _, _, ⟨tail, hread, rfl, rfl⟩, hdenotes, ?_, by simpa using hword⟩
      rw [List.length_append]
  · rintro ⟨n, suffix, text, ⟨tail, hread, rfl, rfl⟩, hdenotes, rfl, hword⟩
    have hliteral := Numeral.literal?_eq_some_iff.mpr ⟨hdenotes, rfl⟩
    rw [List.length_append] at hword ⊢
    simp [hread, hliteral, hword]

/-- A decimal number is found where the longest spelling of one denotes a literal and no word goes
on after it. -/
theorem Scanner.number_finds_iff {c after : Cursor} {literal : Literal}
    (hmark : ∀ sign, IsSignText sign → ¬ sign ++ ['&'] <+: c.skipBlanks.rest) :
    number.run c = ⟨some literal, after, []⟩ ↔
      ∃ (n : Numeral) (suffix : Option Char) (text : List Char),
        n.SpellsLongest suffix text c.skipBlanks.rest ∧ n.Denotes suffix literal ∧
          after = c.skipBlanks.skip text.length ∧ after.isAtWordChar = false := by
  rw [run_number, Scanned.taken_eq_some_iff, Cursor.number_eq_some_iff hmark]

/-- After a blank, a negative number with an exponent. -/
theorem Scanner.number_finds_exponent :
    (∀ sign, IsSignText sign → ¬ sign ++
      ['&'] <+: (Cursor.start " -1.5e2)".toList).skipBlanks.rest) ∧
      number.run (Cursor.start " -1.5e2)".toList) =
        ⟨some (.single 0xC3160000), (Cursor.start " -1.5e2)".toList).skip 7, []⟩ := by
  have hblanks : (Cursor.start " -1.5e2)".toList).skipBlanks = ⟨1, true, "-1.5e2)".toList⟩ := by
    simp [Cursor.skipBlanks, Cursor.start, blankWidth, isBlank, Cursor.next, Char.utf8Size]
  have hmark : ∀ sign, IsSignText sign →
      ¬ sign ++ ['&'] <+: (Cursor.start " -1.5e2)".toList).skipBlanks.rest := by
    rw [hblanks]
    rintro sign (rfl | rfl | rfl) <;> decide
  refine ⟨hmark, (number_finds_iff hmark).mpr
    ⟨⟨['-'], ['1'], ['.', '5'], ['e', '2']⟩, none, "-1.5e2".toList, ?_, ?_, ?_, ?_⟩⟩
  · rw [hblanks]
    exact Numeral.spellsLongest_iff.mpr ⟨[')'], by decide, by decide, by decide⟩
  · exact (Numeral.denotes_real_iff (by decide)).mpr (by decide)
  · rw [hblanks]
    decide
  · decide

end VisualBasic
