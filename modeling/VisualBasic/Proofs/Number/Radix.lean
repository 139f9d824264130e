import Mathlib.Data.Int.ModEq
import Mathlib.Data.List.Induction
import VisualBasic.Proofs.Number.Spelling
import VisualBasic.Proofs.Scanner.Number
import VisualBasic.Proofs.Text.Lead
import VisualBasic.Proofs.Writing.Literal

/-!
# Hexadecimal and octal numbers

The digits after the mark of a radix spell the bits of an integer in two's complement. The suffix
fixes its width, and without a suffix the narrower width that holds the bits is taken; a number
whose bits do not fit is not read.
-/

set_option autoImplicit false

namespace VisualBasic

/-- The letters, and for octal numbers the zero, that may follow the ampersand. -/
def Radix.marks : Radix → List Char
  | .decimal => []
  | .hexadecimal => ['H', 'h']
  | .octal => ['O', 'o', '0']

theorem radixOfMark_eq_some_iff {mark : Char} {radix : Radix} :
    radixOfMark mark = some radix ↔ mark ∈ radix.marks := by
  cases radix <;> simp [radixOfMark, Radix.marks] <;> grind

/-- The parts of a number after an ampersand as they are spelled. -/
structure RadixNumeral where
  sign : List Char
  mark : Char
  digits : List Char
  suffix : Option Char
  deriving DecidableEq, Repr

namespace RadixNumeral

def spelling (n : RadixNumeral) : List Char :=
  n.sign ++ '&' :: n.mark :: (n.digits ++ n.suffix.toList)

/-- The parts have their forms in a radix. -/
structure IsFormed (n : RadixNumeral) (radix : Radix) : Prop where
  sign : IsSignText n.sign
  mark : n.mark ∈ radix.marks
  digit : n.digits ≠ []
  digits : ∀ c ∈ n.digits, radix.isDigit c = true
  suffix : ∀ c ∈ n.suffix, c = '%' ∨ c = '&'

/-- No word goes on after the number, and without a suffix no character that would be one. -/
structure EndsBefore (n : RadixNumeral) (rest : List Char) : Prop where
  word : NoWord rest
  suffix : n.suffix = none → rest.head? ≠ some '%' ∧ rest.head? ≠ some '&'

/-- The value of the digits. -/
def bits (n : RadixNumeral) (radix : Radix) : Nat := digitsValue radix.base n.digits

def value (n : RadixNumeral) (radix : Radix) : Int :=
  if n.sign = ['-'] then -(n.bits radix : Int) else n.bits radix

/-- The bits fit neither width that the number can have. -/
def Exceeds (n : RadixNumeral) (radix : Radix) : Prop :=
  2 ^ 32 ≤ n.bits radix ∨ n.suffix = some '%' ∧ 2 ^ 16 ≤ n.bits radix

/-- The number has 16 bits. -/
def IsNarrow (n : RadixNumeral) (radix : Radix) : Prop :=
  n.suffix = some '%' ∨ n.suffix = none ∧ n.bits radix < 2 ^ 16

instance (n : RadixNumeral) (radix : Radix) : Decidable (n.Exceeds radix) :=
  inferInstanceAs (Decidable (_ ∨ _))

instance (n : RadixNumeral) (radix : Radix) : Decidable (n.IsNarrow radix) :=
  inferInstanceAs (Decidable (_ ∨ _))

/-- The integer of its width that agrees with the value modulo the power of two. -/
inductive Denotes (n : RadixNumeral) (radix : Radix) : Literal → Prop
  | narrow (hwidth : n.IsNarrow radix) (v : Int16)
      (hvalue : v.toInt ≡ n.value radix [ZMOD 2 ^ 16]) :
      n.Denotes radix (.integer radix v)
  | wide (hwidth : ¬ n.IsNarrow radix) (v : Int32)
      (hvalue : v.toInt ≡ n.value radix [ZMOD 2 ^ 32]) :
      n.Denotes radix (.long radix v)

end RadixNumeral

/-! ## Two's complement -/

theorem bmod_eq_iff_modEq {v x : Int} {m : Nat} (hv : v.bmod m = v) :
    x.bmod m = v ↔ v ≡ x [ZMOD m] := by
  constructor
  · rintro rfl
    exact Int.bmod_emod
  · intro h
    have hrest : v % m = x % m := h
    rw [← Int.emod_bmod x m, ← hrest, Int.emod_bmod, hv]

theorem int16_ofInt_eq_iff {v : Int16} {x : Int} :
    Int16.ofInt x = v ↔ v.toInt ≡ x [ZMOD 2 ^ 16] := by
  rw [← Int16.toInt_inj, Int16.toInt_ofInt]
  exact bmod_eq_iff_modEq (BitVec.toInt_bmod_cancel v.toBitVec)

theorem int32_ofInt_eq_iff {v : Int32} {x : Int} :
    Int32.ofInt x = v ↔ v.toInt ≡ x [ZMOD 2 ^ 32] := by
  rw [← Int32.toInt_inj, Int32.toInt_ofInt]
  exact bmod_eq_iff_modEq (BitVec.toInt_bmod_cancel v.toBitVec)

/-! ## Digit by digit -/

/-- One more digit in arithmetic of 32 bits, where that does not overflow. -/
def pushDigit? (base : Nat) (bits : UInt32) (c : Char) : Option UInt32 :=
  if bits.toNat * base + digitValue c < 2 ^ 32 then
    some (bits * UInt32.ofNat base + UInt32.ofNat (digitValue c))
  else none

theorem pushDigit?_ofNat {base bits : Nat} (hbits : bits < 2 ^ 32) (c : Char) :
    pushDigit? base (UInt32.ofNat bits) c =
      if bits * base + digitValue c < 2 ^ 32 then some (UInt32.ofNat (bits * base + digitValue c))
      else none := by
  rw [pushDigit?, UInt32.toNat_ofNat_of_lt' hbits, UInt32.ofNat_add, UInt32.ofNat_mul]

/-- No step overflows unless the value of all digits has more than 32 bits, and then one does. -/
theorem foldlM_pushDigit? {base : Nat} (hbase : 0 < base) (digits : List Char) :
    digits.foldlM (pushDigit? base) 0 =
      if digitsValue base digits < 2 ^ 32 then some (UInt32.ofNat (digitsValue base digits))
      else none := by
  induction digits using List.reverseRecOn with
  | nil => rfl
  | append_singleton digits c ih =>
    have hgrows : digitsValue base digits ≤ digitsValue base digits * base :=
      Nat.le_mul_of_pos_right _ hbase
    rw [List.foldlM_append, ih, digitsValue_concat]
    split
    · rename_i hbits
      simp [pushDigit?_ofNat hbits]
    · rename_i hbits
      rw [if_neg (by omega)]
      rfl

/-! ## The literal of the bits -/

namespace RadixNumeral

variable {n : RadixNumeral} {radix : Radix} {rest : List Char} {literal : Literal}

/-- The literal that is made of the bits. -/
def toLiteral (n : RadixNumeral) (radix : Radix) : Literal :=
  if n.IsNarrow radix then radix.integerLiteral (n.sign = ['-']) (n.bits radix)
  else radix.longLiteral (n.sign = ['-']) (n.bits radix)

theorem denotes_iff : n.Denotes radix literal ↔ n.toLiteral radix = literal := by
  have hvalue : n.value radix =
      if decide (n.sign = ['-']) = true then -(n.bits radix : Int) else n.bits radix := by
    simp only [value, decide_eq_true_eq]
  constructor
  · intro h
    cases h with
    | narrow hwidth v hv =>
      rw [toLiteral, if_pos hwidth, Radix.integerLiteral, ← hvalue, int16_ofInt_eq_iff.mpr hv]
    | wide hwidth v hv =>
      rw [toLiteral, if_neg hwidth, Radix.longLiteral, ← hvalue, int32_ofInt_eq_iff.mpr hv]
  · rintro rfl
    rw [toLiteral, Radix.integerLiteral, Radix.longLiteral, ← hvalue]
    split
    · rename_i hwidth
      exact .narrow hwidth _ (int16_ofInt_eq_iff.mp rfl)
    · rename_i hwidth
      exact .wide hwidth _ (int32_ofInt_eq_iff.mp rfl)

/-- Without a suffix the bits choose the width. -/
theorem literal?_of_no_suffix {isNegative : Bool} {bits : Nat} (hpercent : rest.head? ≠ some '%')
    (hampersand : rest.head? ≠ some '&') :
    radix.literal? isNegative bits rest =
      if 4294967296 ≤ bits then none
      else if 65536 ≤ bits then some (radix.longLiteral isNegative bits, 0)
      else some (radix.integerLiteral isNegative bits, 0) := by
  unfold Radix.literal?
  split
  · rfl
  · split
    · contradiction
    · contradiction
    · rfl

theorem literal?_eq (hsuffix : ∀ c ∈ n.suffix, c = '%' ∨ c = '&') (hends : n.EndsBefore rest) :
    radix.literal? (n.sign = ['-']) (n.bits radix) (n.suffix.toList ++ rest) =
      if n.Exceeds radix then none else some (n.toLiteral radix, n.suffix.toList.length) := by
  cases hmark : n.suffix with
  | none =>
    obtain ⟨hpercent, hampersand⟩ := hends.suffix hmark
    rw [Option.toList_none, List.nil_append, literal?_of_no_suffix hpercent hampersand]
    simp only [Exceeds, toLiteral, IsNarrow, hmark]
    grind
  | some c =>
    rcases hsuffix c hmark with rfl | rfl
    all_goals
      simp only [Exceeds, toLiteral, IsNarrow, hmark, Radix.literal?]
      grind

/-! ## Reading -/

/-- The digits end where the suffix or what follows the number starts. -/
theorem takeWhile_digits_append (hformed : n.IsFormed radix) (hends : n.EndsBefore rest) :
    (n.digits ++ (n.suffix.toList ++ rest)).takeWhile radix.isDigit = n.digits := by
  refine takeWhile_append_of_head hformed.digits ?_
  cases hmark : n.suffix with
  | none =>
    rw [Option.toList_none, List.nil_append, Bool.eq_false_iff]
    intro hany
    obtain ⟨c, hc, hdigit⟩ := (Option.any_eq_true _ _).mp hany
    have hword : isWordChar c = true := by simp [isWordChar, Radix.isAlphanum_of_isDigit hdigit]
    have hnone := hends.word
    rw [NoWord, hc, Option.any_some, hword] at hnone
    contradiction
  | some c =>
    rcases hformed.suffix c hmark with rfl | rfl <;> cases radix <;> rfl

theorem readNumber_spelling (hformed : n.IsFormed radix) (hends : n.EndsBefore rest) :
    readNumber (n.spelling ++ rest) =
      if n.Exceeds radix then none else some (n.toLiteral radix, n.spelling.length) := by
  have hsource : n.spelling ++ rest = n.sign ++ '&' :: n.mark ::
      (n.digits ++ (n.suffix.toList ++ rest)) := by
    simp [spelling]
  have hsign : splitSign (n.sign ++ '&' :: n.mark :: (n.digits ++ (n.suffix.toList ++ rest))) =
      (n.sign, '&' :: n.mark :: (n.digits ++ (n.suffix.toList ++ rest))) :=
    splitSign_append_of_ne hformed.sign (by decide) (by decide)
  have hmark := radixOfMark_eq_some_iff.mpr hformed.mark
  have hliteral : radix.literal? (n.sign = ['-']) (n.bits radix) (n.suffix.toList ++ rest) =
      if n.Exceeds radix then none else some (n.toLiteral radix, n.suffix.toList.length) :=
    literal?_eq hformed.suffix hends
  have hlength : n.spelling.length = n.sign.length + 2 + n.digits.length +
      n.suffix.toList.length := by
    simp only [spelling, List.length_append, List.length_cons]
    omega
  rw [bits] at hliteral
  rw [hsource,
    readNumber_of_radix hsign hmark hformed.digit (takeWhile_digits_append hformed hends),
    hliteral, hlength]
  split <;> rfl

end RadixNumeral

theorem Cursor.number_of_formed {c : Cursor} {n : RadixNumeral} {radix : Radix} {rest : List Char}
    (hformed : n.IsFormed radix) (hends : n.EndsBefore rest)
    (htoken : c.skipBlanks.rest = n.spelling ++ rest) :
    c.number = if n.Exceeds radix then none
      else some (n.toLiteral radix, c.skipBlanks.skip n.spelling.length) := by
  have hword : (c.skipBlanks.skip n.spelling.length).isAtWordChar = false := by
    rw [isAtWordChar, rest_skip, htoken, List.drop_left]
    exact hends.word
  rw [number, htoken, RadixNumeral.readNumber_spelling hformed hends]
  split
  · rfl
  · simp [hword]

/-- A number in another radix is refused where its bits fit neither width it can have, and is else
the one integer of its width that its bits stand for. Found digit by digit in 32 bits, the bits are
exact, or a step tells that they are too many. -/
theorem Scanner.number_finds_spelling {c : Cursor} {n : RadixNumeral} {radix : Radix}
    {rest : List Char} (hformed : n.IsFormed radix) (hends : n.EndsBefore rest)
    (htoken : c.skipBlanks.rest = n.spelling ++ rest) :
    (number.run c = ⟨none, c, []⟩ ↔ n.Exceeds radix) ∧
      (∀ literal after, number.run c = ⟨some literal, after, []⟩ ↔
        ¬ n.Exceeds radix ∧ n.Denotes radix literal ∧ after = c.skipBlanks.skip n.spelling.length) ∧
      n.digits.foldlM (pushDigit? radix.base) 0 =
        if n.bits radix < 2 ^ 32 then some (UInt32.ofNat (n.bits radix)) else none := by
  have hnumber := Cursor.number_of_formed hformed hends htoken
  refine ⟨?_,
    fun literal after => ?_, foldlM_pushDigit? (Nat.zero_lt_of_lt radix.one_lt_base) n.digits⟩
  · rw [run_number, Scanned.taken_eq_none_iff, hnumber]
    simp
  · rw [run_number, Scanned.taken_eq_some_iff, hnumber, RadixNumeral.denotes_iff]
    split
    · rename_i hexceeds
      simp [hexceeds]
    · rename_i hfits
      simp [hfits, eq_comm]

/-- The negative of the greatest 16 bits is one. -/
theorem Scanner.number_finds_negative_bits :
    let c := Cursor.start " -&HFFFF%)".toList
    let n : RadixNumeral := ⟨['-'], 'H', "FFFF".toList, some '%'⟩
    n.IsFormed .hexadecimal ∧ n.EndsBefore [')'] ∧ c.skipBlanks.rest = n.spelling ++ [')'] ∧
      number.run c = ⟨some (.integer .hexadecimal 1), c.skip 9, []⟩ := by
  intro c n
  have hblanks : c.skipBlanks = c.skip 1 := by
    simp [c, Cursor.skipBlanks, Cursor.start, blankWidth, isBlank]
  have hformed : n.IsFormed .hexadecimal :=
    ⟨.inr (.inr rfl), by decide, by decide, List.all_eq_true.mp (by decide), by simp [n]⟩
  have hends : n.EndsBefore [')'] := ⟨rfl, by simp [n]⟩
  have htoken : c.skipBlanks.rest = n.spelling ++ [')'] := by
    rw [hblanks]
    decide
  refine ⟨hformed, hends, htoken, ((number_finds_spelling hformed hends htoken).2.1 _ _).mpr
    ⟨by decide, .narrow (.inl rfl) 1 (by decide), ?_⟩⟩
  rw [hblanks]
  rfl

end VisualBasic
