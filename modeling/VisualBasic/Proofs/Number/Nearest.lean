import Mathlib.Algebra.Order.Field.Power
import Mathlib.Data.Nat.Log
import Mathlib.Data.Rat.Cast.Order
import Mathlib.Tactic.FieldSimp
import Mathlib.Tactic.Linarith
import Mathlib.Tactic.Positivity
import Mathlib.Tactic.Ring
import VisualBasic.Number.Shortest

/-!
# Rounding to the nearest number of a binary format

The bits that a fraction or a decimal number is rounded to are those of the nearest number of the
format, and even if two numbers are equally near. Past the finite numbers infinity counts as the
power of two that would come next.
-/

set_option autoImplicit false

namespace VisualBasic

/-! ## Rounding to a natural number -/

/-- A number differs from its rounding by a half at most, and by a half only if the rounding is
even. -/
theorem roundHalfEven_error (numerator : Nat) {denominator : Nat} (h : 0 < denominator) :
    |(roundHalfEven numerator denominator : ℚ) - numerator / denominator| ≤ 1 / 2 ∧
      (|(roundHalfEven numerator denominator : ℚ) - numerator / denominator| = 1 / 2 →
        roundHalfEven numerator denominator % 2 = 0) := by
  have hpos : (0 : ℚ) < denominator := by exact_mod_cast h
  have hnumerator : (numerator : ℚ) =
      denominator * (numerator / denominator : ℕ) + (numerator % denominator : ℕ) := by
    exact_mod_cast (Nat.div_add_mod numerator denominator).symm
  have hdiv : (numerator : ℚ) / denominator =
      (numerator / denominator : ℕ) + ((numerator % denominator : ℕ) : ℚ) / denominator := by
    rw [div_eq_iff hpos.ne', add_mul, div_mul_cancel₀ _ hpos.ne', mul_comm]
    exact hnumerator
  have hlt := Nat.mod_lt numerator h
  unfold roundHalfEven
  rw [hdiv]
  generalize numerator / denominator = quotient
  generalize numerator % denominator = remainder at *
  have hbelow : |(quotient : ℚ) - (quotient + (remainder : ℚ) / denominator)| =
      remainder / denominator := by
    rw [sub_add_cancel_left, abs_neg, abs_of_nonneg (by positivity)]
  have habove : |((quotient + 1 : ℕ) : ℚ) - (quotient + (remainder : ℚ) / denominator)| =
      1 - remainder / denominator := by
    have hle : (remainder : ℚ) / denominator ≤ 1 :=
      (div_le_one hpos).mpr (by exact_mod_cast hlt.le)
    rw [Nat.cast_add, Nat.cast_one, add_sub_add_left_eq_sub, abs_of_nonneg (by linarith)]
  by_cases hlow : 2 * remainder < denominator
  · have hhalf : (remainder : ℚ) / denominator < 1 / 2 := by
      rw [div_lt_div_iff₀ hpos two_pos]
      exact_mod_cast (by omega : remainder * 2 < 1 * denominator)
    rw [if_pos hlow, hbelow]
    exact ⟨hhalf.le, fun heq => absurd heq hhalf.ne⟩
  · by_cases hhigh : denominator < 2 * remainder
    · have hhalf : 1 / 2 < (remainder : ℚ) / denominator := by
        rw [div_lt_div_iff₀ two_pos hpos]
        exact_mod_cast (by omega : 1 * denominator < remainder * 2)
      rw [if_neg hlow, if_pos hhigh, habove]
      exact ⟨by linarith, fun heq => by linarith⟩
    · have hhalf : (remainder : ℚ) / denominator = 1 / 2 := by
        rw [div_eq_div_iff hpos.ne' two_ne_zero]
        exact_mod_cast (by omega : remainder * 2 = 1 * denominator)
      rw [if_neg hlow, if_neg hhigh]
      by_cases heven : quotient % 2 = 0
      · rw [if_pos heven, hbelow]
        exact ⟨hhalf.le, fun _ => heven⟩
      · rw [if_neg heven, habove]
        exact ⟨by linarith, fun _ => by omega⟩

/-- A half or less apart from a natural number, no other one is nearer. -/
theorem le_abs_sub_of_error {rounded other : Nat} {x : ℚ} (h : |(rounded : ℚ) - x| ≤ 1 / 2)
    (hne : other ≠ rounded) : 1 / 2 ≤ |(other : ℚ) - x| := by
  have hapart : (1 : ℚ) ≤ |(other : ℚ) - rounded| := by
    have hint : (1 : ℤ) ≤ |(other : ℤ) - rounded| :=
      Int.one_le_abs (sub_ne_zero.mpr (by exact_mod_cast hne))
    exact_mod_cast hint
  have htriangle := abs_sub_le (other : ℚ) x rounded
  rw [abs_sub_comm x] at htriangle
  linarith

namespace BinaryFormat

variable (format : BinaryFormat)

/-- The number that bits without a sign stand for. Those of infinity count as the power of two after
the finite numbers. -/
def value (bits : Nat) : ℚ :=
  (format.magnitude bits).significand * 2 ^ (format.magnitude bits).exponent

/-- The bits of the number of a format that is nearest to a given one; they are even if another is
as near. -/
structure IsNearest (x : ℚ) (bits : Nat) : Prop where
  le_infinity : bits ≤ format.infinity
  nearest : ∀ other ≤ format.infinity, |format.value bits - x| ≤ |format.value other - x|
  even : ∀ other ≤ format.infinity, other ≠ bits → |format.value bits - x| =
    |format.value other - x| →
    bits % 2 = 0

/-- A format with a fraction and an exponent. -/
structure IsProper : Prop where
  precision : 2 ≤ format.precision
  exponentBits : 1 ≤ format.exponentBits

theorem isProper_single : single.IsProper := ⟨by decide, by decide⟩

theorem isProper_double : double.IsProper := ⟨by decide, by decide⟩

/-! ## Bits and numbers -/

/-- How many numbers have one exponent. -/
def binade : Nat := 2 ^ (format.precision - 1)

theorem binade_pos : 0 < format.binade := Nat.two_pow_pos _

theorem cast_binade : (format.binade : ℚ) = 2 ^ ((format.precision - 1 : Nat) : ℤ) := by
  rw [binade, zpow_natCast]
  push_cast
  rfl

variable {format}

theorem IsProper.even_binade (h : format.IsProper) : format.binade % 2 = 0 := by
  obtain ⟨n, hn⟩ := Nat.exists_eq_add_of_le h.precision
  have hsub : format.precision - 1 = n + 1 := by omega
  rw [binade, hsub, Nat.pow_succ]
  exact Nat.mul_mod_left _ _

theorem magnitude_eq (bits : Nat) :
    format.magnitude bits =
      if bits / format.binade = 0 then ⟨bits % format.binade, format.leastExponent⟩
      else ⟨bits % format.binade + format.binade,
        format.leastExponent + (bits / format.binade - 1 : Nat)⟩ := rfl

variable {significand shift : Nat}

/-- The number of a significand and an exponent; a carry into the next exponent is no exception. -/
theorem value_add (hle : significand ≤ 2 * format.binade)
    (hshift : shift = 0 ∨ format.binade ≤ significand) :
    format.value (significand + shift * format.binade) =
      significand * 2 ^ (format.leastExponent + shift) := by
  have hpos := format.binade_pos
  rw [value, magnitude_eq]
  rcases Nat.lt_or_ge significand format.binade with hlow | hhigh
  · obtain rfl : shift = 0 := hshift.resolve_right (by omega)
    rw [Nat.zero_mul, Nat.add_zero, Nat.div_eq_of_lt hlow, if_pos rfl, Nat.mod_eq_of_lt hlow]
    simp
  · obtain ⟨low, rfl⟩ := Nat.exists_eq_add_of_le hhigh
    have hbits : format.binade + low + shift * format.binade =
        low + (shift + 1) * format.binade := by
      ring
    rw [hbits, Nat.add_mul_div_right _ _ hpos, Nat.add_mul_mod_self_right]
    rcases Nat.lt_or_ge low format.binade with hlt | hge
    · rw [Nat.div_eq_of_lt hlt, Nat.mod_eq_of_lt hlt, if_neg (by omega)]
      have hsub : 0 + (shift + 1) - 1 = shift := by omega
      rw [hsub, Nat.add_comm low]
    · obtain rfl : low = format.binade := by omega
      rw [Nat.div_self hpos, Nat.mod_self, if_neg (by omega)]
      have hsub : 1 + (shift + 1) - 1 = shift + 1 := by omega
      rw [hsub, Nat.zero_add, Nat.cast_add, Nat.cast_add, Nat.cast_one, ← add_assoc,
        zpow_add_one₀ two_ne_zero]
      ring

theorem exists_significand (format : BinaryFormat) (bits : Nat) :
    ∃ significand shift, bits = significand + shift * format.binade ∧
      significand < 2 * format.binade ∧ (shift = 0 ∨ format.binade ≤ significand) := by
  have hpos := format.binade_pos
  have hlt := Nat.mod_lt bits hpos
  have hbits := Nat.mod_add_div bits format.binade
  rcases Nat.eq_zero_or_pos (bits / format.binade) with hzero | hfield
  · refine ⟨bits, 0, by omega, ?_, .inl rfl⟩
    rw [hzero] at hbits
    omega
  · obtain ⟨shift, hshift⟩ := Nat.exists_eq_succ_of_ne_zero hfield.ne'
    refine ⟨bits % format.binade + format.binade, shift, ?_, by omega, .inr (by omega)⟩
    rw [hshift, Nat.mul_succ] at hbits
    rw [Nat.mul_comm shift]
    omega

/-- Greater bits stand for greater numbers. -/
theorem strictMono_value (format : BinaryFormat) : StrictMono format.value := by
  refine strictMono_nat_of_lt_succ fun bits => ?_
  obtain ⟨significand, shift, rfl, hlt, hshift⟩ := format.exists_significand bits
  have hnext : significand + shift * format.binade + 1 = significand + 1 +
      shift * format.binade := by
    omega
  have hpos : (0 : ℚ) < 2 ^ (format.leastExponent + shift) := by positivity
  rw [hnext, value_add hlt.le hshift, value_add hlt (hshift.imp_right Nat.le_succ_of_le)]
  push_cast
  linarith

/-- Numbers with a smaller exponent are less than the least significand of full precision. -/
theorem value_lt_of_shift_lt {other digits otherShift : Nat}
    (hother : other = digits + otherShift * format.binade)
    (hdigits : digits < 2 * format.binade) (hlt : otherShift < shift) :
    format.value other < format.binade * 2 ^ (format.leastExponent + shift) := by
  have hfirst : format.value (format.binade + shift * format.binade) =
      format.binade * 2 ^ (format.leastExponent + shift) := value_add (by omega) (.inr le_rfl)
  rw [← hfirst]
  refine format.strictMono_value ?_
  have hmul : otherShift * format.binade + format.binade ≤ shift * format.binade := by
    rw [← Nat.succ_mul]
    exact Nat.mul_le_mul_right _ hlt
  omega

/-! ## The nearest number -/

/-- Bits are as near to a number as others are, and even if the others are not the same and as
near. -/
def Outranks (format : BinaryFormat) (x : ℚ) (bits other : Nat) : Prop :=
  |format.value bits - x| ≤ |format.value other - x| ∧
    (other ≠ bits → |format.value bits - x| = |format.value other - x| → bits % 2 = 0)

variable {x scaled : ℚ} {bits other : Nat}

theorem outranks_of_lt (h : |format.value bits - x| < |format.value other - x|) :
    format.Outranks x bits other := ⟨h.le, fun _ heq => absurd heq h.ne⟩

theorem abs_sub_mul_zpow (n scaled : ℚ) (exponent : ℤ) :
    |n * 2 ^ exponent - scaled * 2 ^ exponent| = |n - scaled| * 2 ^ exponent := by
  rw [← sub_mul, abs_mul, abs_of_pos (by positivity : (0 : ℚ) < 2 ^ exponent)]

/-- Rounding does not leave the significands of full precision. -/
theorem significand_bounds (hle : scaled ≤ 2 * format.binade)
    (hshift : shift = 0 ∨ (format.binade : ℚ) ≤ scaled)
    (herror : |(significand : ℚ) - scaled| ≤ 1 / 2) :
    significand ≤ 2 * format.binade ∧ (shift = 0 ∨ format.binade ≤ significand) := by
  obtain ⟨habove, hbelow⟩ := abs_le.mp herror
  constructor
  · by_contra hgt
    have hge : ((2 * format.binade + 1 : ℕ) : ℚ) ≤ significand := by
      exact_mod_cast Nat.lt_of_not_le hgt
    push_cast at hge
    linarith
  · refine hshift.imp_right fun hscaled => ?_
    by_contra hlt
    have hge : ((significand + 1 : ℕ) : ℚ) ≤ format.binade := by exact_mod_cast Nat.lt_of_not_le hlt
    push_cast at hge
    linarith

/-- Among the multiples of a power of two the rounded one is nearest. -/
theorem outranks_of_multiple (hproper : format.IsProper)
    (hself : format.value (significand + shift * format.binade) =
      significand * 2 ^ (format.leastExponent + shift))
    (herror : |(significand : ℚ) - scaled| ≤ 1 / 2)
    (heven : |(significand : ℚ) - scaled| = 1 / 2 → significand % 2 = 0)
    {n : Nat} (hn : format.value other = n * 2 ^ (format.leastExponent + shift)) :
    format.Outranks (scaled * 2 ^ (format.leastExponent + shift))
      (significand + shift * format.binade)
      other := by
  have hpos : (0 : ℚ) < 2 ^ (format.leastExponent + shift) := by positivity
  rw [Outranks, hn, hself, abs_sub_mul_zpow, abs_sub_mul_zpow]
  by_cases hsame : n = significand
  · rw [hsame] at hn ⊢
    exact ⟨le_rfl, fun hne => absurd (format.strictMono_value.injective (hn.trans hself.symm)) hne⟩
  · have hhalf := le_abs_sub_of_error herror hsame
    refine ⟨mul_le_mul_of_nonneg_right (herror.trans hhalf) hpos.le, fun _ heq => ?_⟩
    have hhalves := mul_right_cancel₀ hpos.ne' heq
    have hparity := heven (le_antisymm herror (hhalf.trans hhalves.ge))
    rw [Nat.add_mod, Nat.mul_mod, hproper.even_binade, hparity]
    rfl

/-- Numbers below the significands of full precision are further than the least of these. -/
theorem outranks_of_below
    (hself : format.value (significand + shift * format.binade) =
      significand * 2 ^ (format.leastExponent + shift))
    (herror : |(significand : ℚ) - scaled| ≤ 1 / 2) (hscaled : (format.binade : ℚ) ≤ scaled)
    (hother : format.value other < format.binade * 2 ^ (format.leastExponent + shift)) :
    format.Outranks (scaled * 2 ^ (format.leastExponent + shift))
      (significand + shift * format.binade)
      other := by
  have hpos : (0 : ℚ) < 2 ^ (format.leastExponent + shift) := by positivity
  have hbelow := mul_le_mul_of_nonneg_right hscaled hpos.le
  have hcandidate : |(significand : ℚ) - scaled| ≤ |(format.binade : ℚ) - scaled| := by
    by_cases hsame : format.binade = significand
    · rw [hsame]
    · exact herror.trans (le_abs_sub_of_error herror hsame)
  have hnear := mul_le_mul_of_nonneg_right hcandidate hpos.le
  rw [← abs_sub_mul_zpow, ← abs_sub_mul_zpow, abs_of_nonpos (sub_nonpos.mpr hbelow)] at hnear
  refine outranks_of_lt ?_
  have hfar := neg_le_abs (format.value other - scaled * 2 ^ (format.leastExponent + shift))
  rw [hself]
  linarith

/-- Of all bits those of a rounded significand are nearest, where the exponent is the one that a
significand of full precision has, or the least. -/
theorem outranks_of_significand (hproper : format.IsProper)
    (hx : x = scaled * 2 ^ (format.leastExponent + shift)) (hle : scaled ≤ 2 * format.binade)
    (hshift : shift = 0 ∨ (format.binade : ℚ) ≤ scaled)
    (herror : |(significand : ℚ) - scaled| ≤ 1 / 2)
    (heven : |(significand : ℚ) - scaled| = 1 / 2 → significand % 2 = 0) (other : Nat) :
    format.Outranks x (significand + shift * format.binade) other := by
  obtain ⟨hbound, hlower⟩ := significand_bounds hle hshift herror
  have hself := value_add hbound hlower
  obtain ⟨digits, otherShift, hother, hlt, hfull⟩ := format.exists_significand other
  rw [hx]
  rcases Nat.lt_or_ge otherShift shift with hfiner | hcoarser
  · exact outranks_of_below hself herror (hshift.resolve_left (by omega))
      (value_lt_of_shift_lt hother hlt hfiner)
  · -- A number with a greater exponent is a multiple as well.
    obtain ⟨more, rfl⟩ := Nat.exists_eq_add_of_le hcoarser
    refine outranks_of_multiple hproper hself herror heven (n := digits * 2 ^ more) ?_
    rw [hother, value_add hlt.le hfull, Nat.cast_add, ← add_assoc, zpow_add₀ two_ne_zero]
    push_cast
    rw [zpow_natCast]
    ring

/-- Past the finite numbers infinity is nearest. -/
theorem isNearest_infinity_of_le (hle : format.value format.infinity ≤ x) :
    format.IsNearest x format.infinity where
  le_infinity := le_rfl
  nearest other hother := by
    have hmono := format.strictMono_value.monotone hother
    rw [abs_of_nonpos (by linarith), abs_of_nonpos (by linarith)]
    linarith
  even other hother hne heq := by
    have hmono := format.strictMono_value (Nat.lt_of_le_of_ne hother hne)
    rw [abs_of_nonpos (by linarith), abs_of_nonpos (by linarith)] at heq
    linarith

/-- What is nearest among all bits is nearest among those up to infinity, or past them. -/
theorem isNearest_min (h : ∀ other, format.Outranks x bits other) :
    format.IsNearest x (min bits format.infinity) := by
  rcases Nat.lt_or_ge format.infinity bits with hlt | hle
  · have hpast : format.value format.infinity < x := by
      by_contra hnot
      have hnear := (h format.infinity).1
      have hmono := format.strictMono_value hlt
      rw [abs_of_nonneg (by linarith), abs_of_nonneg (by linarith)] at hnear
      linarith
    rw [Nat.min_eq_right hlt.le]
    exact isNearest_infinity_of_le hpast.le
  · rw [Nat.min_eq_left hle]
    exact ⟨hle, fun other _ => (h other).1, fun other _ => (h other).2⟩

/-- One number of a format is nearest. -/
theorem IsNearest.unique (h : format.IsNearest x bits)
    (h' : format.IsNearest x other) : bits = other := by
  wlog hlt : bits < other generalizing bits other
  · rcases Nat.lt_or_ge other bits with hgt | hge
    · exact (this h' h hgt).symm
    · omega
  exfalso
  have hequal := le_antisymm (h.nearest other h'.le_infinity) (h'.nearest bits h.le_infinity)
  have heven := h.even other h'.le_infinity hlt.ne' hequal
  have heven' := h'.even bits h.le_infinity hlt.ne hequal.symm
  -- Both are even, so a number between them is nearer.
  have hbetween := h.nearest (bits + 1) (by have := h'.le_infinity; omega)
  have hfirst := format.strictMono_value (Nat.lt_succ_self bits)
  have hsecond := format.strictMono_value (show bits + 1 < other by omega)
  rw [Nat.succ_eq_add_one] at hfirst
  rcases le_total x (format.value (bits + 1)) with hle | hge
  · rw [hequal, abs_of_nonneg (by linarith), abs_of_nonneg (by linarith)] at hbetween
    linarith
  · rw [abs_of_nonpos (by linarith), abs_of_nonpos (by linarith)] at hbetween
    linarith

/-! ## Fractions -/

theorem scaleByTwo_spec (numerator : Nat) {denominator : Nat} (h : 0 < denominator) (exponent : ℤ) :
    0 < (scaleByTwo numerator denominator exponent).2 ∧
      ((scaleByTwo numerator denominator exponent).1 : ℚ) /
        (scaleByTwo numerator denominator exponent).2 =
        numerator / denominator * 2 ^ exponent := by
  unfold scaleByTwo
  split
  · rename_i hexponent
    obtain ⟨n, rfl⟩ := Int.eq_ofNat_of_zero_le hexponent
    refine ⟨h, ?_⟩
    simp only [Int.toNat_natCast, Nat.pow_eq, zpow_natCast]
    push_cast
    ring
  · rename_i hexponent
    obtain ⟨n, hn⟩ := Int.eq_ofNat_of_zero_le (a := -exponent) (by omega)
    obtain rfl : exponent = -(n : ℤ) := by simp_all; omega
    refine ⟨Nat.mul_pos h (Nat.two_pow_pos _), ?_⟩
    simp only [neg_neg, Int.toNat_natCast, Nat.pow_eq, zpow_neg, zpow_natCast]
    push_cast
    rw [div_mul_eq_div_div]
    ring

theorem log2_spec {n : Nat} (h : 0 < n) :
    (2 : ℚ) ^ (n.log2 : ℤ) ≤ n ∧ (n : ℚ) < 2 ^ ((n.log2 : ℤ) + 1) := by
  constructor
  · rw [zpow_natCast]
    exact_mod_cast Nat.log2_self_le h.ne'
  · rw [← Nat.cast_succ, zpow_natCast]
    exact_mod_cast Nat.lt_log2_self

/-- A positive fraction lies between the power of two that is found and the next one. -/
theorem floorLog2_spec {numerator denominator : Nat} (hn : 0 < numerator) (hd : 0 < denominator) :
    (2 : ℚ) ^ floorLog2 numerator denominator ≤ numerator / denominator ∧
      (numerator / denominator : ℚ) < 2 ^ (floorLog2 numerator denominator + 1) := by
  obtain ⟨hnLow, hnHigh⟩ := log2_spec hn
  obtain ⟨hdLow, hdHigh⟩ := log2_spec hd
  have hdPos : (0 : ℚ) < denominator := by exact_mod_cast hd
  have hhigh : (numerator / denominator : ℚ) <
      2 ^ ((numerator.log2 : ℤ) - denominator.log2 + 1) := by
    rw [div_lt_iff₀ hdPos]
    refine hnHigh.trans_le ?_
    have hsplit : (2 : ℚ) ^ ((numerator.log2 : ℤ) + 1) =
        2 ^ ((numerator.log2 : ℤ) - denominator.log2 + 1) * 2 ^ (denominator.log2 : ℤ) := by
      rw [← zpow_add₀ two_ne_zero]
      congr 1
      ring
    rw [hsplit]
    exact mul_le_mul_of_nonneg_left hdLow (by positivity)
  have hlow : (2 : ℚ) ^ ((numerator.log2 : ℤ) - denominator.log2 - 1) ≤
      numerator / denominator := by
    rw [le_div_iff₀ hdPos]
    refine le_trans ?_ hnLow
    have hsplit : (2 : ℚ) ^ (numerator.log2 : ℤ) =
        2 ^ ((numerator.log2 : ℤ) - denominator.log2 - 1) * 2 ^ ((denominator.log2 : ℤ) + 1) := by
      rw [← zpow_add₀ two_ne_zero]
      congr 1
      ring
    rw [hsplit]
    exact mul_le_mul_of_nonneg_left hdHigh.le (by positivity)
  unfold floorLog2
  generalize (numerator.log2 : ℤ) - denominator.log2 = guess at *
  obtain ⟨hunit, hscaled⟩ := scaleByTwo_spec numerator hd (-guess)
  have htest : (scaleByTwo numerator denominator (-guess)).2 ≤
      (scaleByTwo numerator denominator (-guess)).1 ↔
      (2 : ℚ) ^ guess ≤ numerator / denominator := by
    have hunitPos : (0 : ℚ) < (scaleByTwo numerator denominator (-guess)).2 := by
      exact_mod_cast hunit
    rw [← Nat.cast_le (α := ℚ), ← one_le_div hunitPos, hscaled, zpow_neg, ← div_eq_mul_inv,
      one_le_div (by positivity)]
  dsimp only
  split
  · exact ⟨htest.mp ‹_›, hhigh⟩
  · rw [sub_add_cancel]
    exact ⟨hlow, lt_of_not_ge (mt htest.mpr ‹_›)⟩

/-- A positive fraction is rounded to the nearest number. -/
theorem isNearest_ofRatio (hproper : format.IsProper) {numerator denominator : Nat}
    (hn : 0 < numerator) (hd : 0 < denominator) :
    format.IsNearest (numerator / denominator) (format.ofRatio numerator denominator) := by
  obtain ⟨hfloor, hceil⟩ := floorLog2_spec hn hd
  unfold ofRatio
  dsimp only
  generalize floorLog2 numerator denominator = log at *
  generalize hexponent : max (log - (format.precision - 1 : Nat)) format.leastExponent = exponent
  obtain ⟨shift, rfl⟩ :=
    Int.le.dest (hexponent ▸ le_max_right _ _ : format.leastExponent ≤ exponent)
  obtain ⟨hunit, hscaled⟩ := scaleByTwo_spec numerator hd (-(format.leastExponent + shift))
  obtain ⟨herror, heven⟩ := roundHalfEven_error
    (scaleByTwo numerator denominator (-(format.leastExponent + shift))).1 hunit
  rw [hscaled] at herror heven
  have hsub : (format.leastExponent + shift - format.leastExponent).toNat = shift := by simp
  have hbinade : Nat.pow 2 (format.precision - 1) = format.binade := rfl
  rw [hsub, hbinade]
  refine isNearest_min fun other =>
    outranks_of_significand hproper ?_ ?_ ?_ herror heven other
  · rw [zpow_neg, inv_mul_cancel_right₀ (by positivity)]
  · have hle : log + 1 ≤ 1 + (format.precision - 1 : Nat) + (format.leastExponent + shift) := by
      have hmax := hexponent ▸ le_max_left (log - (format.precision - 1 : Nat)) format.leastExponent
      omega
    rw [zpow_neg, ← div_eq_mul_inv, div_le_iff₀ (by positivity), cast_binade,
      ← zpow_one_add₀ two_ne_zero, ← zpow_add₀ two_ne_zero]
    exact hceil.le.trans (zpow_le_zpow_right₀ one_le_two hle)
  · rcases max_choice (log - (format.precision - 1 : Nat)) format.leastExponent with hmax | hmax
    · refine .inr ?_
      have heq : (format.precision - 1 : Nat) + (format.leastExponent + shift) = log := by omega
      rw [zpow_neg, ← div_eq_mul_inv, le_div_iff₀ (by positivity), cast_binade,
        ← zpow_add₀ two_ne_zero, heq]
      exact hfloor
    · exact .inl (by omega)

/-! ## Decimal numbers -/

theorem value_zero (format : BinaryFormat) : format.value 0 = 0 := by
  have h : format.value (0 + 0 * format.binade) = (0 : ℕ) * 2 ^ (format.leastExponent + (0 : ℕ)) :=
    value_add (Nat.zero_le _) (.inl rfl)
  simpa using h

theorem value_one (format : BinaryFormat) : format.value 1 = 2 ^ format.leastExponent := by
  have hpos := format.binade_pos
  have h : format.value (1 + 0 * format.binade) = (1 : ℕ) * 2 ^ (format.leastExponent + (0 : ℕ)) :=
    value_add (by omega) (.inl rfl)
  simpa using h

/-- Infinity counts as a power of two. -/
theorem value_infinity (hproper : format.IsProper) :
    format.value format.infinity = 2 ^ (2 ^ (format.exponentBits - 1)) := by
  have hpos := format.binade_pos
  have hhalf := Nat.two_pow_pos (format.exponentBits - 1)
  obtain ⟨n, hn⟩ := Nat.exists_eq_add_of_le' hproper.exponentBits
  have hfields : Nat.pow 2 format.exponentBits - 1 =
      1 + (2 * 2 ^ (format.exponentBits - 1) - 2) := by
    have hdouble : Nat.pow 2 format.exponentBits = 2 * 2 ^ (format.exponentBits - 1) := by
      rw [hn, Nat.add_sub_cancel, Nat.pow_eq, Nat.pow_succ, Nat.mul_comm]
    omega
  have hinfinity : format.infinity =
      format.binade + (2 * 2 ^ (format.exponentBits - 1) - 2) * format.binade := by
    rw [infinity, hfields, Nat.add_mul, Nat.one_mul]
    rfl
  have hexponent : ((format.precision - 1 : Nat) : ℤ) +
      (format.leastExponent + (2 * 2 ^ (format.exponentBits - 1) - 2 : Nat)) =
        (2 ^ (format.exponentBits - 1) : Nat) := by
    have hprecision := hproper.precision
    rw [leastExponent, Nat.pow_eq]
    omega
  rw [hinfinity, value_add (by omega) (.inr le_rfl), cast_binade,
    ← zpow_add₀ two_ne_zero, hexponent, zpow_natCast]

theorem isNearest_zero : format.IsNearest 0 0 where
  le_infinity := Nat.zero_le _
  nearest other _ := by
    rw [value_zero, sub_self, abs_zero]
    exact abs_nonneg _
  even _ _ _ _ := rfl

/-- What is less than half the least positive number is rounded to zero. -/
theorem isNearest_zero_of_lt (hx : 0 ≤ x) (hlt : 2 * x < 2 ^ format.leastExponent) :
    format.IsNearest x 0 where
  le_infinity := Nat.zero_le _
  nearest other _ := by
    rcases Nat.eq_zero_or_pos other with rfl | hpos
    · exact le_rfl
    · have hmono := format.strictMono_value.monotone hpos
      rw [value_one] at hmono
      rw [value_zero, zero_sub, abs_neg, abs_of_nonneg hx, abs_of_nonneg (by linarith)]
      linarith
  even _ _ _ _ := rfl

/-- A decimal number is rounded to the nearest number. -/
theorem isNearest_ofDecimal (hproper : format.IsProper) (digits : Nat) (exponent : ℤ) :
    format.IsNearest (digits * 10 ^ exponent) (format.ofDecimal digits exponent) := by
  unfold ofDecimal
  dsimp only
  by_cases hzero : digits = 0
  · rw [if_pos hzero, hzero, Nat.cast_zero, zero_mul]
    exact isNearest_zero
  have hdigits : 0 < digits := Nat.pos_of_ne_zero hzero
  rw [if_neg hzero]
  by_cases hwhole : 0 ≤ exponent
  · obtain ⟨n, rfl⟩ := Int.eq_ofNat_of_zero_le hwhole
    rw [if_pos hwhole, Int.toNat_natCast]
    split
    · rename_i hreach
      refine isNearest_infinity_of_le ?_
      have hle : 2 ^ (format.exponentBits - 1) ≤ n :=
        (Nat.pow_le_pow_right two_pos (Nat.sub_le _ _)).trans hreach.le
      calc format.value format.infinity = 2 ^ (2 ^ (format.exponentBits - 1)) :=
        value_infinity hproper
        _ ≤ 2 ^ n := pow_le_pow_right₀ one_le_two hle
        _ ≤ 10 ^ n := pow_le_pow_left₀ two_pos.le (by norm_num) n
        _ ≤ digits * 10 ^ n := le_mul_of_one_le_left (by positivity) (by exact_mod_cast hdigits)
        _ = digits * 10 ^ (n : ℤ) := by rw [zpow_natCast]
    · have h :=
        isNearest_ofRatio hproper (Nat.mul_pos hdigits (Nat.pow_pos (n := n) (by decide : 0 < 10)))
        Nat.one_pos
      rw [Nat.cast_one, div_one] at h
      push_cast at h
      rwa [zpow_natCast]
  · rw [if_neg hwhole]
    obtain ⟨n, hn⟩ := Int.eq_ofNat_of_zero_le (a := -exponent) (by omega)
    obtain rfl : exponent = -(n : ℤ) := by omega
    rw [neg_neg, Int.toNat_natCast, zpow_neg, zpow_natCast, ← div_eq_mul_inv]
    split
    · rename_i hreach
      refine isNearest_zero_of_lt (by positivity) ?_
      have hpower : ((2 ^ (digits.log2 + 2) : ℕ) : ℚ) ≤ 10 ^ n * 2 ^ format.leastExponent := by
        have hle : ((digits.log2 + 2 : ℕ) : ℤ) ≤ (3 * n : ℕ) + format.leastExponent := by
          have hhalf : 2 ^ (format.exponentBits - 1) ≤ Nat.pow 2 format.exponentBits :=
            Nat.pow_le_pow_right two_pos (Nat.sub_le _ _)
          rw [leastExponent, Nat.pow_eq]
          omega
        calc ((2 ^ (digits.log2 + 2) : ℕ) : ℚ) = 2 ^ ((digits.log2 + 2 : ℕ) : ℤ) := by
              rw [zpow_natCast]
              push_cast
              rfl
          _ ≤ 2 ^ ((3 * n : ℕ) + format.leastExponent) := zpow_le_zpow_right₀ one_le_two hle
          _ = 8 ^ n * 2 ^ format.leastExponent := by
              rw [zpow_add₀ two_ne_zero, zpow_natCast, pow_mul]
              norm_num
          _ ≤ 10 ^ n * 2 ^ format.leastExponent :=
              mul_le_mul_of_nonneg_right (pow_le_pow_left₀ (by norm_num) (by norm_num) n)
                (by positivity)
      have hlog : (digits : ℚ) < (2 ^ (digits.log2 + 1) : ℕ) := by exact_mod_cast Nat.lt_log2_self
      rw [← mul_div_assoc, div_lt_iff₀ (by positivity), mul_comm (2 ^ format.leastExponent)]
      refine lt_of_lt_of_le ?_ hpower
      rw [Nat.pow_succ, Nat.cast_mul, mul_comm]
      exact mul_lt_mul_of_pos_right hlog two_pos
    · have h := isNearest_ofRatio hproper hdigits (Nat.pow_pos (n := n) (by decide : 0 < 10))
      push_cast at h
      exact h

end BinaryFormat

end VisualBasic
