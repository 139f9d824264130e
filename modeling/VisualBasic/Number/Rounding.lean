/-!
# Binary floating-point numbers from decimal text

A binary format is given by the width of its significand and of its exponent. `BinaryFormat.ofRatio`
gives the bits of the number of the format nearest to a positive fraction, a tie going to the even
neighbour; `BinaryFormat.ofDecimal` does so for digits with a power of ten. Both work on natural
numbers throughout, so each format is reached directly and nothing is rounded twice.
-/

set_option autoImplicit false

namespace VisualBasic

structure BinaryFormat where
  /-- Bits of the significand, the implied leading one included. -/
  precision : Nat
  exponentBits : Nat
  deriving DecidableEq, Repr

namespace BinaryFormat

def single : BinaryFormat := ⟨24, 8⟩

def double : BinaryFormat := ⟨53, 11⟩

variable (format : BinaryFormat)

/-- Exponent of the least positive number, a power of two. -/
def leastExponent : Int := 3 - Nat.pow 2 (format.exponentBits - 1) - format.precision

/-- The bits of infinity: a full exponent and nothing else. -/
def infinity : Nat := (Nat.pow 2 format.exponentBits - 1) * Nat.pow 2 (format.precision - 1)

def signBit : Nat := Nat.pow 2 (format.exponentBits + format.precision - 1)

end BinaryFormat

def roundHalfEven (numerator denominator : Nat) : Nat :=
  let quotient := numerator / denominator
  let twice := 2 * (numerator % denominator)
  if twice < denominator then quotient
  else if denominator < twice then quotient + 1
  else if quotient % 2 = 0 then quotient
  else quotient + 1

def scaleByTwo (numerator denominator : Nat) (exponent : Int) : Nat × Nat :=
  if 0 ≤ exponent then (numerator * Nat.pow 2 exponent.toNat, denominator)
  else (numerator, denominator * Nat.pow 2 (-exponent).toNat)

/-- The greatest power of two not above a positive fraction, by its exponent. -/
def floorLog2 (numerator denominator : Nat) : Int :=
  let guess : Int := (numerator.log2 : Int) - denominator.log2
  let (scaled, unit) := scaleByTwo numerator denominator (-guess)
  if unit ≤ scaled then guess else guess - 1

namespace BinaryFormat

/-- The bits of the number nearest to a positive fraction; past the greatest finite number,
infinity. The bits grow with the number, so a carry out of the significand lands where it should. -/
def ofRatio (format : BinaryFormat) (numerator denominator : Nat) : Nat :=
  let least := format.leastExponent
  let exponent := max (floorLog2 numerator denominator - (format.precision - 1 : Nat)) least
  let (scaled, unit) := scaleByTwo numerator denominator (-exponent)
  let bits :=
    roundHalfEven scaled unit + (exponent - least).toNat * Nat.pow 2 (format.precision - 1)
  min bits format.infinity

/-- The bits of the number nearest to `digits` times a power of ten. Powers of ten that put the
number far past either end of the format are not computed. -/
def ofDecimal (format : BinaryFormat) (digits : Nat) (exponent : Int) : Nat :=
  let reach := Nat.pow 2 format.exponentBits
  if digits = 0 then 0
  else if 0 ≤ exponent then
    if reach < exponent.toNat then format.infinity
    else format.ofRatio (digits * Nat.pow 10 exponent.toNat) 1
  else
    let places := (-exponent).toNat
    if digits.log2 + reach + format.precision < 3 * places then 0
    else format.ofRatio digits (Nat.pow 10 places)

def withSign (format : BinaryFormat) (negative : Bool) (bits : Nat) : Nat :=
  if negative then format.signBit + bits else bits

end BinaryFormat

end VisualBasic
