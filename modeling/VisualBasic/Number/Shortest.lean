import VisualBasic.Number.Rounding

/-!
# Shortest decimal text of a binary number

A finite number of a binary format is written with the fewest digits that read back as the number;
of several such texts the nearest is taken, and of two equally near ones the one with the even last
digit. A text reads back as the number when it lies between the midpoints to the number's two
neighbours, the midpoints included when the significand is even.
-/

set_option autoImplicit false

namespace VisualBasic

/-- The number `digits * 10 ^ exponent`. -/
structure Decimal where
  digits : Nat
  exponent : Int
  deriving DecidableEq, Repr

/-- The number `significand * 2 ^ exponent`. -/
structure Dyadic where
  significand : Nat
  exponent : Int
  deriving DecidableEq, Repr

namespace BinaryFormat

def magnitude (format : BinaryFormat) (bits : Nat) : Dyadic :=
  let unit := Nat.pow 2 (format.precision - 1)
  let field := bits / unit
  if field = 0 then ⟨bits % unit, format.leastExponent⟩
  else ⟨bits % unit + unit, format.leastExponent + (field - 1 : Nat)⟩

/-- Whether `multiple * 10 ^ power` lies between `low` and `high` quarters of `2 ^ exponent`. -/
def within (low high : Nat) (exponent : Int) (closed : Bool) (multiple : Nat) (power : Int) :
    Bool :=
  let point := multiple * Nat.pow 10 power.toNat * Nat.pow 2 (2 - exponent).toNat
  let scale := Nat.pow 10 (-power).toNat * Nat.pow 2 (exponent - 2).toNat
  if closed then low * scale ≤ point && point ≤ high * scale
  else low * scale < point && point < high * scale

/-- The neighbour of the value on the grid of multiples of `10 ^ power` that reads back as the
value: the nearer of the two if both do. -/
def onGrid (format : BinaryFormat) (value : Dyadic) (power : Int) : Option Decimal :=
  let m := value.significand
  let lowestOfBinade :=
    m = Nat.pow 2 (format.precision - 1) && format.leastExponent < value.exponent
  let low := if lowestOfBinade then 4 * m - 1 else 4 * m - 2
  let high := 4 * m + 2
  let isHit (multiple : Nat) : Bool := within low high value.exponent (m % 2 = 0) multiple power
  let numerator := m * Nat.pow 2 value.exponent.toNat * Nat.pow 10 (-power).toNat
  let denominator := Nat.pow 2 (-value.exponent).toNat * Nat.pow 10 power.toNat
  let below := numerator / denominator
  let nearest := roundHalfEven numerator denominator
  if isHit nearest then some ⟨nearest, power⟩
  else if isHit below then some ⟨below, power⟩
  else if isHit (below + 1) then some ⟨below + 1, power⟩
  else none

/-- The shortest decimal of a positive finite number. The search starts at a grid too coarse to
hold a nonzero neighbour of the value and stops at the first grid with a hit. -/
def shortest (format : BinaryFormat) (bits : Nat) : Decimal :=
  let value := format.magnitude bits
  let log : Int := value.significand.log2 + value.exponent
  let coarsest : Int := if 0 ≤ log then log / 3 + 1 else log * 3 / 10 + 1
  let grids := List.range (Nat.pow 2 format.exponentBits)
  (grids.findSome? fun (i : Nat) => format.onGrid value (coarsest - i)).getD ⟨0, 0⟩

end BinaryFormat

/-- How a number is laid out: positional up to `wholeDigits` digits before the point and down to
`leadingZeros` zeros after it, with a signed exponent otherwise. -/
structure DecimalLayout where
  wholeDigits : Nat
  leadingZeros : Nat

def DecimalLayout.text (layout : DecimalLayout) (value : Decimal) : String :=
  let digits := (toString value.digits).toList
  let count : Int := digits.length
  let point : Int := count + value.exponent
  let zeros (n : Nat) : List Char := List.replicate n '0'
  if 0 ≤ value.exponent ∧ point ≤ layout.wholeDigits then
    String.ofList (digits ++ zeros value.exponent.toNat ++ ['.', '0'])
  else if 0 < point ∧ point ≤ layout.wholeDigits then
    String.ofList (digits.take point.toNat ++ ['.'] ++ digits.drop point.toNat)
  else if -(layout.leadingZeros : Int) ≤ point ∧ point ≤ 0 then
    String.ofList (['0', '.'] ++ zeros (-point).toNat ++ digits)
  else
    let mantissa :=
      if digits.length = 1 then digits else digits.take 1 ++ ['.'] ++ digits.drop 1
    let exponent := point - 1
    String.ofList mantissa ++ (if 0 ≤ exponent then "e+" else "e") ++ toString exponent

namespace BinaryFormat

def unsignedBits (format : BinaryFormat) (bits : Nat) : Nat := bits % format.signBit

def isFinite (format : BinaryFormat) (bits : Nat) : Bool :=
  format.unsignedBits bits < format.infinity

def text (format : BinaryFormat) (layout : DecimalLayout) (bits : Nat) : String :=
  let unsigned := format.unsignedBits bits
  let sign := if format.signBit ≤ bits then "-" else ""
  sign ++ (if unsigned = 0 then "0.0" else layout.text (format.shortest unsigned))

end BinaryFormat

end VisualBasic
