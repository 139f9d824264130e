import VisualBasic.Cursor.Word
import VisualBasic.Number.Rounding
import VisualBasic.Tree.Literal

/-!
# Numbers

A number has an optional sign. In decimal, digits with a fraction or an exponent make a real number
and digits alone an integer; a suffix fixes the type, which otherwise is the 32-bit real type, or
the narrowest type that holds the integer. After `&H` come hexadecimal digits, after `&O` or `&0`
octal ones; these spell the bits of a 16-bit or 32-bit integer in two's complement. A number is not
met where a word character follows it.
-/

set_option autoImplicit false

namespace VisualBasic

/-- A sign, if there is one, and the text after it. -/
def splitSign : List Char → List Char × List Char
  | '-' :: rest => (['-'], rest)
  | '+' :: rest => (['+'], rest)
  | rest => ([], rest)

/-- A point with the digits after it, if there are any, and the text after them. -/
def splitFraction : List Char → List Char × List Char
  | '.' :: rest =>
    let digits := rest.takeWhile Char.isDigit
    if digits.isEmpty then ([], '.' :: rest) else ('.' :: digits, rest.drop digits.length)
  | rest => ([], rest)

/-- The exponent mark with its sign and digits, if there are any, and the text after them. -/
def splitExponent : List Char → List Char × List Char
  | [] => ([], [])
  | c :: rest =>
    if c = 'e' || c = 'E' then
      let (sign, unsigned) := splitSign rest
      let digits := unsigned.takeWhile Char.isDigit
      if digits.isEmpty then ([], c :: rest)
      else (c :: (sign ++ digits), unsigned.drop digits.length)
    else ([], c :: rest)

/-- The parts of a decimal number as they are spelled. -/
structure Numeral where
  sign : List Char
  whole : List Char
  /-- Starts with the point. -/
  fraction : List Char
  /-- Starts with the exponent mark. -/
  exponent : List Char
  deriving DecidableEq, Repr

namespace Numeral

/-- The longest numeral that a text starts with, and the text after it. -/
def read (text : List Char) : Option (Numeral × List Char) :=
  let (sign, unsigned) := splitSign text
  let whole := unsigned.takeWhile Char.isDigit
  let (fraction, rest) := splitFraction (unsigned.drop whole.length)
  if whole.isEmpty && fraction.isEmpty then none
  else
    let (exponent, rest) := splitExponent rest
    some (⟨sign, whole, fraction, exponent⟩, rest)

def spelling (n : Numeral) : List Char := n.sign ++ n.whole ++ n.fraction ++ n.exponent

def isNegative (n : Numeral) : Bool := n.sign = ['-']

def isReal (n : Numeral) : Bool := ! n.fraction.isEmpty || ! n.exponent.isEmpty

end Numeral

/-- The value of a digit in any radix up to 16. -/
def digitValue (c : Char) : Nat :=
  if c.isDigit then c.toNat - '0'.toNat
  else if 'a' ≤ c ∧ c ≤ 'f' then c.toNat - 'a'.toNat + 10
  else c.toNat - 'A'.toNat + 10

/-- The value of digits in a radix, the most significant first. -/
def digitsValue (radix : Nat) (digits : List Char) : Nat :=
  digits.foldl (fun value c => value * radix + digitValue c) 0

namespace Numeral

def wholeValue (n : Numeral) : Int :=
  let value : Int := digitsValue 10 n.whole
  if n.isNegative then -value else value

def exponentValue (n : Numeral) : Int :=
  let (sign, digits) := splitSign (n.exponent.drop 1)
  let value : Int := digitsValue 10 digits
  if sign = ['-'] then -value else value

/-- The bits of the number of a binary format nearest to the value. -/
def bits (n : Numeral) (format : BinaryFormat) : Nat :=
  let places := n.fraction.drop 1
  format.withSign n.isNegative
    (format.ofDecimal (digitsValue 10 (n.whole ++ places)) (n.exponentValue - places.length))

def toSingle (n : Numeral) : Literal := .single (UInt32.ofNat (n.bits .single))

def toDouble (n : Numeral) : Literal := .double (UInt64.ofNat (n.bits .double))

def toInteger? (n : Numeral) : Option Literal :=
  let value := n.wholeValue
  if -32768 ≤ value ∧ value < 32768 then some (.integer .decimal (Int16.ofInt value)) else none

def toLong? (n : Numeral) : Option Literal :=
  let value := n.wholeValue
  if -2147483648 ≤ value ∧ value < 2147483648 then some (.long .decimal (Int32.ofInt value))
  else none

/-- The literal that a numeral stands for before a given text, and the length of its suffix. -/
def literal? (n : Numeral) (rest : List Char) : Option (Literal × Nat) :=
  match rest.head? with
  | some '!' => some (n.toSingle, 1)
  | some '#' => some (n.toDouble, 1)
  | suffix =>
    if n.isReal then some (n.toSingle, 0)
    else if suffix = some '%' then n.toInteger?.map (·, 1)
    else if suffix = some '&' then n.toLong?.map (·, 1)
    else some ((n.toInteger?.or n.toLong?).getD n.toDouble, 0)

end Numeral

def isHexDigit (c : Char) : Bool :=
  c.isDigit || ('a' ≤ c && c ≤ 'f') || ('A' ≤ c && c ≤ 'F')

def isOctalDigit (c : Char) : Bool := '0' ≤ c && c ≤ '7'

/-- The radix that a letter after an ampersand announces. -/
def radixOfMark (c : Char) : Option Radix :=
  if c = 'H' || c = 'h' then some .hexadecimal
  else if c = 'O' || c = 'o' || c = '0' then some .octal
  else none

namespace Radix

def base : Radix → Nat
  | .decimal => 10
  | .hexadecimal => 16
  | .octal => 8

def isDigit : Radix → Char → Bool
  | .decimal => Char.isDigit
  | .hexadecimal => isHexDigit
  | .octal => isOctalDigit

/-- The integer with the given bits, negated after a minus sign. -/
def longLiteral (radix : Radix) (isNegative : Bool) (bits : Nat) : Literal :=
  .long radix (Int32.ofInt (if isNegative then -(bits : Int) else bits))

def integerLiteral (radix : Radix) (isNegative : Bool) (bits : Nat) : Literal :=
  .integer radix (Int16.ofInt (if isNegative then -(bits : Int) else bits))

/-- The literal of given bits before a given text, and the length of its suffix. Without a suffix
the bits choose the narrower type that holds them. -/
def literal? (radix : Radix) (isNegative : Bool) (bits : Nat) (rest : List Char) :
    Option (Literal × Nat) :=
  if 4294967296 ≤ bits then none
  else
    match rest.head? with
    | some '&' => some (radix.longLiteral isNegative bits, 1)
    | some '%' =>
      if 65536 ≤ bits then none else some (radix.integerLiteral isNegative bits, 1)
    | _ =>
      if 65536 ≤ bits then some (radix.longLiteral isNegative bits, 0)
      else some (radix.integerLiteral isNegative bits, 0)

end Radix

/-- A number that is announced by an ampersand, with its length after the ampersand. -/
def radixNumber (isNegative : Bool) : List Char → Option (Literal × Nat)
  | [] => none
  | mark :: body =>
    (radixOfMark mark).bind fun radix =>
      let digits := body.takeWhile radix.isDigit
      if digits.isEmpty then none
      else
        (radix.literal? isNegative (digitsValue radix.base digits) (body.drop digits.length)).map
          fun (literal, suffix) => (literal, 1 + digits.length + suffix)

/-- The number that a text starts with, and its length. -/
def readNumber (text : List Char) : Option (Literal × Nat) :=
  match splitSign text with
  | (sign, '&' :: body) =>
    (radixNumber (sign = ['-']) body).map fun (literal, n) => (literal, sign.length + 1 + n)
  | _ =>
    (Numeral.read text).bind fun (numeral, rest) =>
      (numeral.literal? rest).map fun (literal, suffix) =>
        (literal, numeral.spelling.length + suffix)

def Cursor.number (c : Cursor) : Option (Literal × Cursor) :=
  let token := c.skipBlanks
  (readNumber token.rest).bind fun (literal, n) =>
    let after := token.skip n
    if after.isAtWordChar then none else some (literal, after)

end VisualBasic
