import VisualBasic.Cursor.Numeral
import VisualBasic.Scanner.Token

/-!
# Scanning numbers

A number is scanned part by part: the sign, the digits, the fraction and the exponent, or a mark of
a radix and its digits, and last the suffix that fixes the type. An exponent mark without digits
after it belongs to what follows the number.
-/

set_option autoImplicit false

namespace VisualBasic

namespace Scanner

def sign : Scanner (List Char) := do
  match ← peekChar with
  | some '-' =>
    bump
    return ['-']
  | some '+' =>
    bump
    return ['+']
  | _ => return []

def digits (isDigit : Char → Bool) : Scanner (List Char) := do
  let start ← place
  skipWhile isDigit
  passedSince start

/-- A point that a digit follows, with all digits after it. -/
def fraction : Scanner (List Char) := do
  let text ← rest
  if text.head? = some '.' && (text.drop 1).head?.any Char.isDigit then
    bump
    let places ← digits Char.isDigit
    return '.' :: places
  else return []

/-- An exponent mark with its sign and digits. -/
def exponent : Scanner (List Char) := do
  match ← peekChar with
  | none => return []
  | some c =>
    if c = 'e' || c = 'E' then
      let mark ← place
      bump
      let sign ← sign
      let digits ← digits Char.isDigit
      if digits.isEmpty then
        moveTo mark
        return []
      else return c :: (sign ++ digits)
    else return []

/-- The suffix of a decimal number, and what the number stands for. -/
def suffixed (n : Numeral) : Scanner (Option Literal) := do
  match ← peekChar with
  | some '!' =>
    bump
    return some n.toSingle
  | some '#' =>
    bump
    return some n.toDouble
  | suffix =>
    if n.isReal then return some n.toSingle
    else if suffix = some '%' then
      bump
      return n.toInteger?
    else if suffix = some '&' then
      bump
      return n.toLong?
    else return some ((n.toInteger?.or n.toLong?).getD n.toDouble)

def decimalNumber (sign : List Char) : Scanner (Option Literal) := do
  let whole ← digits Char.isDigit
  let fraction ← fraction
  if whole.isEmpty && fraction.isEmpty then return none
  else
    let exponent ← exponent
    suffixed ⟨sign, whole, fraction, exponent⟩

/-- The suffix of a number in a radix, and what its bits stand for. -/
def suffixedBits (radix : Radix) (isNegative : Bool) (bits : Nat) : Scanner (Option Literal) := do
  match ← peekChar with
  | some '&' =>
    bump
    return some (radix.longLiteral isNegative bits)
  | some '%' =>
    bump
    if 65536 ≤ bits then return none else return some (radix.integerLiteral isNegative bits)
  | _ =>
    if 65536 ≤ bits then return some (radix.longLiteral isNegative bits)
    else return some (radix.integerLiteral isNegative bits)

/-- A number in a radix, from the ampersand that announces it. -/
def radixNumber (isNegative : Bool) : Scanner (Option Literal) := do
  bump
  match (← peekChar).bind radixOfMark with
  | none => return none
  | some radix =>
    bump
    let digits ← digits radix.isDigit
    let bits := digitsValue radix.base digits
    if digits.isEmpty then return none
    else if 4294967296 ≤ bits then return none
    else suffixedBits radix isNegative bits

def numberBody : Scanner (Option Literal) := do
  let sign ← sign
  if (← peekChar) = some '&' then radixNumber (sign = ['-']) else decimalNumber sign

/-- A number that no word character follows. -/
def number : Scanner (Option Literal) := do
  let start ← place
  skipBlanks
  let literal ← numberBody
  let isJoined := (← peekChar).any isWordChar
  if literal.isNone || isJoined then
    moveTo start
    return none
  else return literal

end Scanner

end VisualBasic
