/-!
# Literal constants

A literal keeps what its spelling fixes: the width of a number, the radix in which an integer is
written, and the characters of a string. Floating-point numbers are held by their bits.
-/

set_option autoImplicit false

namespace VisualBasic

inductive Radix where
  | decimal
  | hexadecimal
  | octal
  deriving DecidableEq, Repr

inductive Literal where
  /-- A 32-bit floating-point number. -/
  | single (bits : UInt32)
  /-- A 64-bit floating-point number. -/
  | double (bits : UInt64)
  | long (radix : Radix) (value : Int32)
  | integer (radix : Radix) (value : Int16)
  | string (value : String)
  | boolean (value : Bool)
  | nothing
  deriving DecidableEq, Repr

/-- The value of an integer literal of either width. -/
def Literal.wholeNumber? : Literal → Option Int32
  | .long _ value => some value
  | .integer _ value => some value.toInt32
  | _ => none

end VisualBasic
