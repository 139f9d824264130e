import VisualBasic.Number.Shortest

/-!
# JSON values and their indented text

A value keeps the order of its fields and the width of its floating-point numbers. `Json.pretty`
writes one field or element a line, indented by two blanks a level; empty arrays and objects stay
on their line, and a number that is not finite is written as null.
-/

set_option autoImplicit false

namespace VisualBasic

inductive Json where
  | null
  | bool (value : Bool)
  | integer (value : Int)
  /-- A 32-bit floating-point number by its bits. -/
  | single (bits : UInt32)
  /-- A 64-bit floating-point number by its bits. -/
  | double (bits : UInt64)
  | text (value : String)
  | array (elements : List Json)
  | object (fields : List (String × Json))

namespace Json

def ofOption {α : Type} (encode : α → Json) : Option α → Json
  | none => .null
  | some value => encode value

def ofList {α : Type} (encode : α → Json) (values : List α) : Json :=
  .array (values.map encode)

/-- A value marked with the kind of thing it is. -/
def tagged (tag : String) (value : Json) : Json := .object [(tag, value)]

/-- The value under the mark, or the value itself where there is none. -/
def untagged : Json → Json
  | .object [(_, value)] => value
  | value => value

def hexDigit (n : Nat) : Char :=
  (['0', '1', '2', '3', '4', '5', '6', '7', '8', '9', 'a', 'b', 'c', 'd', 'e', 'f'][n]?).getD '0'

/-- Quotes, backslashes and control characters are escaped, and nothing else. -/
def escape (c : Char) : List Char :=
  if c = '"' then ['\\', '"']
  else if c = '\\' then ['\\', '\\']
  else if c = '\n' then ['\\', 'n']
  else if c = '\r' then ['\\', 'r']
  else if c = '\t' then ['\\', 't']
  else if c = '\x08' then ['\\', 'b']
  else if c = '\x0c' then ['\\', 'f']
  else if c.toNat < 0x20 then
    ['\\', 'u', '0', '0', hexDigit (c.toNat / 16), hexDigit (c.toNat % 16)]
  else [c]

def quote (value : String) : String :=
  String.ofList (['"'] ++ value.toList.flatMap escape ++ ['"'])

/-- Numbers of 32 bits are positional with up to 13 digits before the point and 5 zeros after it. -/
def singleLayout : DecimalLayout := ⟨13, 5⟩

/-- Numbers of 64 bits are positional with up to 16 digits before the point and 4 zeros after it. -/
def doubleLayout : DecimalLayout := ⟨16, 4⟩

def floatText (format : BinaryFormat) (layout : DecimalLayout) (bits : Nat) : String :=
  if format.isFinite bits then format.text layout bits else "null"

/-- A bracketed list of lines one level deeper than its brackets. -/
def bracketed (opening closing : String) (level : Nat) (lines : List String) : String :=
  let indent (n : Nat) : String := "".pushn ' ' (2 * n)
  if lines.isEmpty then opening ++ closing
  else
    opening ++ "\n" ++ ",\n".intercalate (lines.map (indent (level + 1) ++ ·)) ++ "\n" ++
      indent level ++ closing

mutual

/-- The text of a value whose first character stands at the given level. -/
def prettyAt (level : Nat) : Json → String
  | .null => "null"
  | .bool value => if value then "true" else "false"
  | .integer value => toString value
  | .single bits => floatText .single singleLayout bits.toNat
  | .double bits => floatText .double doubleLayout bits.toNat
  | .text value => quote value
  | .array elements => bracketed "[" "]" level (prettyElements (level + 1) elements)
  | .object fields => bracketed "\x7b" "\x7d" level (prettyFields (level + 1) fields)

def prettyElements (level : Nat) : List Json → List String
  | [] => []
  | element :: rest => prettyAt level element :: prettyElements level rest

def prettyFields (level : Nat) : List (String × Json) → List String
  | [] => []
  | (name, value) :: rest =>
    (quote name ++ ": " ++ prettyAt level value) :: prettyFields level rest

end

def pretty (value : Json) : String := value.prettyAt 0

end Json

end VisualBasic
