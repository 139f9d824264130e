import VisualBasic.Text.Character

/-!
# Keywords

The words that the grammar knows, each with its canonical spelling. Any letter case spells the same
keyword. The reserved ones can never be names; the others may also name a variable or a member.
-/

set_option autoImplicit false

namespace VisualBasic

inductive Keyword where
  | Alias | As | Attribute | Base | Binary | ByRef | ByVal | Call | Case | Compare | Const | Declare
  | Dim | Do | Each | Else | ElseIf | End | Enum | Error | Event | Exit | Explicit
  | protected False
  | For | Friend | Function | Get | Global | GoSub | GoTo | If | In | Is | Let | Lib | Local | Loop
  | Module | New | Next | Nothing | On
  | protected Option
  | Optional | ParamArray | Preserve | Private | Property | Public | RaiseEvent
  | ReDim | Rem | Resume
  | Return | Select | Set | Static | Step | Sub | Text | Then | To
  | protected True
  | protected «Type»
  | Until | Wend | While | With | WithEvents
  deriving DecidableEq, Repr

namespace Keyword

def spelling : Keyword → String
  | .Alias => "Alias"
  | .As => "As"
  | .Attribute => "Attribute"
  | .Base => "Base"
  | .Binary => "Binary"
  | .ByRef => "ByRef"
  | .ByVal => "ByVal"
  | .Call => "Call"
  | .Case => "Case"
  | .Compare => "Compare"
  | .Const => "Const"
  | .Declare => "Declare"
  | .Dim => "Dim"
  | .Do => "Do"
  | .Each => "Each"
  | .Else => "Else"
  | .ElseIf => "ElseIf"
  | .End => "End"
  | .Enum => "Enum"
  | .Error => "Error"
  | .Event => "Event"
  | .Exit => "Exit"
  | .Explicit => "Explicit"
  | .False => "False"
  | .For => "For"
  | .Friend => "Friend"
  | .Function => "Function"
  | .Get => "Get"
  | .Global => "Global"
  | .GoSub => "GoSub"
  | .GoTo => "GoTo"
  | .If => "If"
  | .In => "In"
  | .Is => "Is"
  | .Let => "Let"
  | .Lib => "Lib"
  | .Local => "Local"
  | .Loop => "Loop"
  | .Module => "Module"
  | .New => "New"
  | .Next => "Next"
  | .Nothing => "Nothing"
  | .On => "On"
  | .Option => "Option"
  | .Optional => "Optional"
  | .ParamArray => "ParamArray"
  | .Preserve => "Preserve"
  | .Private => "Private"
  | .Property => "Property"
  | .Public => "Public"
  | .RaiseEvent => "RaiseEvent"
  | .ReDim => "ReDim"
  | .Rem => "Rem"
  | .Resume => "Resume"
  | .Return => "Return"
  | .Select => "Select"
  | .Set => "Set"
  | .Static => "Static"
  | .Step => "Step"
  | .Sub => "Sub"
  | .Text => "Text"
  | .Then => "Then"
  | .To => "To"
  | .True => "True"
  | .«Type» => "Type"
  | .Until => "Until"
  | .Wend => "Wend"
  | .While => "While"
  | .With => "With"
  | .WithEvents => "WithEvents"

/-- Every keyword, in alphabetical order. -/
def all : List Keyword :=
  [.Alias, .As, .Attribute, .Base, .Binary, .ByRef, .ByVal, .Call, .Case, .Compare,
    .Const, .Declare, .Dim, .Do, .Each, .Else, .ElseIf, .End, .Enum, .Error, .Event, .Exit,
    .Explicit, .False, .For,
    .Friend, .Function, .Get, .Global, .GoSub, .GoTo, .If, .In, .Is, .Let, .Lib, .Local, .Loop,
    .Module, .New, .Next, .Nothing, .On, .Option, .Optional, .ParamArray, .Preserve, .Private,
    .Property, .Public, .RaiseEvent, .ReDim, .Rem, .Resume, .Return, .Select, .Set, .Static, .Step,
    .Sub, .Text, .Then, .To, .True, .«Type», .Until, .Wend, .While, .With, .WithEvents]

/-- The keywords that are refused as names. -/
def reserved : List Keyword :=
  [.For, .Each, .Step, .To, .Next, .End, .While, .Wend, .Loop, .Do, .Until, .If, .Else, .ElseIf,
    .Exit, .Select, .Case, .Public, .Private, .Global, .Dim, .Get, .Set, .Let, .On, .Local, .GoTo,
    .GoSub, .Return, .Call, .RaiseEvent, .Sub, .Function, .Event, .Property, .ByVal, .ByRef, .As,
    .In, .Option]

def isReserved (k : Keyword) : Bool := reserved.contains k

/-- The letters of the canonical spelling. -/
def letters (k : Keyword) : List Char := k.spelling.toList

/-- The keyword that a word spells, in any letter case. -/
def lookup (word : String) : Option Keyword :=
  all.find? fun k => sameLetters k.letters word.toList

theorem mem_all (k : Keyword) : k ∈ all := by
  cases k <;> decide

end Keyword

/-- A word is reserved when it spells a reserved keyword. -/
def isReservedWord (word : String) : Bool :=
  (Keyword.lookup word).any Keyword.isReserved

end VisualBasic
