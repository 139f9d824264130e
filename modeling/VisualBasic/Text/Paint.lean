/-!
# Coloured text

A piece of output is painted by a style: the escape sequence that switches the style on, the text,
and the sequence that resets it. A reset inside the text would end the style early, so the style is
switched on again after each one.
-/

set_option autoImplicit false

namespace VisualBasic

inductive Style where
  | bold
  | boldRed
  | boldGreen
  | brightBlue
  | brightYellow
  | brightGreen
  | brightCyan
  deriving DecidableEq, Repr

def Style.code : Style → String
  | .bold => "1"
  | .boldRed => "1;31"
  | .boldGreen => "1;32"
  | .brightBlue => "94"
  | .brightYellow => "93"
  | .brightGreen => "92"
  | .brightCyan => "96"

def Style.opening (style : Style) : String := "\x1b[" ++ style.code ++ "m"

/-- Writes `opening` again after each reset in the text. -/
def reopen (opening : List Char) : List Char → List Char
  | '\x1b' :: '[' :: '0' :: 'm' :: rest =>
    ['\x1b', '[', '0', 'm'] ++ opening ++ reopen opening rest
  | c :: rest => c :: reopen opening rest
  | [] => []

/-- Whether output carries colours. -/
inductive Palette where
  | plain
  | coloured
  deriving DecidableEq, Repr

/-- A text in a style; under the plain palette the text itself. -/
def Palette.paint (palette : Palette) (style : Style) (text : String) : String :=
  match palette with
  | .plain => text
  | .coloured =>
    style.opening ++ String.ofList (reopen style.opening.toList text.toList) ++ "\x1b[0m"

@[simp] theorem Palette.paint_plain (style : Style) (text : String) :
    Palette.plain.paint style text = text := rfl

end VisualBasic
