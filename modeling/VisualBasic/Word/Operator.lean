/-!
# Operators

The spellings of the language's operators. Expressions contain none of them; they are recognised
to say so where parsing stops at one, and six of them compare values in a `Case Is` clause.
-/

set_option autoImplicit false

namespace VisualBasic

/-- Comparison in a `Case Is` clause. -/
inductive Relation where
  | less
  | greater
  | lessEqual
  | greaterEqual
  | equal
  | notEqual
  deriving DecidableEq, Repr

def Relation.name : Relation → String
  | .less => "Less"
  | .greater => "Greater"
  | .lessEqual => "LessEqual"
  | .greaterEqual => "GreaterEqual"
  | .equal => "Equal"
  | .notEqual => "NotEqual"

inductive Operator where
  | relational (relation : Relation)
  | plus
  | minus
  | times
  | divide
  | integerDivide
  | power
  | concatenate
  | modulo
  | and
  | or
  | xor
  | not
  | eqv
  | imp
  | like
  | is
  deriving DecidableEq, Repr

namespace Operator

def name : Operator → String
  | .relational relation => relation.name
  | .plus => "Plus"
  | .minus => "Minus"
  | .times => "Mult"
  | .divide => "Div"
  | .integerDivide => "IntDiv"
  | .power => "Exp"
  | .concatenate => "Concat"
  | .modulo => "Mod"
  | .and => "And"
  | .or => "Or"
  | .xor => "Xor"
  | .not => "Not"
  | .eqv => "Eqv"
  | .imp => "Imp"
  | .like => "Like"
  | .is => "Is"

def relation? : Operator → Option Relation
  | .relational relation => some relation
  | _ => none

/-- The operators written with signs; a spelling stands before those that begin it. -/
def symbols : List (String × Operator) :=
  [("<=", .relational .lessEqual), (">=", .relational .greaterEqual),
    ("<>", .relational .notEqual), ("<", .relational .less), (">", .relational .greater),
    ("=", .relational .equal), ("+", .plus), ("-", .minus), ("*", .times), ("/", .divide),
    ("\\", .integerDivide), ("^", .power), ("&", .concatenate)]

/-- The operators written as words, in any letter case. -/
def words : List (String × Operator) :=
  [("Mod", .modulo), ("And", .and), ("Or", .or), ("Xor", .xor), ("Not", .not), ("Eqv", .eqv),
    ("Imp", .imp), ("Like", .like), ("Is", .is)]

end Operator

end VisualBasic
