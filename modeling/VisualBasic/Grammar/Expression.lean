import VisualBasic.Cursor.Comment
import VisualBasic.Cursor.Numeral
import VisualBasic.Cursor.Quoted
import VisualBasic.Parse.Basic
import VisualBasic.Tree.Expression

/-!
# The grammar of expressions

An expression is met or not; none of its readers fails for good. A call is tried before a reference,
so `f(1)` is a call. The reader of arguments and all that contain arguments take the reader of
expressions as a parameter, and `expression` ties the knot.
-/

set_option autoImplicit false

namespace VisualBasic

namespace Grammar

/-- A number, a quoted string, `True`, `False` or `Nothing`. -/
def literal (c : Cursor) : Option (Literal × Cursor) :=
  c.number
    |>.or (c.quoted.map fun (value, after) => (.string value, after))
    |>.or ((c.keyword .True).map (Literal.boolean true, ·))
    |>.or ((c.keyword .False).map (Literal.boolean false, ·))
    |>.or ((c.keyword .Nothing).map (Literal.nothing, ·))

/-- One or more arguments and the closing parenthesis. Where they are not well formed, the place up
to which they are. -/
def moreArguments (expression : Reader Expression) (c : Cursor) :
    Except Cursor (List Expression × Cursor) :=
  match expression c with
  | none => .error c
  | some (argument, d) =>
    match d.symbol ')' with
    | some closed => .ok ([argument], closed)
    | none =>
      match d.symbol ',' with
      | none => .error d
      | some next =>
        if next.rest.length < c.rest.length then
          (moreArguments expression next).map fun (rest, closed) => (argument :: rest, closed)
        else .error next
termination_by c.rest.length

def arguments (expression : Reader Expression) (c : Cursor) :
    Except Cursor (List Expression × Cursor) :=
  match c.symbol ')' with
  | some closed => .ok ([], closed)
  | none => moreArguments expression c

/-- A name with its arguments in parentheses, which may be empty. -/
def call (expression : Reader Expression) (c : Cursor) : Option (Call × Cursor) := do
  let start := c.skipBlanks
  let (name, d) ← start.identifier
  let d ← d.symbol '('
  let (arguments, d) ← (arguments expression d).toOption
  return (⟨name, arguments, start.spanTo d⟩, d)

def segment (expression : Reader Expression) (c : Cursor) : Option (Segment × Cursor) := do
  let (segment, d) ← ((call expression c).map fun (call, d) => (Segment.call call, d)).or
    (c.identifier.map fun (name, d) => (Segment.name name, d))
  let d ← d.adjacent '.'
  return (segment, d)

/-- As many segments as there are. -/
def segments (expression : Reader Expression) (c : Cursor) : List Segment × Cursor :=
  match segment expression c with
  | none => ([], c)
  | some (head, d) =>
    if d.rest.length < c.rest.length then
      let (tail, e) := segments expression d
      (head :: tail, e)
    else ([head], d)
termination_by c.rest.length

/-- A leading dot, if there is one, and the segments. An empty qualifier leaves the place as it
is. -/
def qualifier (expression : Reader Expression) (c : Cursor) : Qualifier × Cursor :=
  let start := c.skipBlanks
  let dot := start.adjacent '.'
  let (found, after) := segments expression (dot.getD start)
  if dot.isNone && found.isEmpty then (.none start.offset, c)
  else (⟨dot.isSome, found, start.spanTo after⟩, after)

def reference (expression : Reader Expression) (c : Cursor) : Option (Reference × Cursor) := do
  let start := c.skipBlanks
  let (qualifier, d) := qualifier expression start
  let (name, d) ← d.identifier
  return (⟨qualifier, name, start.spanTo d⟩, d)

/-- An expression whose parts are read by a given reader of expressions. -/
def expressionWith (expression : Reader Expression) (c : Cursor) : Option (Expression × Cursor) :=
  let start := c.skipBlanks
  ((literal start).map fun (value, d) => (Expression.literal value (start.spanTo d), d))
    |>.or ((call expression start).map fun (call, d) => (.call call, d))
    |>.or ((reference expression start).map fun (target, d) => (.reference target, d))

def expression (c : Cursor) : Option (Expression × Cursor) :=
  expressionWith (fun d => if d.rest.length < c.rest.length then expression d else none) c
termination_by c.rest.length

end Grammar

end VisualBasic
