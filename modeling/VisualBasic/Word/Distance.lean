/-!
# Edit distance

The distance of two texts is the least number of insertions, deletions and substitutions of single
characters that turn one into the other. `distances s t` holds the distance of `s` to every suffix
of `t`, the longest first, so one row is enough to compute the next.
-/

set_option autoImplicit false

namespace VisualBasic

/-- The row for `a :: s` from the row for `s`. -/
def nextDistances (a : Char) : List Char → List Nat → List Nat
  | b :: t, p :: q :: row =>
    let rest := nextDistances a t (q :: row)
    let change := if a = b then q else q + 1
    min (min (p + 1) (rest.headD 0 + 1)) change :: rest
  | _, row => row.map (· + 1)

def distances (s t : List Char) : List Nat :=
  s.foldr (fun a row => nextDistances a t row) ((List.range (t.length + 1)).reverse)

def editDistance (s t : String) : Nat :=
  (distances s.toList t.toList).headD 0

end VisualBasic
