import VisualBasic.Cursor.Blank

/-!
# Quoted strings

A string stands between quotes, on one line; a quote inside it is written twice.
-/

set_option autoImplicit false

namespace VisualBasic

/-- The string whose opening quote comes just before the text, and the number of characters up to
and including its closing quote. -/
def quotedBody : List Char → Option (List Char × Nat)
  | [] => none
  | '"' :: '"' :: rest => (quotedBody rest).map fun (value, n) => ('"' :: value, n + 2)
  | '"' :: _ => some ([], 1)
  | c :: rest =>
    if isBreak c then none
    else (quotedBody rest).map fun (value, n) => (c :: value, n + 1)

def Cursor.quoted (c : Cursor) : Option (String × Cursor) :=
  let token := c.skipBlanks
  match token.rest with
  | '"' :: body =>
    (quotedBody body).map fun (value, n) => (String.ofList value, token.skip (n + 1))
  | _ => none

theorem Cursor.reaches_of_quoted {c d : Cursor} {value : String}
    (h : c.quoted = some (value, d)) : Reaches c d := by
  simp only [Cursor.quoted] at h
  split at h
  · obtain ⟨found, _, hd⟩ := Option.map_eq_some_iff.mp h
    cases hd
    exact (reaches_skipBlanks c).trans (reaches_skip _ _)
  · contradiction

end VisualBasic
