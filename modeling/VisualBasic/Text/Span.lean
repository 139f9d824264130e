import VisualBasic.Text.Character

/-!
# Byte ranges of a text

Positions are byte offsets into the UTF-8 form of the source. `splitBytes` cuts a text at an offset,
moving back to the start of a character that the offset would divide; `Span.slice` gives the text
under a range and nothing for a range that does not fall on characters.
-/

set_option autoImplicit false

namespace VisualBasic

/-- The text before and after byte `n`. -/
def splitBytes (n : Nat) : List Char → List Char × List Char
  | [] => ([], [])
  | c :: rest =>
    if n < c.utf8Size then ([], c :: rest)
    else
      let (before, after) := splitBytes (n - c.utf8Size) rest
      (c :: before, after)

@[simp] theorem splitBytes_append (n : Nat) (text : List Char) :
    (splitBytes n text).1 ++ (splitBytes n text).2 = text := by
  induction text generalizing n with
  | nil => rfl
  | cons c rest ih =>
    unfold splitBytes
    split
    · rfl
    · simpa using ih _

theorem byteLength_splitBytes_le (n : Nat) (text : List Char) :
    byteLength (splitBytes n text).1 ≤ n := by
  induction text generalizing n with
  | nil => simp [splitBytes]
  | cons c rest ih =>
    unfold splitBytes
    split
    · simp
    · have := ih (n - c.utf8Size)
      simp only [byteLength_cons]
      omega

/-- Splitting where a part ends gives that part back. -/
theorem splitBytes_byteLength (before after : List Char) :
    splitBytes (byteLength before) (before ++ after) = (before, after) := by
  induction before with
  | nil =>
    cases after with
    | nil => rfl
    | cons c rest => simp [splitBytes, Char.utf8Size_pos]
  | cons c rest ih =>
    have h : ¬ c.utf8Size + byteLength rest < c.utf8Size := by omega
    simp [splitBytes, h, ih]

/-- The bytes from `start` up to but not including `stop`. -/
structure Span where
  start : Nat
  stop : Nat
  deriving DecidableEq, Repr

/-- The text under a span; nothing when the span runs backwards, past the end or through a
character. -/
def Span.slice (span : Span) (source : String) : String :=
  let (before, rest) := splitBytes span.start source.toList
  let (inside, _) := splitBytes (span.stop - span.start) rest
  if byteLength before = span.start ∧ span.start ≤ span.stop ∧
      byteLength inside = span.stop - span.start then
    String.ofList inside
  else ""

/-- A span that covers a part of the source gives exactly that part. -/
theorem Span.slice_ofList (before inside after : List Char) :
    Span.slice ⟨byteLength before, byteLength before + byteLength inside⟩
      (String.ofList (before ++ inside ++ after)) = String.ofList inside := by
  simp [Span.slice, splitBytes_byteLength]

end VisualBasic
