import VisualBasic.Word.Distance
import VisualBasic.Word.Keyword

/-!
# Suggestions for misspelled words

A candidate is worth suggesting when its distance to the word, letter case aside, is within the
word's tolerance; of several the nearest is suggested, and of equally near ones the first.
-/

set_option autoImplicit false

namespace VisualBasic

/-- One edit in a word of fewer than five characters, three in a longer one. -/
def tolerance (word : String) : Nat := if word.length < 5 then 1 else 3

/-- Edit distance without regard to the case of ASCII letters. -/
def foldedDistance (s t : String) : Nat := editDistance s.toLower t.toLower

/-- The first of the candidates nearest to `target`, if they are near enough. -/
def closestBy {α : Type} (spelling : α → String) (target : String) : List α → Option α
  | [] => none
  | candidate :: rest =>
    let distance := foldedDistance target (spelling candidate)
    match closestBy spelling target rest with
    | some best =>
      if distance ≤ foldedDistance target (spelling best) then some candidate else some best
    | none => if distance ≤ tolerance target then some candidate else none

def closest (target : String) (candidates : List String) : Option String :=
  closestBy id target candidates

/-- The keyword that a word may have been meant for; a keyword is no misspelling. -/
def suggestKeyword (word : String) : Option Keyword :=
  if word.isEmpty || (Keyword.lookup word).isSome then none
  else closestBy Keyword.spelling word Keyword.all

/-- Whether a word that is not the keyword is near enough to have been meant for it. -/
def isNearMiss (word : String) (k : Keyword) : Bool :=
  let distance := foldedDistance word k.spelling
  0 < distance && distance ≤ tolerance word

/-! ## Letter case -/

section LetterCase

variable {word other : String}

theorem tolerance_eq_of_toLower_eq (h : word.toLower = other.toLower) :
    tolerance word = tolerance other := by
  have hlength : (word.map Char.toLower).length = (other.map Char.toLower).length :=
    congrArg String.length h
  rw [String.length_map, String.length_map] at hlength
  rw [tolerance, tolerance, hlength]

theorem foldedDistance_eq_of_toLower_eq (h : word.toLower = other.toLower) (candidate : String) :
    foldedDistance word candidate = foldedDistance other candidate := by
  rw [foldedDistance, h, foldedDistance]

/-- The letter case of a word makes no difference to what is suggested for it. -/
theorem closestBy_eq_of_toLower_eq {α : Type} {spelling : α → String}
    (h : word.toLower = other.toLower)
    (candidates : List α) :
    closestBy spelling word candidates = closestBy spelling other candidates := by
  induction candidates with
  | nil => rfl
  | cons candidate rest ih =>
    simp only [closestBy, ih, foldedDistance_eq_of_toLower_eq h, tolerance_eq_of_toLower_eq h]

end LetterCase

end VisualBasic
