import VisualBasic.Cursor.Numeral

/-!
# The literals of numbers

Whatever the spelling of a number, its literal is a number and no other literal.
-/

set_option autoImplicit false

namespace VisualBasic

def Literal.isNumber : Literal → Bool
  | .single _ => true
  | .double _ => true
  | .long _ _ => true
  | .integer _ _ => true
  | _ => false

theorem Numeral.isNumber_of_literal {n : Numeral} {rest : List Char} {found : Literal × Nat}
    (h : n.literal? rest = some found) : found.1.isNumber = true := by
  have hinteger {value : Literal} (hv : n.toInteger? = some value) : value.isNumber = true := by
    simp only [toInteger?] at hv
    split at hv <;> cases hv
    rfl
  have hlong {value : Literal} (hv : n.toLong? = some value) : value.isNumber = true := by
    simp only [toLong?] at hv
    split at hv <;> cases hv
    rfl
  unfold literal? at h
  split at h
  · cases h
    rfl
  · cases h
    rfl
  · split at h
    · cases h
      rfl
    · split at h
      · obtain ⟨value, hv, rfl⟩ := Option.map_eq_some_iff.mp h
        exact hinteger hv
      · split at h
        · obtain ⟨value, hv, rfl⟩ := Option.map_eq_some_iff.mp h
          exact hlong hv
        · cases h
          cases hi : n.toInteger? with
          | some value => exact hinteger hi
          | none =>
            cases hl : n.toLong? with
            | some value => exact hlong hl
            | none => rfl

theorem isNumber_of_radixNumber {isNegative : Bool} {text : List Char} {found : Literal × Nat}
    (h : radixNumber isNegative text = some found) : found.1.isNumber = true := by
  cases text with
  | nil => contradiction
  | cons mark body =>
    obtain ⟨radix, _, h⟩ := Option.bind_eq_some_iff.mp h
    dsimp only at h
    split at h
    · contradiction
    · obtain ⟨⟨value, suffix⟩, hv, rfl⟩ := Option.map_eq_some_iff.mp h
      unfold Radix.literal? at hv
      split at hv
      · contradiction
      · split at hv
        · cases hv
          rfl
        · split at hv <;> cases hv
          rfl
        · split at hv <;> cases hv <;> rfl

theorem Cursor.isNumber_of_number {c d : Cursor} {literal : Literal}
    (h : c.number = some (literal, d)) : literal.isNumber = true := by
  obtain ⟨⟨value, n⟩, hv, h⟩ := Option.bind_eq_some_iff.mp h
  dsimp only at h
  split at h
  · contradiction
  · cases h
    unfold readNumber at hv
    split at hv
    · obtain ⟨found, hf, hv⟩ := Option.map_eq_some_iff.mp hv
      cases hv
      exact isNumber_of_radixNumber hf
    · obtain ⟨numeral, _, hv⟩ := Option.bind_eq_some_iff.mp hv
      obtain ⟨found, hf, hv⟩ := Option.map_eq_some_iff.mp hv
      cases hv
      exact Numeral.isNumber_of_literal hf

end VisualBasic
