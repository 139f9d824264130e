import VisualBasic.Text.Character

/-!
# Runs of characters

The longest run of characters of one class at the start of a text, its length, and what it does not
depend on: a character outside the class ends the run, whatever follows.
-/

set_option autoImplicit false

namespace VisualBasic

variable {p : Char → Bool}

@[simp] theorem take_length_takeWhile (p : Char → Bool) (text : List Char) :
    text.take (text.takeWhile p).length = text.takeWhile p := by
  induction text with
  | nil => rfl
  | cons c text ih => cases h : p c <;> simp [h, ih]

@[simp] theorem drop_length_takeWhile (p : Char → Bool) (text : List Char) :
    text.drop (text.takeWhile p).length = text.dropWhile p := by
  induction text with
  | nil => rfl
  | cons c text ih => cases h : p c <;> simp [h, ih]

/-- After the longest run no character of the class comes. -/
theorem any_head?_dropWhile (p : Char → Bool) (text : List Char) :
    (text.dropWhile p).head?.any p = false := by
  induction text with
  | nil => rfl
  | cons c text ih => cases h : p c <;> simp [h, ih]

theorem of_mem_takeWhile {text : List Char} {c : Char} (h : c ∈ text.takeWhile p) : p c = true :=
  List.all_eq_true.mp List.all_takeWhile c h

/-- A run ends where its text does, if no character of the class follows. -/
theorem takeWhile_append_of_any {more : List Char} (h : more.head?.any p = false)
    (text : List Char) : (text ++ more).takeWhile p = text.takeWhile p := by
  induction text with
  | nil => cases more <;> simp_all
  | cons c text ih => cases hc : p c <;> simp [hc, ih]

theorem drop_takeWhile_append (text more : List Char) :
    (text ++ more).drop (text.takeWhile p).length = text.drop (text.takeWhile p).length ++ more :=
  List.drop_append_of_le_length (List.takeWhile_prefix p).length_le

/-- A run of one class that a character outside the class follows. -/
theorem takeWhile_append_cons {run : List Char} (hrun : ∀ c ∈ run, p c = true) {c : Char}
    (hc : p c = false) (rest : List Char) : (run ++ c :: rest).takeWhile p = run := by
  rw [List.takeWhile_append_of_pos hrun, List.takeWhile_cons_of_neg (by simp [hc]), List.append_nil]

/-- A run that no character of the class follows. -/
theorem takeWhile_append_of_head {run rest : List Char} (hrun : ∀ c ∈ run, p c = true)
    (hrest : rest.head?.any p = false) : (run ++ rest).takeWhile p = run := by
  cases rest with
  | nil =>
    have h : (run ++ []).takeWhile p = run ++ [].takeWhile p := List.takeWhile_append_of_pos hrun
    simpa using h
  | cons c rest => exact takeWhile_append_cons hrun (by simpa using hrest) rest

/-- Of two runs at the start of a text, the one of the wider class is the longer. -/
theorem length_takeWhile_le {q : Char → Bool} (h : ∀ c, p c = true → q c = true)
    (text : List Char) : (text.takeWhile p).length ≤ (text.takeWhile q).length := by
  induction text with
  | nil => exact Nat.le_refl 0
  | cons c text ih =>
    cases hc : p c with
    | false => simp [hc]
    | true => simpa [hc, h c hc] using ih

end VisualBasic
