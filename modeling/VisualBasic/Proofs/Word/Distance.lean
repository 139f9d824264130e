import Mathlib.Data.List.Infix
import Mathlib.Order.Bounds.Defs
import VisualBasic.Word.Distance

/-!
# The edit distance as the least number of edits

A row holds the distances of one text to every suffix of another, so the distance of two texts
follows from three distances with a first character less. As many edits as the distance turn one
text into the other, and no edit brings a text nearer to another by more than one. So the distance
is the least number of edits, wherever and in whatever order they are made.
-/

set_option autoImplicit false

namespace VisualBasic

variable {s t u : List Char} {m n : Nat}

/-! ## Rows -/

/-- The distance of two texts given by their characters, the first entry of their row. -/
def textDistance (s t : List Char) : Nat := (distances s t).headD 0

theorem editDistance_eq (s t : String) : editDistance s t = textDistance s.toList t.toList := rfl

theorem distances_cons_left (a : Char) (s t : List Char) :
    distances (a :: s) t = nextDistances a t (distances s t) := rfl

theorem distances_nil_cons (b : Char) (t : List Char) :
    distances [] (b :: t) = (t.length + 1) :: distances [] t := by
  simp [distances, List.range_succ]

theorem distances_nil_right (s : List Char) : distances s [] = [s.length] := by
  induction s with
  | nil => rfl
  | cons a s ih =>
    rw [distances_cons_left, ih]
    rfl

theorem nextDistances_ne_nil {row : List Nat} (h : row ≠ []) (a : Char) (t : List Char) :
    nextDistances a t row ≠ [] := by
  unfold nextDistances
  split
  · exact List.cons_ne_nil _ _
  · simpa using h

/-- A row starts with a distance. -/
theorem exists_distances_eq (s t : List Char) : ∃ row, distances s t = textDistance s t :: row := by
  have hne : distances s t ≠ [] := by
    induction s with
    | nil => simp [distances]
    | cons a s ih => exact nextDistances_ne_nil ih a t
  obtain ⟨distance, row, hrow⟩ := List.exists_cons_of_ne_nil hne
  exact ⟨row, by rw [textDistance, hrow, List.headD_cons]⟩

/-- The next row to a longer text, where the row before is known. -/
theorem nextDistances_cons (a b : Char) (s t : List Char) (p : Nat) :
    nextDistances a (b :: t) (p :: distances s t) =
      min (min (p + 1) (textDistance (a :: s) t + 1))
          (if a = b then textDistance s t else textDistance s t + 1) ::
        distances (a :: s) t := by
  obtain ⟨row, hrow⟩ := exists_distances_eq s t
  rw [textDistance, distances_cons_left, hrow]
  rfl

/-- The row to a longer text goes on with the row to the shorter one. -/
theorem distances_cons_right (s : List Char) (b : Char) (t : List Char) :
    distances s (b :: t) = textDistance s (b :: t) :: distances s t := by
  have hrest : ∃ distance, distances s (b :: t) = distance :: distances s t := by
    induction s with
    | nil => exact ⟨_, distances_nil_cons b t⟩
    | cons a s ih =>
      obtain ⟨distance, ih⟩ := ih
      exact ⟨_, by rw [distances_cons_left, ih, nextDistances_cons]⟩
  obtain ⟨distance, hrest⟩ := hrest
  rw [textDistance, hrest, List.headD_cons]

/-- A row holds the distances to every suffix, the longest first. -/
theorem distances_eq_map_tails (s t : List Char) :
    distances s t = t.tails.map (textDistance s) := by
  induction t with
  | nil => simp [textDistance, distances_nil_right]
  | cons b t ih => rw [distances_cons_right, ih, List.tails_cons, List.map_cons]

/-! ## First characters -/

@[simp] theorem textDistance_nil_left (t : List Char) : textDistance [] t = t.length := by
  cases t with
  | nil => rfl
  | cons b t => rw [textDistance, distances_nil_cons, List.headD_cons, List.length_cons]

@[simp] theorem textDistance_nil_right (s : List Char) : textDistance s [] = s.length := by
  rw [textDistance, distances_nil_right, List.headD_cons]

theorem textDistance_cons_cons (a b : Char) (s t : List Char) :
    textDistance (a :: s) (b :: t) =
      min (min (textDistance s (b :: t) + 1) (textDistance (a :: s) t + 1))
        (if a = b then textDistance s t else textDistance s t + 1) := by
  rw [textDistance, distances_cons_left, distances_cons_right, nextDistances_cons, List.headD_cons]

theorem textDistance_self (s : List Char) : textDistance s s = 0 := by
  induction s with
  | nil => rfl
  | cons a s ih => simp [textDistance_cons_cons, ih]

theorem textDistance_cons_left_le (a : Char) (s t : List Char) :
    textDistance (a :: s) t ≤ textDistance s t + 1 := by
  cases t with
  | nil => simp
  | cons b t =>
    rw [textDistance_cons_cons]
    omega

theorem textDistance_cons_right_le (s : List Char) (b : Char) (t : List Char) :
    textDistance s (b :: t) ≤ textDistance s t + 1 := by
  cases s with
  | nil => simp
  | cons a s =>
    rw [textDistance_cons_cons]
    omega

theorem textDistance_cons_cons_le (a b : Char) (s t : List Char) :
    textDistance (a :: s) (b :: t) ≤ textDistance s t + 1 := by
  rw [textDistance_cons_cons]
  split <;> omega

theorem textDistance_le_max (s t : List Char) : textDistance s t ≤ max s.length t.length := by
  induction s generalizing t with
  | nil => simp
  | cons a s ih =>
    cases t with
    | nil => simp
    | cons b t =>
      have hdiagonal := textDistance_cons_cons_le a b s t
      have hshorter := ih t
      simp only [List.length_cons]
      omega

/-! ## Edits -/

/-- One character is inserted, deleted or replaced. -/
inductive Edit : List Char → List Char → Prop
  | insert (before after : List Char) (c : Char) : Edit (before ++ after) (before ++ c :: after)
  | delete (before after : List Char) (c : Char) : Edit (before ++ c :: after) (before ++ after)
  | replace (before after : List Char)
      (c d : Char) : Edit (before ++ c :: after) (before ++ d :: after)

/-- So many edits, one after the other, turn a text into another. -/
inductive Edits : Nat → List Char → List Char → Prop
  | refl (s : List Char) : Edits 0 s s
  | step {n : Nat} {s t u : List Char} (first : Edit s t) (others : Edits n t u) : Edits (n + 1) s u

theorem Edit.symm (h : Edit s t) : Edit t s := by
  cases h with
  | insert before after c => exact .delete before after c
  | delete before after c => exact .insert before after c
  | replace before after c d => exact .replace before after d c

theorem Edit.cons (h : Edit s t) (a : Char) : Edit (a :: s) (a :: t) := by
  cases h with
  | insert before after c => exact .insert (a :: before) after c
  | delete before after c => exact .delete (a :: before) after c
  | replace before after c d => exact .replace (a :: before) after c d

theorem Edit.length_le (h : Edit s t) : s.length ≤ t.length + 1 := by
  cases h <;> simp only [List.length_append, List.length_cons] <;> omega

namespace Edits

theorem single (h : Edit s t) : Edits 1 s t := .step h (.refl t)

theorem trans (h : Edits m s t) (h' : Edits n t u) : Edits (m + n) s u := by
  induction h with
  | refl => rwa [Nat.zero_add]
  | step first _ ih =>
    rw [Nat.succ_add_eq_add_succ]
    exact .step first (ih h')

theorem symm (h : Edits n s t) : Edits n t s := by
  induction h with
  | refl s => exact .refl s
  | step first _ ih => exact ih.trans (single first.symm)

theorem cons (h : Edits n s t) (a : Char) : Edits n (a :: s) (a :: t) := by
  induction h with
  | refl s => exact .refl (a :: s)
  | step first _ ih => exact .step (first.cons a) ih

theorem min (hm : Edits m s t) (hn : Edits n s t) : Edits (Min.min m n) s t := by
  rcases Nat.le_total m n with hle | hle
  · rwa [Nat.min_eq_left hle]
  · rwa [Nat.min_eq_right hle]

theorem length_le (h : Edits n s t) : s.length ≤ t.length + n := by
  induction h with
  | refl => exact Nat.le_refl _
  | step first _ ih =>
    have hfirst := first.length_le
    omega

theorem zero_iff : Edits 0 s t ↔ s = t := by
  constructor
  · rintro ⟨⟩
    rfl
  · rintro rfl
    exact .refl s

end Edits

/-! ## As many edits as the distance -/

theorem edits_textDistance (s t : List Char) : Edits (textDistance s t) s t := by
  induction s generalizing t with
  | nil =>
    induction t with
    | nil => exact .refl []
    | cons b t ih =>
      rw [textDistance_nil_left] at ih ⊢
      exact .step (.insert [] [] b) (ih.cons b)
  | cons a s ihs =>
    induction t with
    | nil =>
      have hshorter := ihs []
      rw [textDistance_nil_right] at hshorter ⊢
      exact .step (.delete [] s a) hshorter
    | cons b t iht =>
      have hdelete : Edits (textDistance s (b :: t) + 1) (a :: s) (b :: t) :=
        .step (.delete [] s a) (ihs (b :: t))
      have hinsert : Edits (textDistance (a :: s) t + 1) (a :: s) (b :: t) :=
        .step (.insert [] (a :: s) b) (iht.cons b)
      have hdiagonal : Edits (if a = b then textDistance s t else textDistance s t + 1)
          (a :: s) (b :: t) := by
        split
        · rename_i heq
          exact heq ▸ (ihs t).cons a
        · exact .step (.replace [] s a b) ((ihs t).cons b)
      rw [textDistance_cons_cons]
      exact (hdelete.min hinsert).min hdiagonal

/-! ## No fewer edits -/

/-- Texts that are near stay so behind one more character. -/
theorem textDistance_cons_le_succ (a : Char) (h : ∀ u, textDistance s u ≤ textDistance t u + 1)
    (u : List Char) :
    textDistance (a :: s) u ≤ textDistance (a :: t) u + 1 := by
  induction u with
  | nil => simpa using h []
  | cons b u ih =>
    have hbelow := h (b :: u)
    have hdiagonal := h u
    rw [textDistance_cons_cons, textDistance_cons_cons]
    split <;> omega

theorem textDistance_le_cons_succ (a : Char) (s u : List Char) :
    textDistance s u ≤ textDistance (a :: s) u + 1 := by
  induction u with
  | nil => simp; omega
  | cons b u ih =>
    have hright := textDistance_cons_right_le s b u
    rw [textDistance_cons_cons]
    split <;> omega

theorem textDistance_replace_le_succ (a b : Char) (s u : List Char) :
    textDistance (a :: s) u ≤ textDistance (b :: s) u + 1 := by
  induction u with
  | nil => simp
  | cons c u ih =>
    rw [textDistance_cons_cons, textDistance_cons_cons]
    split <;> split <;> omega

/-- An edit brings a text nearer to another by one at most. -/
theorem textDistance_le_succ_of_edit (h : Edit s t) (u : List Char) :
    textDistance s u ≤ textDistance t u + 1 := by
  cases h with
  | insert before after c =>
    induction before generalizing u with
    | nil => exact textDistance_le_cons_succ c after u
    | cons a before ih => exact textDistance_cons_le_succ a ih u
  | delete before after c =>
    induction before generalizing u with
    | nil => exact textDistance_cons_left_le c after u
    | cons a before ih => exact textDistance_cons_le_succ a ih u
  | replace before after c d =>
    induction before generalizing u with
    | nil => exact textDistance_replace_le_succ c d after u
    | cons a before ih => exact textDistance_cons_le_succ a ih u

theorem textDistance_le_of_edits (h : Edits n s t) : textDistance s t ≤ n := by
  induction h with
  | refl s => exact (textDistance_self s).le
  | step first _ ih => exact (textDistance_le_succ_of_edit first _).trans (Nat.succ_le_succ ih)

/-! ## The least number -/

theorem textDistance_eq_zero_iff : textDistance s t = 0 ↔ s = t := by
  constructor
  · intro h
    have hedits := edits_textDistance s t
    rwa [h, Edits.zero_iff] at hedits
  · rintro rfl
    exact textDistance_self s

theorem textDistance_comm (s t : List Char) : textDistance s t = textDistance t s :=
  Nat.le_antisymm (textDistance_le_of_edits (edits_textDistance t s).symm)
    (textDistance_le_of_edits (edits_textDistance s t).symm)

theorem textDistance_triangle (s t u : List Char) :
    textDistance s u ≤ textDistance s t + textDistance t u :=
  textDistance_le_of_edits ((edits_textDistance s t).trans (edits_textDistance t u))

theorem length_le_add_textDistance (s t : List Char) : s.length ≤ t.length + textDistance s t :=
  (edits_textDistance s t).length_le

/-- The edit distance is the least number of edits, and so a distance between texts that lies
between the difference of their lengths and the greater length. -/
theorem isLeast_editDistance (s t : String) :
    IsLeast {n | Edits n s.toList t.toList} (editDistance s t) ∧
      (editDistance s t = 0 ↔ s = t) ∧ editDistance s t = editDistance t s ∧
      (∀ u, editDistance s u ≤ editDistance s t + editDistance t u) ∧
      max s.length t.length - min s.length t.length ≤ editDistance s t ∧
      editDistance s t ≤ max s.length t.length := by
  have hleft := length_le_add_textDistance s.toList t.toList
  have hright := length_le_add_textDistance t.toList s.toList
  rw [textDistance_comm] at hright
  simp only [editDistance_eq, ← String.length_toList]
  refine ⟨⟨edits_textDistance _ _, fun _ => textDistance_le_of_edits⟩, ?_, textDistance_comm _ _,
    fun u => textDistance_triangle _ _ _, by omega, textDistance_le_max _ _⟩
  rw [textDistance_eq_zero_iff, String.toList_inj]

example : editDistance "kitten" "sitting" = 3 := by decide

end VisualBasic
