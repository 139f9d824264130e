import VisualBasic.Proofs.Text.Ending
import VisualBasic.Text.Location

/-!
# Places in joined texts

After a text that ends with a line, a place of the second text lies on a later line, in the same
column and with the same text around it.
-/

set_option autoImplicit false

namespace VisualBasic

/-- The line breaks of a text; CR LF counts once. -/
def lineBreaks : List Char → Nat
  | [] => 0
  | '\r' :: '\n' :: rest => lineBreaks rest + 1
  | '\r' :: rest => lineBreaks rest + 1
  | '\n' :: rest => lineBreaks rest + 1
  | _ :: rest => lineBreaks rest

theorem lineBreaks_cons (c : Char) (rest : List Char) :
    lineBreaks (c :: rest) = lineBreaks rest + if endsLine c rest then 1 else 0 := by
  by_cases hn : c = '\n'
  · subst hn
    rfl
  · by_cases hr : c = '\r'
    · subst hr
      cases rest with
      | nil => rfl
      | cons d rest =>
        by_cases hd : d = '\n'
        · subst hd
          rfl
        · rw [lineBreaks]
          · simp [endsLine, hd]
          · simpa using hd
    · rw [lineBreaks]
      · simp [endsLine, hn, hr]
      all_goals simp_all

theorem splitBytes_append_byteLength (before after : List Char) (n : Nat) :
    splitBytes (byteLength before + n) (before ++ after) =
      (before ++ (splitBytes n after).1, (splitBytes n after).2) := by
  induction before with
  | nil => simp
  | cons c rest ih =>
    have hlt : ¬ c.utf8Size + byteLength rest + n < c.utf8Size := by omega
    have hsub : c.utf8Size + byteLength rest + n - c.utf8Size = byteLength rest + n := by omega
    rw [List.cons_append, splitBytes, byteLength_cons, if_neg hlt, hsub, ih]
    rfl

namespace EndsWithLine

variable {text : List Char}

theorem endsLine_append {c : Char} (h : EndsWithLine (c :: text)) (more : List Char) :
    endsLine c (text ++ more) = endsLine c text := by
  by_cases hc : c = '\n'
  · simp [endsLine, hc]
  · rw [endsLine, endsLine, (h.tail hc).head?_append]

/-- Past a text that ends with a line, the first column of a later line is reached. -/
theorem advance_append (h : EndsWithLine text) (more : List Char) (place : Position) (n : Nat) :
    Position.advance place (byteLength text + n) (text ++ more) =
      Position.advance ⟨place.line + lineBreaks text, 1⟩ n more := by
  induction text generalizing place with
  | nil => exact absurd rfl h.ne_nil
  | cons c rest ih =>
    have hlt : ¬ c.utf8Size + byteLength rest + n < c.utf8Size := by omega
    have hsub : c.utf8Size + byteLength rest + n - c.utf8Size = byteLength rest + n := by omega
    rw [List.cons_append, Position.advance, byteLength_cons, if_neg hlt, hsub,
      h.endsLine_append, lineBreaks_cons]
    by_cases hrest : rest = []
    · subst hrest
      obtain rfl : c = '\n' := Option.some.inj h
      simp [endsLine, lineBreaks]
    · have htail : EndsWithLine rest := by
        have := h.drop (n := 1) (by simpa using List.length_pos_iff.mpr hrest)
        simpa using this
      cases hends : endsLine c rest with
      | true =>
        have hline : place.line + 1 + lineBreaks rest = place.line + (lineBreaks rest + 1) := by
          omega
        rw [if_pos rfl, if_pos rfl, ih htail, hline]
      | false =>
        rw [if_neg (by decide), if_neg (by decide), ih htail]
        rfl

theorem lineAround_append (h : EndsWithLine text) (before after : List Char) :
    lineAround (text ++ before) after = lineAround before after := by
  have hstop (reversed : List Char) (hr : text.reverse = '\n' :: reversed) (line : List Char) :
      (line ++ text.reverse).takeWhile (! isBreak ·) = line.takeWhile (! isBreak ·) := by
    rw [List.takeWhile_append, hr]
    split
    · rename_i hline
      rw [(List.takeWhile_prefix _).eq_of_length hline]
      simp [isBreak]
    · rfl
  obtain ⟨initial, rfl⟩ := List.getLast?_eq_some_iff.mp h
  rw [lineAround, lineAround, List.reverse_append, hstop initial.reverse (by simp)]

end EndsWithLine

/-- Lines are counted from the line of the place. -/
theorem Position.advance_line (k line column n : Nat) (text : List Char) :
    Position.advance ⟨line + k, column⟩ n text =
      { Position.advance ⟨line, column⟩ n text with
        line := (Position.advance ⟨line, column⟩ n text).line + k } := by
  induction text generalizing line column n with
  | nil => rfl
  | cons c rest ih =>
    simp only [Position.advance]
    split
    · rfl
    · split
      · rw [Nat.add_right_comm, ih]
      · exact ih line (column + 1) _

end VisualBasic
