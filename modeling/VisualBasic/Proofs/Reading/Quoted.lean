import Mathlib.Algebra.Group.Nat.Even
import VisualBasic.Cursor.Scan
import VisualBasic.Proofs.Scanner.Token
import VisualBasic.Proofs.Writing.Literal
import VisualBasic.Proofs.WellFormed.Token

/-!
# Strings as they are spelled

A string is read off its one spelling: its characters with every quote doubled, between quotes. A
run of quotes is split from the left into pairs, so a string is closed by the first quote without a
partner; where the line ends before such a quote, there is no string.
-/

set_option autoImplicit false

namespace VisualBasic

variable {line rest text : List Char} {found : List Char × Nat}

/-- What is read as a string is the string with its quotes doubled, and a quote that no other
follows. -/
theorem eq_doubleQuotes_of_quotedBody (h : quotedBody text = some found) :
    text = doubleQuotes found.1 ++ '"' :: text.drop found.2 ∧ found.2 =
    (doubleQuotes found.1).length + 1 ∧
      (text.drop found.2).head? ≠ some '"' := by
  fun_induction quotedBody text generalizing found with
  | case1 => contradiction
  | case2 rest ih =>
    obtain ⟨inner, hinner, rfl⟩ := Option.map_eq_some_iff.mp h
    obtain ⟨htext, hwidth, hend⟩ := ih hinner
    refine ⟨?_, by simp [doubleQuotes_quote, hwidth], hend⟩
    rw [doubleQuotes_quote, List.cons_append, List.cons_append, List.drop_succ_cons,
      List.drop_succ_cons, ← htext]
  | case3 rest hquote =>
    cases h
    refine ⟨rfl, rfl, fun hhead => ?_⟩
    obtain ⟨tail, htail⟩ := List.head?_eq_some_iff.mp hhead
    exact hquote tail htail
  | case4 => contradiction
  | case5 c rest _ hquote _ ih =>
    obtain ⟨inner, hinner, rfl⟩ := Option.map_eq_some_iff.mp h
    obtain ⟨htext, hwidth, hend⟩ := ih hinner
    refine ⟨?_, by simp [doubleQuotes_cons hquote, hwidth], hend⟩
    rw [doubleQuotes_cons hquote, List.cons_append, List.drop_succ_cons, ← htext]

/-! ## The closing quote -/

/-- Some quote of a line closes a string: an even number of quotes comes before it, and none right
after it. -/
def HasClosingQuote (line : List Char) : Prop :=
  ∃ before after, line = before ++ '"' :: after ∧ Even (before.count '"') ∧ after.head? ≠ some '"'

theorem not_hasClosingQuote_nil : ¬ HasClosingQuote [] := by
  rintro ⟨before, after, hline, -⟩
  simp at hline

theorem hasClosingQuote_cons {c : Char} (hquote : c ≠ '"') :
    HasClosingQuote (c :: line) ↔ HasClosingQuote line := by
  constructor
  · rintro ⟨before, after, hline, heven, hafter⟩
    rcases List.cons_eq_append_iff.mp hline with ⟨-, hclose⟩ | ⟨others, rfl, hothers⟩
    · exact absurd (List.cons.inj hclose).1.symm hquote
    · exact ⟨others, after, hothers, by rwa [List.count_cons_of_ne hquote] at heven, hafter⟩
  · rintro ⟨before, after, rfl, heven, hafter⟩
    exact ⟨c :: before, after, rfl, by rwa [List.count_cons_of_ne hquote], hafter⟩

/-- A pair of quotes closes nothing. -/
theorem hasClosingQuote_pair : HasClosingQuote ('"' :: '"' :: line) ↔ HasClosingQuote line := by
  have hcount (before : List Char) : Even (('"' :: '"' :: before).count '"') ↔
      Even (before.count '"') := by
    simp [Nat.even_add_one]
  constructor
  · rintro ⟨before, after, hline, heven, hafter⟩
    rcases List.cons_eq_append_iff.mp hline with ⟨-, hclose⟩ | ⟨others, rfl, hothers⟩
    · obtain rfl := (List.cons.inj hclose).2
      exact absurd rfl hafter
    rcases List.cons_eq_append_iff.mp hothers with ⟨rfl, -⟩ | ⟨others, rfl, hrest⟩
    · exact absurd heven (by decide)
    · exact ⟨others, after, hrest, (hcount others).mp heven, hafter⟩
  · rintro ⟨before, after, rfl, heven, hafter⟩
    exact ⟨'"' :: '"' :: before, after, rfl, (hcount before).mpr heven, hafter⟩

/-- There is a string exactly where a quote closes it on its line. -/
theorem isSome_quotedBody_iff :
    (quotedBody text).isSome ↔ HasClosingQuote (text.takeWhile (! isBreak ·)) := by
  fun_induction quotedBody text with
  | case1 => simp [not_hasClosingQuote_nil]
  | case2 rest ih => rw [Option.isSome_map, ih]; exact hasClosingQuote_pair.symm
  | case3 rest hquote =>
    have hhead : (rest.takeWhile (! isBreak ·)).head? ≠ some '"' := by
      intro hhead
      obtain ⟨line, hline⟩ := List.head?_eq_some_iff.mp hhead
      obtain ⟨more, hrest⟩ := List.takeWhile_prefix (l := rest) (! isBreak ·)
      exact hquote (line ++ more) (by rw [← hrest, hline, List.cons_append])
    exact iff_of_true rfl ⟨[], rest.takeWhile (! isBreak ·), rfl, by simp, hhead⟩
  | case4 c rest _ _ hbreak => simp [hbreak, not_hasClosingQuote_nil]
  | case5 c rest _ hquote hbreak ih =>
    rw [Option.isSome_map, ih, List.takeWhile_cons_of_pos (by simpa using hbreak),
      hasClosingQuote_cons hquote]

namespace Cursor

variable {c d : Cursor} {value : String}

theorem quoted_eq (c : Cursor) {body : List Char} (h : c.skipBlanks.rest = '"' :: body) :
    c.quoted = (quotedBody body).map
      fun found => (String.ofList found.1, c.skipBlanks.skip (found.2 + 1)) := by
  simp only [quoted, h]

theorem quoted_eq_some_iff :
    c.quoted = some (value, d) ↔
      IsUnbroken value ∧ d = c.skipBlanks.skip (quotedText value.toList).length ∧
        c.skipBlanks.rest = quotedText value.toList ++ d.rest ∧ d.rest.head? ≠ some '"' := by
  constructor
  · intro h
    refine ⟨isUnbroken_of_quoted h, ?_⟩
    simp only [quoted] at h
    split at h
    · rename_i body hbody
      obtain ⟨found, hfound, hvalue⟩ := Option.map_eq_some_iff.mp h
      cases hvalue
      obtain ⟨htext, hwidth, hend⟩ := eq_doubleQuotes_of_quotedBody hfound
      have hrest : (c.skipBlanks.skip (found.2 + 1)).rest = body.drop found.2 := by
        rw [rest_skip, hbody, List.drop_succ_cons]
      rw [hrest, String.toList_ofList, quotedText_append, ← htext]
      refine ⟨?_, hbody, hend⟩
      simp [quotedText, hwidth]
    · contradiction
  · rintro ⟨hvalue, rfl, htoken, hend⟩
    have hall : value.toList.all (! isBreak ·) = true := List.all_eq_true.mpr fun char hchar => by
      rw [hvalue char hchar, Bool.not_false]
    rw [quotedText_append] at htoken
    rw [quoted_eq c htoken, quotedBody_doubleQuotes hall hend, Option.map_some,
      String.ofList_toList]
    simp [quotedText]

theorem quoted_eq_none_iff :
    c.quoted = none ↔
      c.skipBlanks.rest.head? ≠ some '"' ∨
        ¬ HasClosingQuote ((c.skipBlanks.rest.drop 1).takeWhile (! isBreak ·)) := by
  by_cases hhead : c.skipBlanks.rest.head? = some '"'
  · obtain ⟨body, hbody⟩ := List.head?_eq_some_iff.mp hhead
    rw [quoted_eq c hbody, Option.map_eq_none_iff, ← Option.not_isSome_iff_eq_none,
      isSome_quotedBody_iff, hbody]
    simp
  · simp only [quoted]
    split
    · rename_i body hbody
      exact absurd (by rw [hbody]; rfl) hhead
    · simp [hhead]

end Cursor

/-- Strings are decoded exactly: a string without line breaks is found by its spelling, where no
quote follows, and by nothing else; and where no quote comes next, or none closes a string on its
line, nothing is found and the place is left as it was. -/
theorem Scanner.quoted_decodes (c : Cursor) :
    (∀ value d, quoted.run c = ⟨some value, d, []⟩ ↔
      IsUnbroken value ∧ d = c.skipBlanks.skip (quotedText value.toList).length ∧
        c.skipBlanks.rest = quotedText value.toList ++ d.rest ∧ d.rest.head? ≠ some '"') ∧
    (quoted.run c = ⟨none, c, []⟩ ↔
      c.skipBlanks.rest.head? ≠ some '"' ∨
        ¬ HasClosingQuote ((c.skipBlanks.rest.drop 1).takeWhile (! isBreak ·))) := by
  refine ⟨fun _ _ => ?_, ?_⟩
  · rw [run_quoted, Scanned.taken_eq_some_iff, Cursor.quoted_eq_some_iff]
  · rw [run_quoted, Scanned.taken_eq_none_iff, Cursor.quoted_eq_none_iff]

end VisualBasic
