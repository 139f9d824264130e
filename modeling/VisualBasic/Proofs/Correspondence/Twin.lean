import VisualBasic.Proofs.Correspondence.Alignment
import VisualBasic.Proofs.Correspondence.Statement

/-!
# Parsing the same text elsewhere

Two places in any sources are twins when the same text follows them and the blanks at its start are
as many. What comes before them does not matter otherwise: the same tokens are met at both, and so
are the same constructs, up to spans.
-/

set_option autoImplicit false

namespace VisualBasic

/-- What comes before a text matters only to an underscore that ends its line. -/
theorem blankWidth_eq {text : List Char}
    (h : ∀ rest, text = '_' :: rest → continuationWidth rest = none)
    (flag other : Bool) : blankWidth flag text = blankWidth other text := by
  cases text with
  | nil => simp [blankWidth]
  | cons char rest =>
    cases hblank : isBlank char with
    | true => rw [blankWidth_blank hblank, blankWidth_blank hblank]
    | false =>
      have hstill (flag : Bool) : blankWidth flag (char :: rest) = 0 :=
        blankWidth_cons_eq_zero hblank fun _ hunder => h rest (by rw [hunder])
      rw [hstill, hstill]

/-- The same text with the same blanks comes next. -/
structure Twin (c d : Cursor) : Prop where
  rest : c.rest = d.rest
  blanks : blankWidth c.afterBlank c.rest = blankWidth d.afterBlank d.rest

namespace Twin

variable {c d : Cursor}

/-- Twins stay twins over the same number of characters. -/
theorem skip (h : Twin c d) (n : Nat) : Twin (c.skip n) (d.skip n) := by
  have hrest : (c.skip n).rest = (d.skip n).rest := by
    rw [Cursor.rest_skip, Cursor.rest_skip, h.rest]
  refine ⟨hrest, ?_⟩
  cases hlast : (c.rest.take n).getLast? with
  | some char =>
    have hlast' : (d.rest.take n).getLast? = some char := h.rest ▸ hlast
    rw [hrest, Cursor.afterBlank_skip, Cursor.afterBlank_skip, hlast, hlast']
    rfl
  | none =>
    have hnil : c.rest.take n = [] := List.getLast?_eq_none_iff.mp hlast
    rcases List.take_eq_nil_iff.mp hnil with rfl | hnil
    · exact h.blanks
    · have hnil' : d.rest = [] := h.rest ▸ hnil
      simp [hnil, hnil', blankWidth]

theorem skipBlanks (h : Twin c d) : Twin c.skipBlanks d.skipBlanks := by
  rw [Cursor.skipBlanks, Cursor.skipBlanks, h.blanks]
  exact h.skip _

theorem abreast (h : Twin c d) : Abreast Twin c d (c.rest.takeWhile (! isBreak ·))
    (c.rest.dropWhile (! isBreak ·)) (c.rest.dropWhile (! isBreak ·)) where
  left := List.takeWhile_append_dropWhile.symm
  right := h.rest ▸ List.takeWhile_append_dropWhile.symm
  apart := (atLineEnd_dropWhile c.rest).apart
  apart' := (atLineEnd_dropWhile c.rest).apart
  ends := Iff.rfl
  along _ _ := h.skip _

theorem lineBreak (h : Twin c d) : Option.Rel Twin c.lineBreak d.lineBreak := by
  rw [Cursor.lineBreak, Cursor.lineBreak, h.rest]
  split
  · exact .none
  · exact .some (h.skip _)

theorem blankLine (h : Twin c d) : Option.Rel Twin c.blankLine d.blankLine := by
  rw [Cursor.blankLine, Cursor.blankLine, h.rest]
  exact (h.skip _).lineBreak

theorem quoted (h : Twin c d) (hc : c.skipBlanks = c) (hd : d.skipBlanks = d) :
    Option.Rel (Valued (Level Twin c d)) c.quoted d.quoted :=
  h.abreast.quoted hc hd (atLineEnd_dropWhile c.rest) (atLineEnd_dropWhile c.rest)

theorem comment (h : Twin c d) (hc : c.skipBlanks = c) (hd : d.skipBlanks = d) :
    Option.Rel (Valued Twin) c.comment d.comment :=
  h.abreast.comment hc hd (atLineEnd_dropWhile c.rest) (atLineEnd_dropWhile c.rest)
    fun char hchar => by
    simpa using of_mem_takeWhile hchar

end Twin

def Alignment.twins : Alignment where
  meets := Twin
  begins _ := True
  shorter_iff h h' := by rw [h.rest, h'.rest]
  abreast h := ⟨_, _, _, h.abreast⟩
  skipBlanks := Twin.skipBlanks
  lineBreak := Twin.lineBreak
  blankLine := Twin.blankLine
  quoted := Twin.quoted
  comment h hc hd _ := h.comment hc hd

/-- Twins in any sources, up to spans. -/
def Correspondence.twins : Correspondence := .aligned .twins fun _ => trivial

open Grammar Pairing

namespace Twin

variable {c d e : Cursor}

theorem alive (h : Twin c d) : Correspondence.twins.Alive c d := Alignment.alive_iff.mpr h

theorem clear (h : Twin c d) : Clear Correspondence.twins.toLexicon c d :=
  clear_of_alive (fun _ => id) h.alive

theorem procedureName {name : String} (h : Twin c d)
    (hc : Grammar.procedureName c = some (name, e)) :
    ∃ f, Grammar.procedureName d = some (name, f) ∧ Twin e f := by
  have hreads := procedureName_agrees c d h.clear
  rw [hc] at hreads
  cases hfound : Grammar.procedureName d with
  | none =>
    rw [hfound] at hreads
    cases hreads
  | some found =>
    rw [hfound] at hreads
    cases hreads with
    | some hreads =>
      have hname : Relabel.text .erase name = Relabel.text .erase found.1 := hreads.1
      have herase (text : String) : Relabel.text .erase text = text := by
        simp [Relabel.text, Relabel.erase]
      rw [herase, herase] at hname
      exact ⟨found.2, by rw [hname], hreads.2.1⟩

theorem arguments {values : List Expression} (h : Twin c d)
    (hc : Grammar.arguments expression c = .ok (values, e)) :
    ∃ others f, Grammar.arguments expression d = .ok (others, f) ∧ Twin e f ∧
      others.map (Expression.relabel .erase) = values.map (Expression.relabel .erase) := by
  have hlisted := arguments_listed expression_lays expression_lays
    expression_agrees h.clear
  rw [hc] at hlisted
  cases hfound : Grammar.arguments expression d with
  | error stopped =>
    rw [hfound] at hlisted
    cases hlisted
  | ok found =>
    rw [hfound] at hlisted
    cases hlisted with
    | ok value alive => exact ⟨_, _, rfl, alive.1, value.symm⟩

theorem expressionList {values : List Expression} {inside : List Construct} (h : Twin c d)
    (hc : Grammar.expressionList inside c = .matched values e) :
    ∃ others f, Grammar.expressionList inside d = .matched others f ∧ Twin e f ∧
      others.map (Expression.relabel .erase) = values.map (Expression.relabel .erase) := by
  have hfollows := keeps_expressionList (K := Correspondence.twins) inside inside c d
    (fun _ => rfl) h.alive
  rw [hc] at hfollows
  obtain ⟨others, f, hd, hvalues, hjoins⟩ := hfollows.of_matched fun hstrays =>
    hstrays.elim (fun hloose => hloose.2) fun hpast => hpast.2
  exact ⟨others, f, hd, hjoins.1, hvalues.symm⟩

end Twin

end VisualBasic
