import VisualBasic.Proofs.Parse.Unrolling
import VisualBasic.Proofs.Routine.Agreement
import VisualBasic.Proofs.Span.Expression
import VisualBasic.Proofs.Text.Condense

/-!
# Expressions and their texts

The text of an expression is put together from the tree: names, dots, parentheses and commas, and
for a literal what stands in the source under its span. The source under the span of an expression
is that text, once blanks and line continuations are taken out of it wherever no literal stands.
-/

set_option autoImplicit false

namespace VisualBasic

mutual

/-- The text of an expression, its literals as the source has them. -/
def Expression.text (source : String) : Expression → List Char
  | .literal _ span => (span.slice source).toList
  | .reference target => target.text source
  | .call call => call.text source

def Call.text (source : String) : Call → List Char
  | ⟨name, arguments, _⟩ => name.toList ++ '(' :: argumentsText source arguments ++ [')']

def argumentsText (source : String) : List Expression → List Char
  | [] => []
  | [argument] => argument.text source
  | argument :: rest => argument.text source ++ ',' :: argumentsText source rest

def Segment.text (source : String) : Segment → List Char
  | .name text => text.toList
  | .call call => call.text source

def segmentsText (source : String) : List Segment → List Char
  | [] => []
  | segment :: rest => segment.text source ++ '.' :: segmentsText source rest

def Qualifier.text (source : String) : Qualifier → List Char
  | ⟨leadingDot, segments, _⟩ => (if leadingDot then ['.'] else []) ++ segmentsText source segments

def Reference.text (source : String) : Reference → List Char
  | ⟨qualifier, name, _⟩ => qualifier.text source ++ name.toList

end

mutual

/-- The spans of the literals in an expression. -/
def Expression.literals : Expression → List Span
  | .literal _ span => [span]
  | .reference target => target.literals
  | .call call => call.literals

def Call.literals : Call → List Span
  | ⟨_, arguments, _⟩ => argumentLiterals arguments

def argumentLiterals : List Expression → List Span
  | [] => []
  | argument :: rest => argument.literals ++ argumentLiterals rest

def Segment.literals : Segment → List Span
  | .name _ => []
  | .call call => call.literals

def segmentLiterals : List Segment → List Span
  | [] => []
  | segment :: rest => segment.literals ++ segmentLiterals rest

def Qualifier.literals : Qualifier → List Span
  | ⟨_, segments, _⟩ => segmentLiterals segments

def Reference.literals : Reference → List Span
  | ⟨qualifier, _, _⟩ => qualifier.literals

end

namespace Grammar

open Cursor (Condenses Reaches)

variable {source : String}

/-- What a reader passes over in a source condenses to a text of its value. -/
def Spells {α : Type} (source : String) (reader : Reader α) (literals : α → List Span)
    (text : α → List Char) : Prop :=
  ∀ c value after, Reaches (Cursor.start source.toList) c → reader c = some (value, after) →
    Condenses (literals value) (text value) c after

variable {expression : Reader Expression}
  (he : Spells source expression Expression.literals (Expression.text source))
include he

theorem moreArguments_spells {c d : Cursor} {values : List Expression}
    (hc : Reaches (Cursor.start source.toList) c)
    (h : moreArguments expression c = .ok (values, d)) :
    values ≠ [] ∧
    Condenses (argumentLiterals values) (argumentsText source values ++ [')']) c d := by
  fun_induction moreArguments expression c generalizing values d with
  | case1 => contradiction
  | case2 c argument after hm closed hclose =>
    cases h
    have hclosed := Cursor.condenses_of_symbol (by decide) hclose
    simpa [argumentLiterals, argumentsText] using (he _ _ _ hc hm).trans hclosed
  | case3 => contradiction
  | case4 c argument after hm _ next hn hlt ih =>
    obtain ⟨⟨rest, closed⟩, hr, hd⟩ : ∃ found, moreArguments expression next = .ok found ∧
        (argument :: found.1, found.2) = (values, d) := by
      cases hr : moreArguments expression next with
      | error stopped => simp [hr, Except.map] at h
      | ok found => exact ⟨found, rfl, by simpa [hr, Except.map] using h⟩
    cases hd
    have hfirst := he _ _ _ hc hm
    have hcomma := Cursor.condenses_of_symbol (by decide) hn
    obtain ⟨hne, hmore⟩ := ih (hc.trans (hfirst.trans hcomma).reaches) hr
    refine ⟨by simp, ?_⟩
    obtain ⟨second, rest, rfl⟩ := List.exists_cons_of_ne_nil hne
    simpa [argumentLiterals, argumentsText] using (hfirst.trans hcomma).trans hmore
  | case5 => contradiction

theorem arguments_spells {c d : Cursor} {values : List Expression}
    (hc : Reaches (Cursor.start source.toList) c) (h : arguments expression c = .ok (values, d)) :
    Condenses (argumentLiterals values) (argumentsText source values ++ [')']) c d := by
  unfold arguments at h
  split at h
  · rename_i hclose
    cases h
    exact Cursor.condenses_of_symbol (by decide) hclose
  · exact (moreArguments_spells he hc h).2

theorem call_spells : Spells source (call expression) Call.literals (Call.text source) := by
  intro c value after hc h
  simp only [call, Option.bind_eq_bind, Option.bind_eq_some_iff] at h
  obtain ⟨⟨name, d⟩, hn, e, ho, ⟨arguments, f⟩, ha, h⟩ := h
  cases h
  have hname := (Cursor.condenses_skipBlanks c).trans (Cursor.condenses_of_identifier hn)
  have hopen := hname.trans (Cursor.condenses_of_symbol (by decide) ho)
  have harguments := arguments_spells he (hc.trans hopen.reaches) (eq_ok_of_toOption ha)
  simpa [Call.literals, Call.text] using hopen.trans harguments

theorem segment_spells :
    Spells source (segment expression) Segment.literals
      fun value => value.text source ++ ['.'] := by
  intro c value after hc h
  simp only [segment, Option.bind_eq_bind, Option.bind_eq_some_iff] at h
  obtain ⟨⟨found, d⟩, hs, e, hd, h⟩ := h
  cases h
  have hdot := Cursor.condenses_of_adjacent (by decide) (by decide) hd
  simp only [Option.or_eq_some_iff, Option.map_eq_some_iff] at hs
  rcases hs with ⟨⟨call, d⟩, hcall, h⟩ | ⟨_, ⟨name, d⟩, hn, h⟩
  · cases h
    simpa [Segment.literals, Segment.text] using (call_spells he _ _ _ hc hcall).trans hdot
  · cases h
    simpa [Segment.literals, Segment.text] using (Cursor.condenses_of_identifier hn).trans hdot

theorem segments_spells {c : Cursor} (hc : Reaches (Cursor.start source.toList) c) :
    Condenses (segmentLiterals (segments expression c).1)
      (segmentsText source (segments expression c).1)
      c (segments expression c).2 := by
  fun_induction segments expression c with
  | case1 c h => exact .refl c
  | case2 c head d h _ tail e hd ih =>
    have hhead := segment_spells he _ _ _ hc h
    have htail := ih (hc.trans hhead.reaches)
    rw [hd] at htail
    simpa [segmentLiterals, segmentsText] using hhead.trans htail
  | case3 c head d h =>
    simpa [segmentLiterals, segmentsText] using segment_spells he _ _ _ hc h

theorem qualifier_spells {c : Cursor} (hc : Reaches (Cursor.start source.toList) c)
    (hstill : c.skipBlanks = c) :
    Condenses (qualifier expression c).1.literals ((qualifier expression c).1.text source) c
      (qualifier expression c).2 := by
  unfold qualifier
  rw [hstill]
  dsimp only
  cases hdot : c.adjacent '.' with
  | none =>
    have hsegments := segments_spells he hc
    rw [Option.getD_none]
    split
    · exact .refl c
    · simpa [Qualifier.literals, Qualifier.text] using hsegments
  | some d =>
    have hd := Cursor.condenses_of_adjacent (by decide) (by decide) hdot
    have hsegments := segments_spells he (hc.trans hd.reaches)
    simpa [Qualifier.literals, Qualifier.text] using hd.trans hsegments

theorem reference_spells :
    Spells source (reference expression) Reference.literals (Reference.text source) := by
  intro c value after hc h
  simp only [reference, Option.bind_eq_bind, Option.bind_eq_some_iff] at h
  obtain ⟨⟨name, d⟩, hn, h⟩ := h
  cases h
  have hstart := Cursor.condenses_skipBlanks c
  have hqualifier := qualifier_spells he (hc.trans hstart.reaches) (Cursor.skipBlanks_skipBlanks c)
  have hname := Cursor.condenses_of_identifier hn
  simpa [Reference.literals, Reference.text] using (hstart.trans hqualifier).trans hname

theorem expressionWith_spells :
    Spells source (expressionWith expression) Expression.literals (Expression.text source) := by
  intro c value after hc h
  have hstart := Cursor.condenses_skipBlanks c
  have hplace := hc.trans hstart.reaches
  simp only [expressionWith, Option.or_eq_some_iff, Option.map_eq_some_iff] at h
  rcases h with (⟨⟨literal, d⟩, hl, h⟩ | ⟨_, ⟨call, d⟩, hcall, h⟩) | ⟨_, ⟨target, d⟩, hr, h⟩
  · cases h
    obtain ⟨n, hd, _⟩ := token_of_literal hl
    rw [Cursor.skipBlanks_skipBlanks] at hd
    have hkept := Cursor.condenses_kept c.skipBlanks n
    have hslice := Cursor.slice_spanTo_skip hplace n
    rw [← hd] at hkept hslice
    simpa [Expression.literals, Expression.text, hslice] using hstart.trans hkept
  · cases h
    simpa [Expression.literals, Expression.text]
      using hstart.trans (call_spells he _ _ _ hplace hcall)
  · cases h
    simpa [Expression.literals, Expression.text]
      using hstart.trans (reference_spells he _ _ _ hplace hr)

omit he

theorem expression_spells (source : String) :
    Spells source Grammar.expression Expression.literals (Expression.text source) := by
  intro c
  fun_induction Grammar.expression c with
  | case1 c ih =>
    intro value after hc h
    refine expressionWith_spells (fun d value after hd hread => ?_) c value after hc h
    split at hread
    · exact ih d ‹_› value after hd hread
    · contradiction

/-- The span of an expression leads from the next token to where the reader stops. -/
theorem expression_span {c d : Cursor} {e : Expression} (h : Grammar.expression c = some (e, d)) :
    e.span = c.skipBlanks.spanTo d := by
  rw [Grammar.expression] at h
  simp only [expressionWith, Option.or_eq_some_iff, Option.map_eq_some_iff] at h
  rcases h with (⟨⟨literal, d⟩, hl, h⟩ | ⟨_, ⟨call, d⟩, hcall, h⟩) | ⟨_, ⟨target, d⟩, hr, h⟩
  · cases h
    rfl
  · cases h
    simp only [Grammar.call, Option.bind_eq_bind, Option.bind_eq_some_iff] at hcall
    obtain ⟨_, _, _, _, _, _, h⟩ := hcall
    cases h
    rw [Expression.span, Cursor.skipBlanks_skipBlanks]
  · cases h
    simp only [Grammar.reference, Option.bind_eq_bind, Option.bind_eq_some_iff] at hr
    obtain ⟨_, _, h⟩ := hr
    cases h
    rw [Expression.span, Cursor.skipBlanks_skipBlanks]

theorem condense_eq_text {c d : Cursor} {e : Expression}
    (hc : Reaches (Cursor.start source.toList) c) (h : Grammar.expression c = some (e, d)) :
    condense (isCovered e.literals) e.span.start false (e.span.slice source).toList =
    e.text source := by
  have hread : Grammar.expression c.skipBlanks = some (e, d) := (expression_skipBlanks c).trans h
  have hplace := hc.trans (Cursor.reaches_skipBlanks c)
  have hspells := expression_spells source _ _ _ hplace hread
  rw [expression_span h]
  exact hspells.slice hc (expression_lays _ _ _ h).1

end Grammar

namespace Routine

/-- The source under the span of an expression, without the blanks and line continuations that lie
outside the literals, is the text of the expression. -/
theorem condense_of_expression {s : Session} {e : Expression} {c : Cursor}
    (hplace : Cursor.Reaches (Cursor.start s.source.toList) s.cursor)
    (h : expression.Matches s e c) :
    condense (isCovered e.literals) e.span.start false (e.span.slice s.source).toList =
      e.text s.source :=
  Grammar.condense_eq_text hplace (reads_expression.matches_iff.mp h)

/-- A call over two lines, with a reference and a string among its arguments. -/
theorem condense_of_expression_two_lines :
    let s := Session.start "f ( a. _\n b , \" s \" )" Settings.standard
    ∃ e c, expression.Matches s e c ∧
      e.text "f ( a. _\n b , \" s \" )" = "f(a.b,\" s \")".toList ∧
      condense (isCovered e.literals) e.span.start false
        (e.span.slice "f ( a. _\n b , \" s \" )").toList = "f(a.b,\" s \")".toList := by
  intro s
  have hread : (Grammar.expression s.cursor).any (fun found =>
      found.1.text "f ( a. _\n b , \" s \" )" = "f(a.b,\" s \")".toList) = true := by
    decide +kernel
  obtain ⟨⟨e, c⟩, h, htext⟩ := (Option.any_eq_true _ _).mp hread
  have htext : e.text "f ( a. _\n b , \" s \" )" = "f(a.b,\" s \")".toList :=
    of_decide_eq_true htext
  have hmatches : expression.Matches s e c := reads_expression.matches_iff.mpr h
  have hcondense := condense_of_expression (Cursor.Reaches.refl _) hmatches
  exact ⟨e, c, hmatches, htext, hcondense.trans htext⟩

end Routine

end VisualBasic
