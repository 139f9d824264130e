import VisualBasic.Grammar.Declaration
import VisualBasic.Proofs.Span.Expression

/-!
# Regions of declarations

Each declaration is a sentence whose span is tight, with the spans of the variables it declares
inside, in the order of the source.
-/

set_option autoImplicit false

namespace VisualBasic

namespace Grammar

open Cursor (Token Slack Opened Ahead Reaches)
open Parse

theorem moves_literal : Moves (read literal) Token := moves_read token_of_literal

/-! ## Comments and empty lines -/

theorem comment_regions {c d : Cursor} {note : Comment} (h : comment c = some (note, d)) :
    Reaches c d ∧ InOrder c d note.regions := by
  obtain ⟨⟨content, stop⟩, hc, h⟩ := Option.bind_eq_some_iff.mp h
  obtain ⟨after, ha, h⟩ := Option.map_eq_some_iff.mp h
  cases h
  have hi : InOrder c d [.mk (c.skipBlanks.spanTo stop) false []] :=
    .cons (Cursor.reaches_skipBlanks c) (fun h => absurd h (by decide))
      (.nil (Cursor.reaches_of_comment hc)) (.nil (Cursor.reaches_of_breakOrEnd ha))
  exact ⟨hi.reaches, hi⟩

theorem emptyLine_regions {c d : Cursor} {line : EmptyLine} (h : emptyLine c = some (line, d)) :
    Reaches c d ∧ InOrder c d line.regions := by
  obtain ⟨after, ha, h⟩ := Option.map_eq_some_iff.mp h
  cases h
  have hr : Reaches c d := (Cursor.reaches_skip _ c).trans (Cursor.reaches_of_lineBreak ha)
  exact ⟨hr, .cons (Reaches.refl c) (fun h => absurd h (by decide)) (.nil hr)
    (.nil (Reaches.refl d))⟩

theorem length_lt_of_comment {c d : Cursor} {note : Comment} (h : comment c = some (note, d)) :
    d.rest.length < c.rest.length := by
  obtain ⟨⟨content, stop⟩, hs, h⟩ := Option.bind_eq_some_iff.mp h
  obtain ⟨after, ha, h⟩ := Option.map_eq_some_iff.mp h
  cases h
  obtain ⟨body, hb, hs⟩ := Option.map_eq_some_iff.mp hs
  cases hs
  have hmark : Token c.skipBlanks.skipBlanks body := by
    rcases Option.or_eq_some_iff.mp hb with hb | ⟨_, hb⟩
    · exact Cursor.token_of_adjacent (by decide) (by decide) hb
    · exact Cursor.token_of_keyword hb
  have hblanks := ((Cursor.reaches_skipBlanks c).trans (Cursor.reaches_skipBlanks _)).length_le
  have hend : Reaches body body.toLineEnd := Cursor.reaches_skip _ _
  have hrest := (hend.trans (Cursor.reaches_of_breakOrEnd ha)).length_le
  have := hmark.length_lt
  omega

theorem length_lt_of_emptyLine {c d : Cursor} {line : EmptyLine}
    (h : emptyLine c = some (line, d)) : d.rest.length < c.rest.length := by
  obtain ⟨after, ha, h⟩ := Option.map_eq_some_iff.mp h
  cases h
  have hblanks := (Cursor.reaches_skip (c.rest.takeWhile isBlank).length c).length_le
  exact Nat.lt_of_lt_of_le (Cursor.length_lt_of_lineBreak ha) hblanks

theorem yields_comment : Yields (read comment) Ahead Comment.regions :=
  yields_read fun _ _ _ h =>
    ⟨⟨(comment_regions h).1, length_lt_of_comment h⟩, (comment_regions h).2⟩

theorem yields_emptyLine : Yields (read emptyLine) Ahead EmptyLine.regions :=
  yields_read fun _ _ _ h =>
    ⟨⟨(emptyLine_regions h).1, length_lt_of_emptyLine h⟩, (emptyLine_regions h).2⟩

/-- Lines that the tree does not keep. -/
theorem moves_skipTrivia : Moves skipTrivia Reaches := by
  have drop {α : Type} {p : Parse α} (h : Moves p Reaches) :
      Yields (p *> pure ()) Reaches fun _ => [] := by
    intro inside c value after hm
    obtain ⟨first, middle, hp, hm⟩ := matched_bind (f := fun _ => pure ()) hm
    cases hm
    exact ⟨h inside c first after hp, .nil (h inside c first after hp)⟩
  have hline := (drop (yields_comment.moves.weaken And.left)).orElse
    (drop (yields_emptyLine.moves.weaken And.left))
  intro inside c value after hm
  obtain ⟨found, d, hf, hm⟩ := matched_bind hm
  cases hm
  exact hline.manyReaches.moves inside c found after hf

/-! ## Variables -/

theorem moves_access : Moves access Slack := by
  refine Proceeds.moves (P := fun _ _ => True) ?_
  refine (moves_oneOf accessKeywords).optToken.andThen fun _ => ?_
  exact .pure trivial

theorem moves_typeName : Moves typeName Token := by
  have hmember : Moves (adjacent '.' *> requireName "type name") Token :=
    ((begins_adjacent (by decide)).seqRight (moves_requireName _).yields).moves
  refine Proceeds.moves (P := fun _ _ => True) ?_
  refine (moves_requireName _).andThen fun _ => ?_
  refine hmember.optToken.andThen fun _ => ?_
  exact .pure trivial

theorem moves_arrayBound : Moves arrayBound Token := by
  refine Proceeds.moves (P := fun _ _ => True) ?_
  refine (moves_requireNumber _ _).andThen fun _ => ?_
  refine (moves_requireNumber _ _).after.andThen fun _ => ?_
  exact .pure trivial

theorem moves_arrayBounds : Moves arrayBounds Token := by
  have hempty : Moves (symbol ')' *> pure ([] : List ArrayBound)) Token :=
    ((moves_symbol (by decide) (by decide)).seqRight (yields_pure _)).moves
  have hbounds : Moves (do
      let bounds ← separated arrayBound arrayBound
      require (.choice [","] ")") (symbol ')')
      return bounds) Token := by
    refine Proceeds.moves (P := fun _ _ => True) ?_
    refine (moves_arrayBound.yields.separated moves_arrayBound.yields).andThen fun _ => ?_
    refine (moves_symbol (by decide) (by decide)).require.andThen fun _ => ?_
    exact .pure trivial
  refine Proceeds.moves (P := fun _ _ => True) ?_
  refine (begins_symbol (by decide)).andThen fun _ => ?_
  exact (hempty.yields.orElse hbounds.yields).last fun _ => trivial

theorem moves_variableType : Moves variableType Token := by
  refine Proceeds.moves (P := fun _ _ => True) ?_
  refine (moves_keyword _).flag.andThen fun _ => ?_
  refine moves_typeName.andThen fun _ => ?_
  exact .pure trivial

theorem yields_declaredVariable : Yields declaredVariable Token Variable.regions := by
  refine Yields.within (Proceeds.tight ?_)
  refine moves_identifier.andThen fun _ => ?_
  refine moves_arrayBounds.optToken.andThen fun _ => ?_
  refine moves_variableType.after.andThen fun _ => ?_
  exact .pure fun _ => rfl

theorem yields_declaredVariables {first : Parse Variable}
    (h : Yields first Token Variable.regions) :
    Yields (declaredVariables first) Token fun values => values.flatMap Variable.regions :=
  h.separated yields_declaredVariable.require

theorem concludes_variableGroup : Concludes variableGroup VariableGroup.regions := by
  have haccess : Moves (orElse (oneOf accessKeywords) (keyword .Dim *> pure .Dim)) Token :=
    ((moves_oneOf _).yields.orElse ((moves_keyword _).seqRight (yields_pure _))).moves
  refine Proceeds.sentence ?_
  refine haccess.andThen fun _ => ?_
  refine (moves_keyword _).flag.andThen fun _ => ?_
  refine (yields_declaredVariables yields_declaredVariable).andThen fun _ => ?_
  exact .pure fun _ => rfl

theorem yields_constant : Yields constant Token Constant.regions := by
  refine Proceeds.yields ?_
  refine yields_declaredVariable.require.andThen fun _ => ?_
  refine (moves_requireSymbol (by decide) (by decide)).andThen fun _ => ?_
  refine moves_literal.require.andThen fun _ => ?_
  exact .pure rfl

theorem concludes_constantGroup : Concludes constantGroup ConstantGroup.regions := by
  refine Proceeds.sentence ?_
  refine moves_access.andThen fun _ => ?_
  refine (moves_keyword _).andThen fun _ => ?_
  refine (yields_constant.separated yields_constant).andThen fun _ => ?_
  exact .pure fun _ => rfl

/-! ## Records and enumerations -/

theorem yields_memberLine {α : Type} {member : Parse α} {view : α → List Region}
    (h : Yields member Token view) : Yields (memberLine member) Opened view := by
  refine Proceeds.yields ?_
  refine h.andThen fun _ => ?_
  refine moves_requireTerminator.andThen fun _ => ?_
  refine moves_skipTrivia.andThen fun _ => ?_
  exact .pure rfl

theorem yields_memberLines {α : Type} {member : Parse α} {expected : Expected}
    {view : α → List Region} (h : Yields member Token view) :
    Yields (memberLines member expected) Reaches fun values => values.flatMap view := by
  intro inside c values after hm
  obtain ⟨_, d, hd, hm⟩ := matched_bind hm
  obtain ⟨_, e, he, hm⟩ := matched_bind hm
  obtain ⟨members, f, hf, hm⟩ := matched_bind hm
  have hstart := (moves_requireTerminator _ _ _ _ hd).trans (moves_skipTrivia _ _ _ _ he)
  have hmembers := ((yields_memberLine h).manyReaches _ _ _ _ hf).2.after_reaches hstart
  split at hm
  · contradiction
  · cases hm
    exact ⟨hmembers.reaches, hmembers⟩

theorem concludes_record : Concludes record Record.regions := by
  refine Proceeds.sentence ?_
  refine moves_access.andThen fun _ => ?_
  refine (moves_keyword _).andThen fun _ => ?_
  refine (moves_requireName _).andThen fun _ => ?_
  refine (yields_memberLines yields_declaredVariable).andThen fun _ => ?_
  refine (moves_requireEnd _).andThen fun _ => ?_
  exact .pure fun _ => rfl

theorem moves_enumItem : Moves enumItem Token := by
  have hvalue : Moves (symbol '=' *> require (.part "enum value") (read literal)) Token :=
    ((moves_symbol (by decide) (by decide)).seqRight moves_literal.require.yields).moves
  refine Proceeds.moves (P := fun _ _ => True) ?_
  refine moves_identifier.andThen fun _ => ?_
  refine hvalue.optToken.andThen fun _ => ?_
  exact .pure trivial

theorem concludes_enumeration : Concludes enumeration Enumeration.regions := by
  refine Proceeds.sentence ?_
  refine moves_access.andThen fun _ => ?_
  refine (moves_keyword _).andThen fun _ => ?_
  refine (moves_requireName _).andThen fun _ => ?_
  refine (yields_memberLines moves_enumItem.yields).moves.andThen fun _ => ?_
  refine (moves_requireEnd _).andThen fun _ => ?_
  exact .pure fun _ => rfl

/-! ## Parameters and heads -/

theorem yields_parameter : Yields parameter Token Parameter.regions := by
  have hdefault : Moves (symbol '=' *> require (.part "default value") (read literal)) Token :=
    ((moves_symbol (by decide) (by decide)).seqRight moves_literal.require.yields).moves
  have hdeclared (isCommitted : Bool) :
      Yields (if isCommitted then require (.part "parameter name") declaredVariable
        else declaredVariable) Token Variable.regions := by
    cases isCommitted
    · exact yields_declaredVariable
    · exact yields_declaredVariable.require
  refine Yields.within (Proceeds.yields ?_)
  refine (moves_keyword _).flag.andThen fun _ => ?_
  refine (moves_oneOf _).optToken.andThen fun _ => ?_
  refine (moves_keyword _).flag.andThen fun _ => ?_
  refine (hdeclared _).andThen fun _ => ?_
  refine hdefault.optToken.andThen fun _ => ?_
  exact .pure rfl

theorem yields_parameters :
    Yields parameters Token fun values => values.flatMap Parameter.regions :=
  yields_parameter.separated yields_parameter.require

theorem yields_parameterList :
    Yields parameterList Token fun values => values.flatMap Parameter.regions := by
  refine Proceeds.yields ?_
  refine (begins_symbol (by decide)).andThen fun _ => ?_
  refine yields_parameters.optToken.andThen fun found => ?_
  refine (moves_requireSymbol (by decide) (by decide)).andThen fun _ => ?_
  exact .pure (by cases found <;> simp)

theorem yields_procedureParameters :
    Yields procedureParameters Slack fun values => values.flatMap Parameter.regions := by
  refine Proceeds.yields ?_
  refine yields_parameterList.optToken.andThen fun found => ?_
  exact .pure (by cases found <;> simp)

/-- The type that only some procedures have. -/
theorem moves_returnType (isTyped : Prop) [Decidable isTyped] :
    Moves (if isTyped then after .As typeName else pure none) Slack := by
  split
  · exact moves_typeName.after
  · exact (yields_pure none).moves

theorem concludes_externalProcedure : Concludes externalProcedure Declaration.regions := by
  refine Proceeds.sentence ?_
  refine moves_access.andThen fun _ => ?_
  refine (moves_keyword _).andThen fun _ => ?_
  refine (moves_oneOf _).require.andThen fun isFunction => ?_
  refine (moves_requireName _).andThen fun _ => ?_
  refine (moves_requireKeyword _).andThen fun _ => ?_
  refine (moves_requireQuoted _).andThen fun _ => ?_
  refine (moves_requireQuoted _).after.andThen fun _ => ?_
  refine yields_procedureParameters.andThen fun _ => ?_
  refine (moves_returnType _).andThen fun _ => ?_
  exact .pure fun _ => by cases isFunction <;> rfl

theorem concludes_plainHead (construct : Construct) (k : Keyword) (part : String) :
    Concludes (plainHead construct k part) Head.regions := by
  refine Proceeds.sentence ?_
  refine moves_access.andThen fun _ => ?_
  refine (moves_keyword _).andThen fun _ => ?_
  refine (moves_requireName _).andThen fun _ => ?_
  refine yields_procedureParameters.andThen fun _ => ?_
  exact .pure fun _ => rfl

theorem concludes_declaration : Concludes declaration Declaration.regions := by
  refine concludes_firstOf fun p hp => ?_
  simp only [List.mem_cons, List.not_mem_nil, or_false] at hp
  rcases hp with rfl | rfl | rfl | rfl | rfl | rfl
  · exact concludes_constantGroup.map fun _ => rfl
  · exact concludes_enumeration.map fun _ => rfl
  · exact concludes_record.map fun _ => rfl
  · exact concludes_externalProcedure
  · exact (concludes_plainHead _ _ _).map fun _ => rfl
  · exact concludes_variableGroup.map fun _ => rfl

end Grammar

end VisualBasic
