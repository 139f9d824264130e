import VisualBasic.Proofs.Routine.Agreement

/-!
# Spans of a module

Every span of a module that is parsed falls on characters of the source and inside the span around
it, siblings follow one another, and the tight ones start and end with ink.
-/

set_option autoImplicit false

namespace VisualBasic

namespace Grammar

open Cursor (Token Slack Opened Ahead Reaches)
open Parse

theorem concludes_functionHead :
    Concludes functionHead fun head => head.toHead.regions := by
  refine Proceeds.sentence ?_
  refine moves_access.andThen fun _ => ?_
  refine (moves_keyword _).andThen fun _ => ?_
  refine (moves_requireName _).andThen fun _ => ?_
  refine yields_procedureParameters.andThen fun _ => ?_
  refine moves_typeName.after.andThen fun _ => ?_
  exact .pure fun _ => rfl

theorem concludes_propertyHead : Concludes propertyHead PropertyHead.regions := by
  refine Proceeds.sentence ?_
  refine moves_access.andThen fun _ => ?_
  refine (moves_keyword _).andThen fun _ => ?_
  refine (moves_oneOf _).require.andThen fun kind => ?_
  refine (moves_requireName _).andThen fun _ => ?_
  refine yields_procedureParameters.andThen fun _ => ?_
  refine (moves_returnType _).andThen fun _ => ?_
  exact .pure fun _ => by cases kind <;> rfl

theorem concludes_definition {η : Type} {construct : Construct} {head : Parse η} {k : Keyword}
    {view : η → List Region} (h : Yields head Opened view) :
    Concludes (definition construct head k) fun found => found.regions view := by
  refine Proceeds.sentence ?_
  refine h.andThen fun _ => ?_
  refine yields_block.andThen fun _ => ?_
  refine (moves_requireEnd _).andThen fun _ => ?_
  exact .pure fun _ => rfl

theorem moves_attributeName : Moves attributeName Token := by
  have hmember : Moves (adjacent '.' *> requireName "attribute name") Token :=
    ((begins_adjacent (by decide)).seqRight (moves_requireName _).yields).moves
  refine Proceeds.moves (P := fun _ _ => True) ?_
  refine (moves_requireName _).andThen fun _ => ?_
  refine hmember.yields.many.moves.andThen fun _ => ?_
  exact .pure trivial

theorem moves_attributeValue : Moves attributeValue Token := by
  intro inside c value after hm
  obtain ⟨start, d, hstart, hm⟩ := matched_bind hm
  cases hstart
  have hliteral : Moves (do
      let _ ← require (.part "attribute value") (read literal)
      let stop ← here
      return c.skipBlanks.textTo stop) Token := by
    refine Proceeds.moves (P := fun _ _ => True) ?_
    refine moves_literal.require.andThen fun _ => ?_
    refine moves_here.andThen fun _ => ?_
    exact .pure trivial
  exact Cursor.token_skipBlanks_iff.mp
    ((moves_quoted.yields.orElse hliteral.yields).moves inside _ value after hm)

theorem concludes_attributeLine : Concludes attributeLine Attribute.regions := by
  refine Proceeds.sentence ?_
  refine (moves_keyword _).andThen fun _ => ?_
  refine moves_attributeName.andThen fun _ => ?_
  refine (moves_requireSymbol (by decide) (by decide)).andThen fun _ => ?_
  refine moves_attributeValue.andThen fun _ => ?_
  exact .pure fun _ => rfl

theorem moves_moduleOption : Moves moduleOption Token := by
  refine (yields_firstOf fun p hp => ?_ : Yields moduleOption Token fun _ => []).moves
  simp only [List.mem_cons, List.not_mem_nil, or_false] at hp
  rcases hp with rfl | rfl | rfl | rfl
  · exact (moves_keyword _).seqRight (yields_pure _)
  · exact (moves_keyword _).seqRight (moves_oneOf _).require.yields
  · exact (moves_keyword _).seqRight (moves_requireNumber _ _).yields
  · exact ((moves_keyword _).seqRight (moves_requireKeyword _).yields).moves.seqRight
      (yields_pure _)

theorem concludes_optionLine : Concludes optionLine OptionLine.regions := by
  refine Proceeds.sentence ?_
  refine (moves_keyword _).andThen fun _ => ?_
  refine moves_moduleOption.require.andThen fun _ => ?_
  exact .pure fun _ => rfl

theorem yields_item : Yields item Ahead Item.regions := by
  have hconcludes {p : Parse Item} (h : Concludes p Item.regions) :
      Yields p Ahead Item.regions := h.yields.weaken Opened.ahead
  refine yields_firstOf fun p hp => ?_
  simp only [List.mem_cons, List.not_mem_nil, or_false] at hp
  rcases hp with rfl | rfl | rfl | rfl | rfl | rfl | rfl | rfl
  · exact yields_comment.map fun _ => rfl
  · exact yields_emptyLine.map fun _ => rfl
  · exact hconcludes (concludes_attributeLine.map fun _ => rfl)
  · exact hconcludes (concludes_optionLine.map fun _ => rfl)
  · exact hconcludes (concludes_declaration.map fun _ => rfl)
  · exact hconcludes ((concludes_definition (concludes_plainHead _ _ _).yields).map fun _ => rfl)
  · exact hconcludes ((concludes_definition concludes_functionHead.yields).map fun _ => rfl)
  · exact hconcludes ((concludes_definition concludes_propertyHead.yields).map fun _ => rfl)

theorem moves_requireEndOfSource (expected : Expected) :
    Moves (requireEndOfSource expected) Slack := by
  intro inside c value after hm
  unfold requireEndOfSource at hm
  split at hm
  · cases hm
    exact .inl rfl
  · contradiction

theorem yields_module : Yields module Reaches Module.regions := by
  intro inside c tree after hm
  obtain ⟨items, d, hd, hm⟩ := matched_bind hm
  obtain ⟨_, e, he, hm⟩ := matched_bind hm
  cases hm
  obtain ⟨_, hi⟩ := yields_item.manyReaches _ _ _ _ hd
  have hi := hi.before_reaches ((moves_requireEndOfSource _).advise _ _ _ _ he).reaches
  exact ⟨hi.reaches, hi⟩

end Grammar

/-- The regions of a parsed module follow one another in the source. -/
theorem inOrder_of_parseModule {source : String} {settings : Settings} {tree : Module}
    (h : parseModule source settings = .ok tree) :
    ∃ d, InOrder (Cursor.start source.toList) d tree.regions := by
  rw [parseModule_eq] at h
  split at h
  · rename_i tree after hm
    cases h
    exact ⟨_, (Grammar.yields_module [] _ tree after hm).2⟩
  · cases h
    exact ⟨_, .nil (Cursor.Reaches.refl _)⟩
  · contradiction

/-- The spans of a parsed module, at any depth: each falls on characters of the source, lies inside
the nearest span around it and after those of the siblings before it, and, where it is tight, starts
and ends with ink. -/
theorem regions_sound_of_parseModule {source : String} {settings : Settings} {tree : Module}
    (h : parseModule source settings = .ok tree) :
    (∀ region ∈ tree.regions, region.Sound source) ∧
      tree.regions.Pairwise fun region next => region.span.stop ≤ next.span.start := by
  rw [parseModule_eq] at h
  split at h
  · rename_i tree after hm
    cases h
    obtain ⟨_, hi⟩ := Grammar.yields_module [] _ tree after hm
    obtain ⟨hsound, hpairs⟩ := hi.sound (Cursor.Reaches.refl _)
    exact ⟨fun region hr => (hsound region hr).1, hpairs⟩
  · cases h
    simp [Module.regions]
  · contradiction

/-- The spans of a procedure with an assignment and a call in it. -/
theorem regions_sound_of_procedure :
    ∃ tree, parseModule "Sub F(x)\nx = 1 ' one\ng x\nEnd Sub\n" Settings.standard = .ok tree ∧
      tree.regions.length = 1 ∧
      (∀ region ∈ tree.regions, region.Sound "Sub F(x)\nx = 1 ' one\ng x\nEnd Sub\n") ∧
      tree.regions.Pairwise fun region next => region.span.stop ≤ next.span.start := by
  have h : (parseModule "Sub F(x)\nx = 1 ' one\ng x\nEnd Sub\n"
      Settings.standard).toOption.map (fun tree => tree.regions.length) = some 1 := by
    decide +kernel
  obtain ⟨tree, htree, hlength⟩ := Option.map_eq_some_iff.mp h
  have hparse := Grammar.eq_ok_of_toOption htree
  exact ⟨tree, hparse, hlength, regions_sound_of_parseModule hparse⟩

end VisualBasic
