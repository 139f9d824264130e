import VisualBasic.Proofs.Routine.Statement

/-!
# Modules under a guide

The routines of procedures, attributes, options and whole modules are followed by their parsers.
-/

set_option autoImplicit false

namespace VisualBasic

namespace Guide

open Grammar (PropertyKind)
open Parse (mark here require)

variable {G : Guide} {α η : Type}

/-! ## Procedures -/

theorem tracks_functionHead :
    G.Tracks .kept Routine.functionHead Grammar.functionHead (G.On FunctionHead.relabel) := by
  apply Tracks.sentence
  apply tracks_access.next
  intro access
  apply (passes_keyword .Function).met.next
  intro _
  apply (tracks_expectName _).next
  intro name
  apply tracks_procedureParameters.andThen
  intro parameters parameters' hparameters
  apply ((passes_keyword .As).optionalSame tracks_typeName).next
  intro type
  refine tracks_pure fun span place hspan => ?_
  simp_all only [On, FunctionHead.relabel, Head.relabel]

theorem tracks_propertyHead :
    G.Tracks .kept Routine.propertyHead Grammar.propertyHead (G.On PropertyHead.relabel) := by
  apply Tracks.sentence
  apply tracks_access.next
  intro access
  apply (passes_keyword .Property).met.next
  intro _
  apply ((tracks_oneOf _).require _).next
  intro kind
  apply (tracks_expectName _).next
  intro name
  apply tracks_procedureParameters.andThen
  intro parameters parameters' hparameters
  apply (tracks_returnType _).next
  intro type
  refine tracks_pure fun span place hspan => ?_
  cases kind <;>
    simp_all only [On, PropertyHead.relabel, FunctionHead.relabel, Head.relabel]

/-- A property head of one kind, where the head of a property is of that kind. -/
theorem tracks_letterHead :
    G.Tracks .kept Routine.letterHead Grammar.letterHead (G.On Head.relabel) := by
  refine Tracks.rule ?_ _
  apply tracks_propertyHead.andThen
  intro head head' h
  cases head <;> cases head' <;> simp only [On, PropertyHead.relabel, reduceCtorEq,
    PropertyHead.letter.injEq] at h
  case letter.letter =>
    have hpart := tracks_pure (G := G) (V := G.On Head.relabel) h
    exact hpart.anyhow .loose
  all_goals exact tracks_unmatched.loosen

theorem tracks_setterHead :
    G.Tracks .kept Routine.setterHead Grammar.setterHead (G.On Head.relabel) := by
  refine Tracks.rule ?_ _
  apply tracks_propertyHead.andThen
  intro head head' h
  cases head <;> cases head' <;> simp only [On, PropertyHead.relabel, reduceCtorEq,
    PropertyHead.setter.injEq] at h
  case setter.setter =>
    have hpart := tracks_pure (G := G) (V := G.On Head.relabel) h
    exact hpart.anyhow .loose
  all_goals exact tracks_unmatched.loosen

theorem tracks_getterHead :
    G.Tracks .kept Routine.getterHead Grammar.getterHead (G.On FunctionHead.relabel) := by
  refine Tracks.rule ?_ _
  apply tracks_propertyHead.andThen
  intro head head' h
  cases head <;> cases head' <;> simp only [On, PropertyHead.relabel, reduceCtorEq,
    PropertyHead.getter.injEq] at h
  case getter.getter =>
    have hpart := tracks_pure (G := G) (V := G.On FunctionHead.relabel) h
    exact hpart.anyhow .loose
  all_goals exact tracks_unmatched.loosen

/-- Definitions whose heads are relabelled in a given way. -/
theorem tracks_definition (construct : Construct) {head : Routine η} {head' : Parse η}
    {g : Relabel → η → η} (h : G.Tracks .kept head head' (G.On g)) (k : Keyword) :
    G.Tracks .kept (Routine.definition construct head k) (Grammar.definition construct head' k)
      (G.On (Definition.relabel g)) := by
  apply Tracks.sentence
  apply h.andThen
  intro head head' hhead
  apply tracks_block.andThen
  intro body body' hbody
  apply (tracks_expectEnd _).next
  intro _
  refine tracks_pure fun span place hspan => ?_
  simp_all only [On, Definition.relabel]

/-! ## Attributes and options -/

theorem tracks_attributeName :
    G.Tracks .never Routine.attributeName Grammar.attributeName Eq := by
  apply (tracks_expectName _).nextNever
  intro first
  have hdot : G.Passes (Scanner.adjacent '.') (·.adjacent '.') := passes_adjacent (by decide)
  apply (hdot.optionalSame (tracks_expectName _)).collectSame.nextNever
  intro rest
  exact tracks_pure rfl

theorem tracks_attributeValue :
    G.Tracks .never Routine.attributeValue Grammar.attributeValue Eq := by
  intro s inside d hin hcd
  have hstart := G.skipBlanks hcd
  have hquoted := Alignment.string hstart
  have hliteral := Alignment.literal_level hstart s.cursor.skipBlanks_skipBlanks
    d.skipBlanks_skipBlanks
  simp only [Routine.attributeValue, Routine.run_bind, Routine.run_mark, Routine.run_scan,
    Scanner.run_quoted, Scanned.taken, Parsed.matched_andThen, Parsed.after_nil,
    Grammar.attributeValue, Parse.bind_apply, mark, Parse.orElse, Parse.read]
  generalize s.cursor.skipBlanks.quoted = x at hquoted ⊢
  generalize d.skipBlanks.quoted = y at hquoted ⊢
  cases hquoted with
  | some hfound => exact .matched hfound.1 hfound.2
  | none =>
    have hread := Routine.reads_literal { s with cursor := s.cursor.skipBlanks }
    simp only [Option.map_none, Option.getD_none, Routine.require, Routine.orElse, Routine.run_bind,
      Routine.attempt, hread, require, Parse.orElse, Parse.read, here]
    generalize Grammar.literal s.cursor.skipBlanks = x at hliteral ⊢
    generalize Grammar.literal d.skipBlanks = y at hliteral ⊢
    cases hliteral with
    | some hfound => exact .matched hfound.2.2 hfound.2.1
    | none =>
      simp only [Parsed.taken_none, Parsed.matched_andThen, Parsed.after_nil, Routine.fail,
        Routine.run_bind, Routine.run_error, Routine.run_raise, Parsed.failed_andThen]
      refine .failed fun he => ?_
      rw [hin he, G.eq_of_isExact he hcd]
      exact ⟨rfl, rfl⟩

theorem tracks_attributeLine :
    G.Tracks .kept Routine.attributeLine Grammar.attributeLine (G.On Attribute.relabel) := by
  apply Tracks.sentence
  apply (passes_keyword .Attribute).met.next
  intro _
  apply tracks_attributeName.next
  intro name
  apply (tracks_expectSymbol (by decide)).next
  intro _
  apply tracks_attributeValue.next
  intro value
  refine tracks_pure fun span place hspan => ?_
  simp_all only [On, Attribute.relabel]

theorem tracks_moduleOption : G.Tracks .kept Routine.moduleOption Grammar.moduleOption Eq := by
  simp only [Grammar.moduleOption, seqRight_eq_bind, bind_assoc]
  refine Tracks.orElse ((passes_keyword .Explicit).met.nextNever fun _ => tracks_pure rfl) ?_
  refine Tracks.orElse ((passes_keyword .Compare).met.nextNever fun _ =>
    (tracks_oneOf _).require _) ?_
  refine Tracks.orElse ((passes_keyword .Base).met.nextNever fun _ => tracks_expectNumber _ _) ?_
  refine Tracks.orElse ((passes_keyword .Private).met.nextNever fun _ =>
    (tracks_expectKeyword .Module).nextNever fun _ => tracks_pure rfl) ?_
  exact tracks_unmatched

theorem tracks_optionLine :
    G.Tracks .kept Routine.optionLine Grammar.optionLine (G.On OptionLine.relabel) := by
  apply Tracks.sentence
  apply (passes_keyword .Option).met.next
  intro _
  apply (tracks_moduleOption.require _).next
  intro option
  refine tracks_pure fun span place hspan => ?_
  simp_all only [On, OptionLine.relabel]

/-! ## Items and modules -/

theorem tracks_item : G.Tracks .kept Routine.item Grammar.item (G.On Item.relabel) := by
  refine Tracks.orElse (tracks_comment.map fun _ _ => congrArg Item.comment) ?_
  refine Tracks.orElse (tracks_emptyLine.map fun _ _ => congrArg Item.emptyLine) ?_
  refine Tracks.orElse (tracks_attributeLine.map fun _ _ => congrArg Item.attributeLine) ?_
  refine Tracks.orElse (tracks_optionLine.map fun _ _ => congrArg Item.optionLine) ?_
  refine Tracks.orElse (tracks_declaration.map fun _ _ => congrArg Item.declaration) ?_
  refine Tracks.orElse ((tracks_definition .sub (tracks_plainHead _ _ _) .Sub).map fun _ _ h =>
    congrArg (fun d => Item.procedure (.sub d)) h) ?_
  refine Tracks.orElse ((tracks_definition .function tracks_functionHead .Function).map fun _ _ h =>
    congrArg (fun d => Item.procedure (.function d)) h) ?_
  refine Tracks.orElse ((tracks_definition .property tracks_propertyHead .Property).map fun _ _ h =>
    congrArg (fun d => Item.procedure (.property d)) h) ?_
  exact tracks_unmatched

theorem tracks_items : G.Tracks .never (Routine.collect (Routine.attempt Routine.item))
    (Parse.many Grammar.item) (G.On fun r => List.map (Item.relabel r)) :=
  tracks_item.attempt.collect

theorem tracks_refuseRest : G.Tracks .never Routine.refuseRest
    (Parse.advise Grammar.suggestWord
      (Parse.fail (.part "module-level declaration or procedure"))) (G.On Module.relabel) := by
  refine tracks_advised (fun _ => rfl) fun s => ?_
  simp only [Routine.refuseRest, Routine.run_bind, Routine.run_error, Parsed.matched_andThen,
    Parsed.after_nil, Routine.run_scan, Scanner.run_peekWord, Grammar.suggestWord,
    Cursor.peekWord_skipBlanks]
  cases s.cursor.peekWord.bind suggestKeyword <;> rfl

theorem tracks_module : G.Tracks .never Routine.module Grammar.module (G.On Module.relabel) := by
  apply tracks_items.thenNever
  intro items items' hitems s inside d hin hcd
  have hend : Grammar.isFinished s.cursor = Grammar.isFinished d := Alignment.isFinished hcd
  rw [Routine.run_bind, Routine.run_scan, Scanner.run_isFinished, Parsed.matched_andThen, hend,
    Parse.bind_apply, Parse.advise, Grammar.requireEndOfSource]
  apply Follows.after
  cases Grammar.isFinished d with
  | true =>
    refine .matched ?_ hcd
    simp_all only [On, Module.relabel]
  | false => exact tracks_refuseRest s inside d hin hcd

end Guide

end VisualBasic
