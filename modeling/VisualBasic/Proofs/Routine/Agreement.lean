import VisualBasic.Proofs.Routine.Module
import VisualBasic.Session

/-!
# Routines and parsers of one source

On one and the same source every routine comes to what its parser comes to: the same value at the
same place, nothing with the session as it was, or the diagnostic of the same failure. So what holds
of the parsers holds of the sessions that run the routines.
-/

set_option autoImplicit false

namespace VisualBasic

/-! ## A source with itself -/

theorem rel_refl {α : Type} {R : α → α → Prop} (h : ∀ value, R value value) (found : Option α) :
    Option.Rel R found found := by
  cases found with
  | none => exact .none
  | some value => exact .some (h value)

/-- A source with itself; comments may begin anywhere. -/
def Alignment.same : Alignment where
  meets := Eq
  begins _ := True
  shorter_iff h h' := by rw [h, h']
  abreast {c d} h := by
    subst h
    refine ⟨c.rest, [], [], (List.append_nil _).symm, (List.append_nil _).symm,
      Apart.nil, Apart.nil,
      Iff.rfl, fun _ _ => rfl⟩
  skipBlanks h := congrArg Cursor.skipBlanks h
  lineBreak h := by
    subst h
    exact rel_refl (fun _ => rfl) _
  blankLine h := by
    subst h
    exact rel_refl (fun _ => rfl) _
  quoted h _ _ := by
    subst h
    exact rel_refl (fun _ => ⟨rfl, rfl, rfl⟩) _
  comment h _ _ _ := by
    subst h
    exact rel_refl (fun _ => ⟨rfl, rfl⟩) _

/-- A source with itself, where nothing may differ. -/
def Guide.same : Guide where
  toAlignment := .same
  labels := .same
  merges h h' := by rw [h, h']
  isExact := True
  eq_of_isExact _ h := h

/-- What a routine comes to that runs from a session as a parser does. -/
def Parsed.ofOutcome {α : Type} (s : Session) (notes : List Nat) : Outcome α → Parsed α
  | .matched value c => ⟨.matched value, { s with cursor := c }, notes⟩
  | .unmatched => ⟨.unmatched, s, notes⟩
  | .failed failure => ⟨.failed (s.diagnose failure), { s with cursor := failure.stopped }, notes⟩

namespace Routine

variable {α : Type}

/-- From a session a routine matches with a value and goes on from a place. Nothing else of the
session changes. -/
def Matches (m : Routine α) (s : Session) (value : α) (c : Cursor) : Prop :=
  ∃ notes, m.run s = ⟨.matched value, { s with cursor := c }, notes⟩

/-- From a session two routines come to the same. -/
def Alike (m m' : Routine α) (s : Session) : Prop :=
  (m.run s).step = (m'.run s).step ∧ (m.run s).session = (m'.run s).session

theorem Reads.matches_iff {m : Routine α} {reader : Reader α} (h : Reads m reader) {s : Session}
    {value : α} {c : Cursor} : m.Matches s value c ↔ reader s.cursor = some (value, c) := by
  constructor
  · rintro ⟨notes, hrun⟩
    rw [h s] at hrun
    generalize reader s.cursor = found at hrun ⊢
    cases found with
    | none => cases hrun
    | some found =>
      rw [Parsed.taken_some] at hrun
      have hvalue := Step.matched.inj (congrArg Parsed.step hrun)
      have hcursor := congrArg (Session.cursor ∘ Parsed.session) hrun
      exact congrArg some (Prod.ext hvalue hcursor)
  · intro hfound
    exact ⟨[], by rw [h s, hfound, Parsed.taken_some]⟩

end Routine

namespace Guide

variable {α β : Type} {miss : Miss} {m m' : Routine α} {p p' : Parse α} {g : Relabel → α → α}

/-- A routine that its parser follows comes to the same as the parser. -/
theorem Tracks.run_eq (h : Guide.same.Tracks .kept m p Eq) (s : Session) :
    ∃ notes, m.run s = .ofOutcome s notes (p s.inside s.cursor) := by
  have hsame := h s s.inside s.cursor (fun _ => rfl) rfl
  generalize m.run s = run at hsame ⊢
  generalize p s.inside s.cursor = outcome at hsame ⊢
  cases hsame with
  | excused _ hb => exact absurd trivial hb
  | @matched v w c d notes value meets =>
    obtain rfl : v = w := value
    obtain rfl : c = d := meets
    exact ⟨notes, rfl⟩
  | @unmatched c notes allows =>
    obtain rfl : c = s.cursor := allows
    exact ⟨notes, rfl⟩
  | @failed diagnostic c notes failure alike =>
    obtain ⟨rfl, rfl⟩ := alike trivial
    exact ⟨notes, rfl⟩

/-- Where a routine matches, its parser does, and both go on from the same place. -/
theorem Tracks.exists_matched {V : α → α → Prop} (h : Guide.same.Tracks miss m p V) {s : Session}
    {value : α} (hstep : (m.run s).step = .matched value) :
    ∃ found, p s.inside s.cursor = .matched found (m.run s).session.cursor ∧ V value found := by
  have hsame := h s s.inside s.cursor (fun _ => rfl) rfl
  generalize m.run s = run at hsame hstep ⊢
  generalize p s.inside s.cursor = outcome at hsame ⊢
  cases hsame with
  | excused _ hb => exact absurd trivial hb
  | unmatched => cases hstep
  | failed => cases hstep
  | matched hvalue meets =>
    cases hstep
    cases meets
    exact ⟨_, rfl, hvalue⟩

theorem Tracks.matches_iff (h : Guide.same.Tracks .kept m p Eq) {s : Session} {value : α}
    {c : Cursor} : m.Matches s value c ↔ p s.inside s.cursor = .matched value c := by
  constructor
  · rintro ⟨notes, hrun⟩
    obtain ⟨found, hmatch, rfl⟩ := h.exists_matched (congrArg Parsed.step hrun)
    rwa [hrun] at hmatch
  · intro hmatch
    obtain ⟨notes, hrun⟩ := h.run_eq s
    exact ⟨notes, by rw [hrun, hmatch, Parsed.ofOutcome]⟩

theorem Tracks.step_eq_unmatched_iff (h : Guide.same.Tracks .kept m p Eq) {s : Session} :
    (m.run s).step = .unmatched ↔ p s.inside s.cursor = .unmatched := by
  obtain ⟨notes, hrun⟩ := h.run_eq s
  rw [hrun]
  cases p s.inside s.cursor <;> simp [Parsed.ofOutcome]

/-- Routines whose parsers come to the same come to the same. -/
theorem Tracks.alike (h : Guide.same.Tracks .kept m p Eq) (h' : Guide.same.Tracks .kept m' p' Eq)
    {s : Session} (heq : p s.inside s.cursor = p' s.inside s.cursor) : m.Alike m' s := by
  obtain ⟨notes, hrun⟩ := h.run_eq s
  obtain ⟨marks, hrun'⟩ := h'.run_eq s
  rw [Routine.Alike, hrun, hrun', heq]
  cases p' s.inside s.cursor <;> exact ⟨rfl, rfl⟩

/-- Under the labels that change nothing, what is alike is the same. -/
theorem Tracks.exact (h : Guide.same.Tracks miss m p (Guide.same.On g))
    (hg : ∀ value, g .same value = value) : Guide.same.Tracks miss m p Eq :=
  h.mono fun v w hvw => by
    have hvw : g .same v = g .same w := hvw
    rwa [hg, hg] at hvw

theorem Tracks.give (h : Guide.same.Tracks .kept m p (Guide.same.On g))
    (hg : ∀ value, g .same value = value) (f : α → β) :
    Guide.same.Tracks .kept (f <$> m) (f <$> p) Eq :=
  (h.exact hg).map fun _ _ => congrArg f

theorem tracks_exactly {reader : Reader α} (h : Routine.Reads m reader) :
    Guide.same.Tracks .kept m (Parse.read reader) Eq :=
  tracks_reads h fun c d hcd => by
    obtain rfl : c = d := hcd
    exact rel_refl (fun _ => ⟨rfl, rfl⟩) _

theorem tracks_call_exactly : Guide.same.Tracks .kept (Routine.call Routine.expression)
    (Parse.read (Grammar.call Grammar.expression)) Eq :=
  tracks_exactly (Routine.reads_call Routine.reads_expression Grammar.expression_lays.length_le)

theorem tracks_qualifier_exactly : Guide.same.Tracks .kept (Routine.qualifier Routine.expression)
    (Parse.read fun c => some (Grammar.qualifier Grammar.expression c)) Eq :=
  tracks_exactly (Routine.run_qualifier Routine.reads_expression Grammar.expression_lays.length_le)

/-- Every rule but that of a whole source, whose failures are reported as well. -/
theorem tracks_rule (rule : Rule) (h : rule ≠ .module) :
    Guide.same.Tracks .kept rule.routine rule.parse Eq := by
  cases rule with
  | module => contradiction
  | item => exact tracks_item.give Item.relabel_same _
  | comment => exact tracks_comment.give Comment.relabel_same _
  | emptyLine => exact tracks_emptyLine.give EmptyLine.relabel_same _
  | attributeLine => exact tracks_attributeLine.give Attribute.relabel_same _
  | optionLine => exact tracks_optionLine.give OptionLine.relabel_same _
  | declaration => exact tracks_declaration.give Declaration.relabel_same _
  | declaredVariable => exact tracks_declaredVariable.give Variable.relabel_same _
  | typeName => exact (tracks_typeName.anyhow .kept).map fun _ _ => congrArg Json.text
  | variableGroup => exact tracks_variableGroup.give VariableGroup.relabel_same _
  | constantGroup => exact tracks_constantGroup.give ConstantGroup.relabel_same _
  | record => exact tracks_record.give Record.relabel_same _
  | enumeration => exact tracks_enumeration.give Enumeration.relabel_same _
  | parameter => exact tracks_parameter.give Parameter.relabel_same _
  | parameters => exact tracks_parameters.give (map_eq_self Parameter.relabel_same) _
  | parameterList => exact tracks_parameterList.give (map_eq_self Parameter.relabel_same) _
  | externalSub => exact tracks_externalSub.give External.relabel_same _
  | externalFunction => exact tracks_externalFunction.give ExternalFunction.relabel_same _
  | eventHead => exact (tracks_plainHead _ _ _).give Head.relabel_same _
  | subHead => exact (tracks_plainHead _ _ _).give Head.relabel_same _
  | functionHead => exact tracks_functionHead.give FunctionHead.relabel_same _
  | propertyHead => exact tracks_propertyHead.give PropertyHead.relabel_same _
  | letterHead => exact tracks_letterHead.give Head.relabel_same _
  | setterHead => exact tracks_setterHead.give Head.relabel_same _
  | getterHead => exact tracks_getterHead.give FunctionHead.relabel_same _
  | subDefinition =>
    exact (tracks_definition _ (tracks_plainHead _ _ _) _).give
      (Definition.relabel_same Head.relabel_same) _
  | functionDefinition =>
    exact (tracks_definition _ tracks_functionHead _).give
      (Definition.relabel_same FunctionHead.relabel_same) _
  | propertyDefinition =>
    exact (tracks_definition _ tracks_propertyHead _).give
      (Definition.relabel_same PropertyHead.relabel_same) _
  | expression => exact tracks_expression.give Expression.relabel_same _
  | literal => exact tracks_literal.give Literal.relabel_same _
  | call => exact tracks_call_exactly.map fun _ _ => congrArg Call.toJson
  | qualifier => exact tracks_qualifier_exactly.map fun _ _ => congrArg Qualifier.toJson
  | reference => exact tracks_anyReference.give Reference.relabel_same _
  | block => exact (tracks_block.anyhow .kept).give relabelBlock_same _
  | statement => exact tracks_statement.give Statement.relabel_same _
  | assignment => exact tracks_assignment.give Statement.relabel_same _
  | localVariables => exact tracks_localVariables.give Statement.relabel_same _
  | redim => exact tracks_redim.give Statement.relabel_same _
  | exit => exact tracks_exit.give Statement.relabel_same _
  | jump => exact tracks_jump.give Statement.relabel_same _
  | onError => exact tracks_onError.give Statement.relabel_same _
  | resume => exact tracks_resume.give Statement.relabel_same _
  | label => exact tracks_label.give Statement.relabel_same _
  | explicitCall => exact tracks_explicitCall.give Statement.relabel_same _
  | implicitCall => exact tracks_implicitCall.give Statement.relabel_same _
  | raiseEvent => exact tracks_raiseEvent.give Statement.relabel_same _
  | whileLoop => exact (tracks_whileLoop tracks_block).give Statement.relabel_same _
  | doLoop => exact (tracks_doLoop tracks_block).give Statement.relabel_same _
  | forLoop => exact (tracks_forLoop tracks_block).give Statement.relabel_same _
  | conditional =>
    exact (tracks_conditional tracks_block Grammar.yields_block (Parse.many_ne_unmatched _)).give
      Statement.relabel_same _
  | withBlock => exact (tracks_withBlock tracks_block).give Statement.relabel_same _
  | select =>
    exact (tracks_select tracks_block Grammar.yields_block (Parse.many_ne_unmatched _)).give
      Statement.relabel_same _

theorem tracks_statement_exactly :
    Guide.same.Tracks .kept Routine.statement Grammar.statement Eq :=
  tracks_statement.exact Statement.relabel_same

theorem run_module_eq (s : Session) :
    ∃ notes, Routine.module.run s = .ofOutcome s notes (Grammar.module s.inside s.cursor) :=
  ((tracks_module.exact Module.relabel_same).anyhow .kept).run_eq s

end Guide

/-! ## Sessions -/

namespace Session

theorem run_eq_of_ne (s : Session) {rule : Rule} (h : rule ≠ .module) :
    s.run rule = match rule.parse s.inside s.cursor with
      | .matched tree after => (.matched tree, { s with cursor := after })
      | .unmatched => (.unmatched, s)
      | .failed failure =>
        (.failed (s.diagnose failure), { s with cursor := failure.stopped }) := by
  obtain ⟨notes, hrun⟩ := (Guide.tracks_rule rule h).run_eq s
  rw [run, hrun]
  cases rule.parse s.inside s.cursor <;> rfl

/-- The rule of a whole source reports a failure to the session. -/
theorem run_module (s : Session) :
    s.run .module = match Rule.module.parse s.inside s.cursor with
      | .matched tree after => (.matched tree, { s with cursor := after })
      | .unmatched => (.unmatched, s)
      | .failed failure => (.failed (s.report.stamp (s.diagnose failure)),
        { s with cursor := failure.stopped, report := s.report.add (s.diagnose failure) }) := by
  obtain ⟨notes, hrun⟩ := Guide.run_module_eq s
  have hparse : Rule.module.parse s.inside s.cursor =
      (Grammar.module s.inside s.cursor).andThen fun tree => .matched tree.toJson := rfl
  simp only [run, Rule.routine, Routine.run_map, Routine.reported, hrun, hparse]
  cases Grammar.module s.inside s.cursor <;> rfl

/-- Every rule comes to what its parser comes to, and the rule of a whole source reports it if that
is a failure. -/
theorem run_eq (s : Session) (rule : Rule) :
    s.run rule = match rule.parse s.inside s.cursor with
      | .matched tree after => (.matched tree, { s with cursor := after })
      | .unmatched => (.unmatched, s)
      | .failed failure =>
        let diagnostic := s.diagnose failure
        let reached := { s with cursor := failure.stopped }
        if rule = .module then
          (.failed (s.report.stamp diagnostic), { reached with report := s.report.add diagnostic })
        else (.failed diagnostic, reached) := by
  by_cases h : rule = .module
  · subst h
    exact s.run_module
  · rw [s.run_eq_of_ne h]
    split
    · rfl
    · rfl
    · rw [if_neg h]

end Session

/-- The module of a source by the parser of whole sources. -/
theorem parseModule_eq (source : String) (settings : Settings) :
    parseModule source settings = match Grammar.module [] (Cursor.start source.toList) with
      | .matched tree _ => .ok tree
      | .unmatched => .ok ⟨[]⟩
      | .failed failure =>
        .error ((Report.empty source settings.file settings.snippetWidth).stamp
          (Diagnostic.ofFailure source settings.snippetWidth failure)) := by
  obtain ⟨notes, hrun⟩ := Guide.run_module_eq (Session.start source settings)
  have hstart : Grammar.module (Session.start source settings).inside
      (Session.start source settings).cursor = Grammar.module [] (Cursor.start source.toList) := rfl
  rw [hstart] at hrun
  simp only [parseModule, Routine.reported, hrun]
  cases Grammar.module [] (Cursor.start source.toList) <;> rfl

end VisualBasic
