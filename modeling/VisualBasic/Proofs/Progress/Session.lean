import VisualBasic.Proofs.Gap.Module
import VisualBasic.Proofs.Progress.Loop

/-!
# Progress of a session

Whatever a rule comes to, the session stands at a place of the source at or after the one where it
stood before, and after it if the rule matches, three rules aside that may match without any text.
-/

set_option autoImplicit false

namespace VisualBasic

namespace Grammar

open Parse
open Cursor (Reaches Ahead Token Opened)

/-- A match passes over some text, and a failure never goes back. -/
def Steps {α : Type} (p : Parse α) : Prop :=
  Moves p Ahead ∧ ∀ origin, Stops (Reaches origin) p

variable {α β γ : Type} {p : Parse α}

theorem steps_of_keeps {s : Strength} {g : Relabel → α → γ} (hp : Moves p Ahead)
    (h : ∀ K : Correspondence, K.Keeps s p g) : Steps p :=
  ⟨hp, fun origin => stops_of_tracks (h (.staying (Reaches origin)))⟩

theorem steps_of_opened {s : Strength} {g : Relabel → α → γ} {view : α → List Region}
    (hp : Yields p Opened view) (h : ∀ K : Correspondence, K.Keeps s p g) : Steps p :=
  steps_of_keeps (hp.moves.weaken Opened.ahead) h

theorem steps_sentence {g : Relabel → α → γ} {span : α → Span} {view : α → List Region}
    (hp : Concludes p view) (h : ∀ K : Correspondence, Pairing.KeepsSentence K p g span) :
    Steps p := steps_of_opened hp.yields fun K => (h K).tracks

theorem steps_of_token {s : Strength} {g : Relabel → α → γ} (hp : Moves p Token)
    (h : ∀ K : Correspondence, K.Keeps s p g) : Steps p :=
  steps_of_keeps (hp.weaken Token.ahead) h

theorem steps_reader {reader : Reader α}
    (h : ∀ {c value after}, reader c = some (value, after) → Token c after) :
    Steps (Parse.read reader) := by
  refine ⟨(moves_read h).weaken Token.ahead, fun origin inside c failure _ hm => ?_⟩
  unfold Parse.read at hm
  split at hm <;> contradiction

theorem Steps.map {f : α → β} (h : Steps p) : Steps (f <$> p) := by
  refine ⟨fun inside c value after hm => ?_, fun origin => (h.2 origin).map⟩
  obtain ⟨first, middle, hfirst, hm⟩ := matched_bind hm
  cases hm
  exact h.1 inside c first after hfirst

/-- A value that is kept or dropped where the parser that gives it ends. -/
theorem Steps.sift {f : α → Parse β} {construct : Construct} (h : Steps p)
    (hf : ∀ value inside c,
      f value inside c = .unmatched ∨ ∃ kept, f value inside c = .matched kept c) :
    Steps (within construct (p >>= f)) := by
  constructor
  · intro inside c value after hm
    obtain ⟨first, middle, hfirst, hm⟩ := matched_bind hm
    have hmove := h.1 _ c first middle hfirst
    rcases hf first (construct :: inside) middle with hf | ⟨kept, hf⟩
    · rw [hf] at hm
      contradiction
    · rw [hf] at hm
      cases hm
      exact hmove
  · intro origin inside
    refine (h.2 origin).andThen (fun value inside c failure hm => ?_) _
    rcases hf value inside c with hf | ⟨kept, hf⟩
    · rw [hf] at hm
      contradiction
    · rw [hf] at hm
      contradiction

/-! ## Declarations -/

theorem steps_externalProcedure : Steps externalProcedure :=
  steps_sentence concludes_externalProcedure fun _ => keeps_externalProcedure

theorem steps_externalSub : Steps externalSub := by
  refine steps_externalProcedure.sift fun value inside c => ?_
  cases value with
  | externalSub declaration => exact .inr ⟨declaration, rfl⟩
  | _ => exact .inl rfl

theorem steps_externalFunction : Steps externalFunction := by
  refine steps_externalProcedure.sift fun value inside c => ?_
  cases value with
  | externalFunction declaration => exact .inr ⟨declaration, rfl⟩
  | _ => exact .inl rfl

theorem steps_plainHead (construct : Construct) {k : Keyword} (hk : k ≠ .Rem) (part : String) :
    Steps (plainHead construct k part) :=
  steps_sentence (concludes_plainHead construct k part) fun _ => keeps_plainHead construct hk part

theorem steps_propertyHead : Steps propertyHead :=
  steps_of_opened concludes_propertyHead.yields fun _ => keeps_propertyHead

theorem steps_letterHead : Steps letterHead := by
  refine steps_propertyHead.sift fun value inside c => ?_
  cases value with
  | letter head => exact .inr ⟨head, rfl⟩
  | _ => exact .inl rfl

theorem steps_setterHead : Steps setterHead := by
  refine steps_propertyHead.sift fun value inside c => ?_
  cases value with
  | setter head => exact .inr ⟨head, rfl⟩
  | _ => exact .inl rfl

theorem steps_getterHead : Steps getterHead := by
  refine steps_propertyHead.sift fun value inside c => ?_
  cases value with
  | getter head => exact .inr ⟨head, rfl⟩
  | _ => exact .inl rfl

end Grammar

namespace Rule

open Parse Grammar
open Cursor (Reaches Ahead Token Opened)

/-- The rules that may match without passing over any text. -/
def mayStay : Rule → Bool
  | .module => true
  | .block => true
  | .qualifier => true
  | _ => false

theorem steps_parse {rule : Rule} (h : rule.mayStay = false) : Steps rule.parse := by
  cases rule with
  | module => contradiction
  | block => contradiction
  | qualifier => contradiction
  | item => exact (steps_of_keeps yields_item.moves fun _ => keeps_item).map
  | comment => exact (steps_of_keeps yields_comment.moves fun _ => keeps_comment).map
  | emptyLine => exact (steps_of_keeps yields_emptyLine.moves fun _ => keeps_emptyLine).map
  | attributeLine => exact (steps_sentence concludes_attributeLine fun _ => keeps_attributeLine).map
  | optionLine => exact (steps_sentence concludes_optionLine fun _ => keeps_optionLine).map
  | declaration =>
    exact (steps_of_opened concludes_declaration.yields fun _ => keeps_declaration).map
  | declaredVariable =>
    exact (steps_of_token yields_declaredVariable.moves fun _ => keeps_declaredVariable).map
  | typeName => exact (steps_of_token moves_typeName fun _ => keeps_typeName).map
  | variableGroup => exact (steps_sentence concludes_variableGroup fun _ => keeps_variableGroup).map
  | constantGroup => exact (steps_sentence concludes_constantGroup fun _ => keeps_constantGroup).map
  | record => exact (steps_sentence concludes_record fun _ => keeps_record).map
  | enumeration => exact (steps_sentence concludes_enumeration fun _ => keeps_enumeration).map
  | parameter => exact (steps_of_token yields_parameter.moves fun _ => keeps_parameter).map
  | parameters => exact (steps_of_token yields_parameters.moves fun _ => keeps_parameters).map
  | parameterList =>
    exact (steps_of_token yields_parameterList.moves fun _ => keeps_parameterList).map
  | externalSub => exact steps_externalSub.map
  | externalFunction => exact steps_externalFunction.map
  | eventHead => exact (steps_plainHead _ (by decide) _).map
  | subHead => exact (steps_plainHead _ (by decide) _).map
  | functionHead =>
    exact (steps_of_opened concludes_functionHead.yields fun _ => keeps_functionHead).map
  | propertyHead => exact steps_propertyHead.map
  | letterHead => exact steps_letterHead.map
  | setterHead => exact steps_setterHead.map
  | getterHead => exact steps_getterHead.map
  | subDefinition =>
    exact (steps_sentence (concludes_definition (concludes_plainHead _ _ _).yields)
      fun _ => keeps_definition (keeps_plainHead _ (by decide) _).tracks (by decide)).map
  | functionDefinition =>
    exact (steps_sentence (concludes_definition concludes_functionHead.yields)
      fun _ => keeps_definition keeps_functionHead (by decide)).map
  | propertyDefinition =>
    exact (steps_sentence (concludes_definition concludes_propertyHead.yields)
      fun _ => keeps_definition keeps_propertyHead (by decide)).map
  | expression => exact (steps_reader fun h => (expression_lays _ _ _ h).1).map
  | literal => exact (steps_reader token_of_literal).map
  | call => exact (steps_reader fun h => (call_lays expression_lays _ _ _ h).1).map
  | reference => exact (steps_reader fun h => (reference_lays expression_lays _ _ _ h).1).map
  | statement => exact (steps_of_keeps yields_statement.moves fun _ => keeps_statement).map
  | assignment => exact (steps_sentence concludes_assignment fun _ => keeps_assignment).map
  | localVariables =>
    exact (steps_sentence concludes_localVariables fun _ => keeps_localVariables).map
  | redim => exact (steps_sentence concludes_redim fun _ => keeps_redim).map
  | exit => exact (steps_sentence concludes_exit fun _ => keeps_exit).map
  | jump => exact (steps_sentence concludes_jump fun _ => keeps_jump).map
  | onError => exact (steps_sentence concludes_onError fun _ => keeps_onError).map
  | resume => exact (steps_sentence concludes_resume fun _ => keeps_resume).map
  | label => exact (steps_of_opened yields_label fun _ => keeps_label).map
  | explicitCall => exact (steps_sentence concludes_explicitCall fun _ => keeps_explicitCall).map
  | implicitCall =>
    exact (steps_of_opened concludes_implicitCall.yields fun _ => keeps_implicitCall).map
  | raiseEvent => exact (steps_sentence concludes_raiseEvent fun _ => keeps_raiseEvent).map
  | whileLoop =>
    exact (steps_sentence (concludes_whileLoop yields_block)
      fun _ => whileLoop_tracks keeps_block commits_block).map
  | doLoop =>
    exact (steps_sentence (concludes_doLoop yields_block)
      fun _ => doLoop_tracks keeps_block commits_block).map
  | forLoop =>
    exact (steps_sentence (concludes_forLoop yields_block)
      fun _ => forLoop_tracks keeps_block commits_block).map
  | conditional =>
    exact (steps_sentence (concludes_conditional yields_block)
      fun _ => conditional_tracks yields_block yields_block keeps_block commits_block).map
  | withBlock =>
    exact (steps_sentence (concludes_withBlock yields_block)
      fun _ => withBlock_tracks keeps_block commits_block).map
  | select =>
    exact (steps_sentence (concludes_select yields_block)
      fun _ => select_tracks yields_block yields_block keeps_block commits_block).map

theorem reaches_qualifier (c : Cursor) : Reaches c (Grammar.qualifier Grammar.expression c).2 := by
  have hstart : Reaches c ((c.skipBlanks.adjacent '.').getD c.skipBlanks) := by
    refine (Cursor.reaches_skipBlanks c).trans ?_
    cases hdot : c.skipBlanks.adjacent '.' with
    | none => exact Reaches.refl _
    | some d => exact Cursor.reaches_of_adjacent hdot
  unfold Grammar.qualifier
  dsimp only
  split
  · exact Reaches.refl c
  · exact hstart.trans (segments_lays expression_lays _).2.reaches

theorem advances_parse (rule : Rule) : Advances rule.parse := by
  have hmap {α β : Type} {p : Parse α} {f : α → β} (h : Advances p) : Advances (f <$> p) :=
    advances_bind h fun value => advances_pure (f value)
  cases hstay : rule.mayStay with
  | false => exact (steps_parse hstay).1.advances
  | true =>
    cases rule with
    | module => exact hmap yields_module.advances
    | block => exact hmap yields_block.advances
    | qualifier =>
      refine hmap (advances_read fun c value after h => ?_)
      have hafter : (Grammar.qualifier Grammar.expression c).2 = after :=
        congrArg Prod.snd (Option.some.inj h)
      exact hafter ▸ reaches_qualifier c
    | _ => contradiction

theorem stops_parse (rule : Rule) (origin : Cursor) : Stops (Reaches origin) rule.parse := by
  cases hstay : rule.mayStay with
  | false => exact (steps_parse hstay).2 origin
  | true =>
    cases rule with
    | module => exact (stops_of_tracks (keeps_module trivial)).map
    | block => exact (stops_of_tracks keeps_block).map
    | qualifier =>
      refine Stops.map fun inside c failure _ hm => ?_
      contradiction
    | _ => contradiction

end Rule

namespace Cursor

/-- A place in a source is told from its offset. -/
theorem Reaches.eq_ofOffset {source : List Char} {c : Cursor} (h : Reaches (start source) c) :
    c = ofOffset source c.offset := by
  obtain ⟨before, hsource, hoffset⟩ := h.eq_append
  have hplace : (ofOffset source c.offset).offset = c.offset := by
    rw [ofOffset, hoffset, hsource, splitBytes_byteLength, offset_skip]
    simp [start]
  exact h.eq_of_offset_eq (reaches_skip _ _) hplace.symm

theorem offset_ofOffset {source : List Char} {offset : Nat} (h : IsBoundary source offset) :
    (ofOffset source offset).offset = offset := by
  obtain ⟨before, after, rfl, rfl⟩ := h
  rw [ofOffset, splitBytes_byteLength, offset_skip]
  simp [start]

theorem Ahead.offset_lt {c d : Cursor} (h : Ahead c d) : c.offset < d.offset := by
  refine Nat.lt_of_le_of_ne h.1.offset_le fun hoffset => ?_
  have hsame := (Reaches.refl c).eq_of_offset_eq h.1 hoffset
  exact absurd h.2 (by simp [hsame])

end Cursor

namespace Session

open Cursor (Reaches)

variable {session : Session}

/-- Whatever the outcome, the session goes on from a place that the old one reaches. -/
theorem reaches_run (session : Session) (rule : Rule) :
    Reaches session.cursor (session.run rule).2.cursor := by
  rw [run_eq]
  split
  · exact rule.advances_parse _ _ _ _ ‹_›
  · exact Reaches.refl _
  · have hstop := rule.stops_parse session.cursor _ _ _ (Reaches.refl _) ‹_›
    dsimp only
    split
    · exact hstop
    · exact hstop

theorem source_run (session : Session) (rule : Rule) :
    (session.run rule).2.source = session.source := by
  rw [run_eq]
  split
  · rfl
  · rfl
  · dsimp only
    split <;> rfl

theorem ahead_run {rule : Rule} {tree : Json} (hstay : rule.mayStay = false)
    (h : (session.run rule).1 = .matched tree) :
    Cursor.Ahead session.cursor (session.run rule).2.cursor := by
  rw [run_eq] at h ⊢
  split
  · exact (Rule.steps_parse hstay).1 _ _ _ _ ‹_›
  · rename_i hmiss
    rw [hmiss] at h
    contradiction
  · rename_i hfailed
    rw [hfailed] at h
    dsimp only at h
    split at h <;> contradiction

end Session

/-- Wherever a session stands in its source, every rule leaves it at a boundary of characters that
is not before that place, and after it where a match must pass over some text. The loops of
routines come to what their turns come to, and a routine uses itself no deeper than its text is
long; the repetitions and the recursion of the parsers that they follow come to an end as well. -/
theorem parsing_progresses :
    (∀ (session : Session) (offset : Nat), IsBoundary session.source.toList offset →
      session.cursor = Cursor.ofOffset session.source.toList offset → ∀ rule : Rule,
        (session.run rule).2.source = session.source ∧
        IsBoundary session.source.toList (session.run rule).2.cursor.offset ∧
        (session.run rule).2.cursor =
          Cursor.ofOffset session.source.toList (session.run rule).2.cursor.offset ∧
        offset ≤ (session.run rule).2.cursor.offset ∧
        (session.run rule).2.cursor.offset ≤ byteLength session.source.toList ∧
        (rule.mayStay = false → ∀ tree, (session.run rule).1 = .matched tree →
          offset < (session.run rule).2.cursor.offset)) ∧
    LoopsFinish ∧ RecursionUnfolds ∧ RepetitionsFinish ∧ RecursionDescends := by
  refine ⟨?_, Routine.loopsFinish, Routine.recursionUnfolds, Grammar.repetitionsFinish,
    Grammar.recursionDescends⟩
  intro session offset hboundary hcursor rule
  have hoffset : session.cursor.offset = offset := by
    rw [hcursor, Cursor.offset_ofOffset hboundary]
  have hstart : Cursor.Reaches (Cursor.start session.source.toList) session.cursor := by
    rw [hcursor]
    exact Cursor.reaches_skip _ _
  have hrun := session.reaches_run rule
  have hnext := hstart.trans hrun
  refine ⟨session.source_run rule, Cursor.isBoundary_offset hnext, hnext.eq_ofOffset, ?_,
    Cursor.offset_le_byteLength hnext, fun hstay tree hmatch => ?_⟩
  · rw [← hoffset]
    exact hrun.offset_le
  · rw [← hoffset]
    exact (Session.ahead_run hstay hmatch).offset_lt

/-- After a character of two bytes, an assignment matches, and a loop that the source cuts off
fails. -/
theorem parsing_progresses_past_two_bytes :
    let source := "£\nx = 1\nWhile y"
    let line := { Session.start source Settings.standard with cursor := .ofOffset source.toList 3 }
    let loop := { Session.start source Settings.standard with cursor := .ofOffset source.toList 9 }
    IsBoundary source.toList 3 ∧ (∃ tree, (line.run .assignment).1 = .matched tree) ∧
      3 < (line.run .assignment).2.cursor.offset ∧
      IsBoundary source.toList (line.run .assignment).2.cursor.offset ∧
      IsBoundary source.toList 9 ∧ (∃ diagnostic, (loop.run .whileLoop).1 = .failed diagnostic) ∧
      9 ≤ (loop.run .whileLoop).2.cursor.offset ∧ (loop.run .whileLoop).2.cursor.offset ≤ 16 := by
  intro source line loop
  have hline : IsBoundary source.toList 3 :=
    ⟨"£\n".toList, "x = 1\nWhile y".toList, by decide +kernel, by decide +kernel⟩
  have hloop : IsBoundary source.toList 9 :=
    ⟨"£\nx = 1\n".toList, "While y".toList, by decide +kernel, by decide +kernel⟩
  have hmatched : ∃ tree, (line.run .assignment).1 = .matched tree := by
    have h : Outcome.casesOn (motive := fun _ => Bool)
      (Rule.assignment.parse line.inside line.cursor)
        (fun _ _ => true) false (fun _ => false) = true := by
      decide +kernel
    rw [Session.run_eq]
    split
    · exact ⟨_, rfl⟩
    · rename_i hmiss
      rw [hmiss] at h
      contradiction
    · rename_i hfails
      rw [hfails] at h
      contradiction
  have hfailed : ∃ diagnostic, (loop.run .whileLoop).1 = .failed diagnostic := by
    have h : Outcome.casesOn (motive := fun _ => Bool)
      (Rule.whileLoop.parse loop.inside loop.cursor)
        (fun _ _ => false) false (fun _ => true) = true := by
      decide +kernel
    rw [Session.run_eq]
    split
    · rename_i hmatches
      rw [hmatches] at h
      contradiction
    · rename_i hmiss
      rw [hmiss] at h
      contradiction
    · exact ⟨_, rfl⟩
  have hlength : byteLength source.toList = 16 := by decide +kernel
  obtain ⟨tree, htree⟩ := hmatched
  obtain ⟨-, hboundary, -, -, -, hmoved⟩ :=
    parsing_progresses.1 line 3 hline rfl .assignment
  obtain ⟨-, -, -, hback, hend, -⟩ := parsing_progresses.1 loop 9 hloop rfl .whileLoop
  exact ⟨hline, ⟨tree, htree⟩, hmoved rfl tree htree, hboundary, hloop, hfailed, hback,
    hend.trans_eq hlength⟩

end VisualBasic
