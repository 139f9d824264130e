import VisualBasic.Proofs.Gap.Frame
import VisualBasic.Proofs.Parse.Unrolling
import VisualBasic.Proofs.Tree.Blocks

/-!
# Statements in their frames

Every statement lies in its frame, and every block inside it is a run of statements: after the line
that introduces the block its statements are read one after the other, each from where the one
before it ends.
-/

set_option autoImplicit false

namespace VisualBasic

namespace Grammar

open Cursor (Reaches Stopped)
open Parse

variable {origin : Cursor}

/-- The statements of a block are read one after the other, from a place after a stop. -/
def ReadFrom (origin : Cursor) (body : List Statement) : Prop :=
  ∃ inside c d, Stopped origin c ∧ Runs statement inside c body d

/-- A block and all blocks inside it are read from places after stops. -/
def AllReadFrom (origin : Cursor) (body : List Statement) : Prop :=
  ∀ b ∈ nestedBlocks body, ReadFrom origin b

/-- Each statement that a parser reads lies in its frame, with blocks that are read. -/
abbrev FramesStatement (origin : Cursor) (p : Parse Statement) : Prop :=
  Frames origin p Statement.span fun line => ∀ b ∈ line.blocks, ReadFrom origin b

/-- Under a span, a statement in code with that span. -/
structure Builds (origin : Cursor) (build : Span → Statement) : Prop where
  span (place : Span) : (build place).span = place
  code (place : Span) : (build place).isTrivia = false
  blocks (place : Span) : ∀ b ∈ (build place).blocks, ReadFrom origin b

/-- A statement in code is one tight region. -/
theorem regions_eq_of_isTrivia_eq_false {line : Statement} (h : line.isTrivia = false) :
    ∃ parts, line.regions = [.mk line.span true parts] := by
  cases line with
  | comment note => contradiction
  | emptyLine place => contradiction
  | _ => exact ⟨_, rfl⟩

/-- A statement in code without blocks. -/
theorem builds_simple {build : Span → Statement}
    (h : ∀ place, (build place).span = place ∧ (build place).isTrivia = false ∧
      (build place).blocks = []) : Builds origin build where
  span place := (h place).1
  code place := (h place).2.1
  blocks place := by simp [(h place).2.2]

theorem frames_code {construct : Construct} {p : Parse (Span → Statement)}
    (hregions : Concludes (sentence construct p) Statement.regions)
    (h : Ensures (Reaches origin) p (Builds origin)) :
    FramesStatement origin (sentence construct p) := by
  apply frames_sentence hregions
  refine h.weaken fun build hbuild place => ⟨hbuild.span place, ?_, hbuild.blocks place⟩
  have hparts := regions_eq_of_isTrivia_eq_false (hbuild.code place)
  rwa [hbuild.span place] at hparts

/-! ## Statements without blocks -/

theorem frames_assignment : FramesStatement origin assignment := by
  have htarget (isWritten : Bool) :
      Advances (if isWritten then requireReference "variable" else anyReference) := by
    cases isWritten
    · exact yields_anyReference.advances
    · exact (yields_requireReference _).advances
  have hvalue (kind : AssignmentKind) (target : Reference) :
      Ensures (Reaches origin) (do
        let value ← requireExpression "expression"
        return fun span => Statement.assign kind target value span) (Builds origin) := by
    refine (yields_requireExpression _).advances.ensures.andThen fun _ _ => ?_
    exact ensures_pure (builds_simple fun _ => ⟨rfl, rfl, rfl⟩)
  refine frames_code concludes_assignment ?_
  refine (moves_oneOf _).optToken.advances.ensures.andThen fun kind _ => ?_
  refine (htarget _).ensures.andThen fun target _ => ?_
  dsimp only
  split
  · exact (begins_requireSymbol (by decide)).advances.ensures.andThen fun _ _ => hvalue _ target
  · exact (begins_symbol (by decide)).advances.ensures.andThen fun _ _ => hvalue _ target

theorem frames_localVariables : FramesStatement origin localVariables := by
  refine frames_code concludes_localVariables ?_
  refine (moves_oneOf _).advances.ensures.andThen fun _ _ => ?_
  refine (yields_declaredVariables yields_declaredVariable.require).advances.ensures.andThen
    fun _ _ => ?_
  exact ensures_pure (builds_simple fun _ => ⟨rfl, rfl, rfl⟩)

theorem frames_redim : FramesStatement origin redim := by
  refine frames_code concludes_redim ?_
  refine (moves_keyword _).advances.ensures.andThen fun _ _ => ?_
  refine (moves_keyword _).flag.advances.ensures.andThen fun _ _ => ?_
  refine (yields_requireReference _).advances.ensures.andThen fun _ _ => ?_
  refine (begins_requireSymbol (by decide)).advances.ensures.andThen fun _ _ => ?_
  refine yields_expressionList.require.advances.ensures.andThen fun _ _ => ?_
  refine (begins_requireSymbol (by decide)).advances.ensures.andThen fun _ _ => ?_
  exact ensures_pure (builds_simple fun _ => ⟨rfl, rfl, rfl⟩)

theorem frames_exit : FramesStatement origin exit := by
  refine frames_code concludes_exit ?_
  refine (moves_keyword _).advances.ensures.andThen fun _ _ => ?_
  refine (moves_oneOf _).require.advances.ensures.andThen fun _ _ => ?_
  exact ensures_pure (builds_simple fun _ => ⟨rfl, rfl, rfl⟩)

theorem frames_jump : FramesStatement origin jump := by
  refine frames_code concludes_jump ?_
  refine (moves_oneOf _).advances.ensures.andThen fun _ _ => ?_
  refine (moves_requireName _).advances.ensures.andThen fun _ _ => ?_
  exact ensures_pure (builds_simple fun _ => ⟨rfl, rfl, rfl⟩)

theorem frames_onError : FramesStatement origin onError := by
  refine frames_code concludes_onError ?_
  refine (moves_keyword _).advances.ensures.andThen fun _ _ => ?_
  refine (moves_requireKeyword _).advances.ensures.andThen fun _ _ => ?_
  refine moves_errorResponse.require.advances.ensures.andThen fun _ _ => ?_
  exact ensures_pure (builds_simple fun _ => ⟨rfl, rfl, rfl⟩)

theorem frames_resume : FramesStatement origin resume := by
  refine frames_code concludes_resume ?_
  refine (moves_keyword _).advances.ensures.andThen fun _ _ => ?_
  refine moves_resumePoint.advances.ensures.andThen fun _ _ => ?_
  exact ensures_pure (builds_simple fun _ => ⟨rfl, rfl, rfl⟩)

theorem frames_explicitCall : FramesStatement origin explicitCall := by
  refine frames_code concludes_explicitCall ?_
  refine (moves_keyword _).advances.ensures.andThen fun _ _ => ?_
  refine advances_mark.ensures.andThen fun _ _ => ?_
  refine moves_procedureName.require.advances.ensures.andThen fun _ _ => ?_
  refine (begins_requireSymbol (by decide)).advances.ensures.andThen fun _ _ => ?_
  refine yields_requireArguments.advances.ensures.andThen fun _ _ => ?_
  exact ensures_pure (builds_simple fun _ => ⟨rfl, rfl, rfl⟩)

theorem frames_raiseEvent : FramesStatement origin raiseEvent := by
  refine frames_code concludes_raiseEvent ?_
  refine (moves_keyword _).advances.ensures.andThen fun _ _ => ?_
  refine (moves_requireName _).advances.ensures.andThen fun _ _ => ?_
  refine (begins_requireSymbol (by decide)).advances.ensures.andThen fun _ _ => ?_
  refine yields_requireArguments.advances.ensures.andThen fun _ _ => ?_
  exact ensures_pure (builds_simple fun _ => ⟨rfl, rfl, rfl⟩)

/-- The rest of the line after a label is passed over only if it holds no code. -/
theorem frames_label : FramesStatement origin label := by
  intro inside c line after hc hm
  obtain ⟨found, stop, hfound, hm⟩ := matched_bind hm
  obtain ⟨_, e, hend, hm⟩ := matched_bind hm
  cases hm
  obtain ⟨build, hbuild, rfl⟩ := matched_spanned hfound
  obtain ⟨name, d, hname, hbuild⟩ := matched_bind hbuild
  obtain ⟨_, e, hcolon, hbuild⟩ := matched_bind hbuild
  cases hbuild
  have htoken : Cursor.Token c.skipBlanks stop :=
    (moves_identifier _ _ _ _ hname).trans
      (moves_adjacent (by decide) (by decide) _ _ _ _ hcolon)
  have hstop : Reaches c stop := (Cursor.reaches_skipBlanks c).trans htoken.reaches
  have hclose : Cursor.Closes stop after ∧ Stopped origin after := by
    unfold opt orElse at hend
    split at hend
    · cases hend
      have hd :=
        (hc.trans (Cursor.reaches_skipBlanks c)).trans (moves_identifier _ _ _ _ hname).reaches
      exact ⟨htoken.begun.fresh.closes, Cursor.stopped_of_colon hd (matched_pass hcolon)⟩
    · obtain ⟨_, f, hline, hend⟩ := matched_bind hend
      cases hend
      have hline := matched_pass hline
      exact ⟨htoken.begun.fresh.closes_of_lineEnd hline,
        Cursor.stopped_of_lineEnd (hc.trans hstop) hline⟩
  refine ⟨hclose.2, ⟨_, stop, rfl, .inr rfl, hstop, hclose.1⟩, ?_⟩
  simp [Statement.blocks]

theorem frames_implicitCall : FramesStatement origin implicitCall := by
  intro inside c line after hc hm
  obtain ⟨start, d, hstart, hm⟩ := matched_bind hm
  cases hstart
  obtain ⟨name, d, hname, hm⟩ := matched_bind hm
  obtain ⟨⟨values, stop⟩, e, harguments, hm⟩ := matched_bind hm
  cases hm
  obtain ⟨hslack, hend, _⟩ := callArguments_regions harguments
  have htoken : Cursor.Token c.skipBlanks stop :=
    Cursor.Composes.comp (moves_procedureName _ _ _ _ hname) hslack
  have hstop : Reaches c stop := (Cursor.reaches_skipBlanks c).trans htoken.reaches
  have hclose := htoken.begun.fresh.closes_of_terminator hend
  have hstopped := Cursor.stopped_of_terminator (hc.trans hstop) hend
  refine ⟨hstopped, ⟨_, stop, rfl, .inr rfl, hstop, hclose⟩, ?_⟩
  simp [Statement.blocks]

/-! ## Compound statements -/

section Compound

variable {block : Parse (List Statement)} (hregions : Yields block Reaches blockRegions)
  (hb : Ensures (Stopped origin) block (AllReadFrom origin))

include hb

theorem builds_forEachLoop : Ensures (Reaches origin) (forEachLoop block) (Builds origin) := by
  refine (moves_keyword _).advances.ensures.andThen fun _ _ => ?_
  refine (yields_requireReference _).advances.ensures.andThen fun _ _ => ?_
  refine (moves_requireKeyword _).advances.ensures.andThen fun _ _ => ?_
  refine (yields_requireExpression _).advances.ensures.andThen fun _ _ => ?_
  refine hb.terminated fun body hbody => ?_
  refine moves_loopEnd.advances.ensures.andThen fun _ _ => ?_
  exact ensures_pure ⟨fun _ => rfl, fun _ => rfl, fun _ => hbody⟩

theorem builds_countingLoop : Ensures (Reaches origin) (countingLoop block) (Builds origin) := by
  refine (yields_requireReference _).advances.ensures.andThen fun _ _ => ?_
  refine (begins_requireSymbol (by decide)).advances.ensures.andThen fun _ _ => ?_
  refine (yields_requireExpression _).advances.ensures.andThen fun _ _ => ?_
  refine (moves_requireKeyword _).advances.ensures.andThen fun _ _ => ?_
  refine (yields_requireExpression _).advances.ensures.andThen fun _ _ => ?_
  refine (yields_requireExpression _).after.advances.ensures.andThen fun _ _ => ?_
  refine hb.terminated fun body hbody => ?_
  refine moves_loopEnd.advances.ensures.andThen fun _ _ => ?_
  exact ensures_pure ⟨fun _ => rfl, fun _ => rfl, fun _ => hbody⟩

theorem readFrom_branch (k : Keyword) :
    Ensures (Reaches origin) (branch block k)
      fun found => ∀ b ∈ found.blocks, ReadFrom origin b := by
  refine Ensures.spanned ((moves_keyword _).advances.ensures.andThen fun _ _ => ?_)
  refine (yields_requireExpression _).advances.ensures.andThen fun _ _ => ?_
  refine (moves_requireKeyword _).advances.ensures.andThen fun _ _ => ?_
  refine Ensures.opened (fun _ _ _ _ hc hm => ?_) hb fun _ body hbody => ?_
  · exact Cursor.stopped_of_terminator hc (terminator_of_requireTerminator (matched_advise hm))
  exact ensures_pure fun _ => hbody

theorem readFrom_caseBlock :
    Ensures (Reaches origin) (caseBlock block)
      fun found => ∀ b ∈ found.blocks, ReadFrom origin b := by
  refine Ensures.spanned ((moves_keyword _).advances.ensures.andThen fun _ _ => ?_)
  refine (moves_unlessKeyword _).advances.ensures.andThen fun _ _ => ?_
  refine (yields_caseClause.separated yields_caseClause).advances.ensures.andThen fun _ _ => ?_
  refine hb.terminated fun body hbody => ?_
  exact ensures_pure fun _ => hbody

theorem readFrom_elseBlock :
    Ensures (Reaches origin) (elseBlock block) (AllReadFrom origin) := by
  refine (moves_keyword _).advances.ensures.andThen fun _ _ => ?_
  refine (moves_keyword _).advances.ensures.andThen fun _ _ => ?_
  exact hb.afterTerminator

include hregions

theorem frames_whileLoop : FramesStatement origin (whileLoop block) := by
  refine frames_code (concludes_whileLoop hregions) ?_
  refine (moves_keyword _).advances.ensures.andThen fun _ _ => ?_
  refine (yields_requireExpression _).advances.ensures.andThen fun _ _ => ?_
  refine hb.terminated fun body hbody => ?_
  refine (moves_requireKeyword _).advances.ensures.andThen fun _ _ => ?_
  exact ensures_pure ⟨fun _ => rfl, fun _ => rfl, fun _ => hbody⟩

theorem frames_doLoop : FramesStatement origin (doLoop block) := by
  refine frames_code (concludes_doLoop hregions) ?_
  refine (moves_keyword _).advances.ensures.andThen fun _ _ => ?_
  refine yields_loopTest.optToken.advances.ensures.andThen fun first _ => ?_
  refine hb.terminated fun body hbody => ?_
  refine (moves_requireKeyword _).advances.ensures.andThen fun _ _ => ?_
  refine moves_nextToken.advances.ensures.andThen fun _ _ => ?_
  refine yields_loopTest.optToken.advances.ensures.andThen fun last _ => ?_
  cases first with
  | none =>
    cases last with
    | none => exact ensures_pure ⟨fun _ => rfl, fun _ => rfl, fun _ => hbody⟩
    | some last => exact ensures_pure ⟨fun _ => rfl, fun _ => rfl, fun _ => hbody⟩
  | some first =>
    cases last with
    | none => exact ensures_pure ⟨fun _ => rfl, fun _ => rfl, fun _ => hbody⟩
    | some last => exact Ensures.advise ensures_failAt

theorem frames_forLoop : FramesStatement origin (forLoop block) := by
  refine frames_code (concludes_forLoop hregions) ?_
  refine (moves_keyword _).advances.ensures.andThen fun _ _ => ?_
  exact (builds_forEachLoop hb).orElse (builds_countingLoop hb)

theorem frames_conditional : FramesStatement origin (conditional block) := by
  refine frames_code (concludes_conditional hregions) ?_
  refine (readFrom_branch hb _).andThen fun first hfirst => ?_
  refine (readFrom_branch hb _).many.andThen fun others hothers => ?_
  refine advances_mark.ensures.andThen fun _ _ => ?_
  refine ((moves_keyword .Else).advances.ensures.seqRight hb.afterTerminator).opt.andThen
    fun otherwise hotherwise => ?_
  refine (moves_requireEnd _).advances.ensures.andThen fun _ _ => ?_
  refine ensures_pure ⟨fun _ => rfl, fun _ => rfl, fun _ b hmem => ?_⟩
  rcases List.mem_append.mp hmem with hmem | hmem
  · rcases List.mem_append.mp hmem with hmem | hmem
    · exact hfirst b hmem
    · exact forall_mem_branchBlocks hothers b hmem
  · exact forall_mem_otherwiseBlocks hotherwise b hmem

theorem frames_withBlock : FramesStatement origin (withBlock block) := by
  refine frames_code (concludes_withBlock hregions) ?_
  refine (moves_keyword _).advances.ensures.andThen fun _ _ => ?_
  refine (yields_requireReference _).advances.ensures.andThen fun _ _ => ?_
  refine hb.terminated fun body hbody => ?_
  refine (moves_requireEnd _).advances.ensures.andThen fun _ _ => ?_
  exact ensures_pure ⟨fun _ => rfl, fun _ => rfl, fun _ => hbody⟩

theorem frames_select : FramesStatement origin (select block) := by
  refine frames_code (concludes_select hregions) ?_
  refine (moves_keyword _).advances.ensures.andThen fun _ _ => ?_
  refine (moves_requireKeyword _).advances.ensures.andThen fun _ _ => ?_
  refine (yields_requireExpression _).advances.ensures.andThen fun _ _ => ?_
  refine moves_requireTerminator.advances.ensures.andThen fun _ _ => ?_
  refine moves_skipTrivia.advances.ensures.andThen fun _ _ => ?_
  refine (readFrom_caseBlock hb).many.andThen fun cases hcases => ?_
  refine advances_mark.ensures.andThen fun _ _ => ?_
  refine (readFrom_elseBlock hb).opt.andThen fun otherwise hotherwise => ?_
  refine (moves_requireEnd _).advances.ensures.andThen fun _ _ => ?_
  refine ensures_pure ⟨fun _ => rfl, fun _ => rfl, fun _ b hmem => ?_⟩
  rcases List.mem_append.mp hmem with hmem | hmem
  · exact forall_mem_caseBlocks hcases b hmem
  · exact forall_mem_otherwiseBlocks hotherwise b hmem

theorem frames_codeStatement (word : Option Keyword) :
    FramesStatement origin (codeStatement block word) := by
  have hplain : FramesStatement origin (firstOf [assignment, label, implicitCall]) := by
    apply frames_firstOf
    intro p hp
    simp only [List.mem_cons, List.not_mem_nil, or_false] at hp
    rcases hp with rfl | rfl | rfl
    · exact frames_assignment
    · exact frames_label
    · exact frames_implicitCall
  unfold codeStatement
  split
  · exact frames_assignment
  · exact frames_assignment
  · exact frames_localVariables
  · exact frames_localVariables
  · exact frames_redim
  · exact frames_exit
  · exact frames_jump
  · exact frames_jump
  · exact frames_onError
  · exact frames_resume
  · exact frames_explicitCall
  · exact frames_raiseEvent
  · exact frames_whileLoop hregions hb
  · exact frames_doLoop hregions hb
  · exact frames_forLoop hregions hb
  · exact frames_conditional hregions hb
  · exact frames_withBlock hregions hb
  · exact frames_select hregions hb
  · exact hplain

end Compound

/-! ## Lines without code -/

theorem frames_comment : Frames origin (Parse.read comment) Comment.span fun _ => True := by
  intro inside c note after hc hm
  unfold Parse.read at hm
  split at hm
  · rename_i hcomment
    cases hm
    obtain ⟨⟨content, stop⟩, hstop, hcomment⟩ := Option.bind_eq_some_iff.mp hcomment
    obtain ⟨_, hend, hnote⟩ := Option.map_eq_some_iff.mp hcomment
    cases hnote
    have hreach := (Cursor.reaches_skipBlanks c).trans (Cursor.reaches_of_comment hstop)
    have hclose := Cursor.closes_of_breakOrEnd hend
    have hstopped := Cursor.stopped_of_breakOrEnd (hc.trans hreach) hend
    exact ⟨hstopped, ⟨_, stop, rfl, .inr rfl, hreach, hclose⟩, trivial⟩
  · contradiction

/-- An empty line has its break inside its span. -/
theorem frames_emptyLine : Frames origin (Parse.read emptyLine) EmptyLine.span fun _ => True := by
  intro inside c line after hc hm
  unfold Parse.read at hm
  split at hm
  · rename_i hline
    cases hm
    obtain ⟨_, hend, hline⟩ := Option.map_eq_some_iff.mp hline
    cases hline
    have hreach := (Cursor.reaches_skip _ c).trans (Cursor.reaches_of_lineBreak hend)
    have hfresh := (Cursor.over_of_lineBreak hend).2
    have hstopped := Cursor.stopped_of_blankLine hc hend
    exact ⟨hstopped, ⟨c, after, rfl, .inl rfl, hreach, hfresh.closes⟩, trivial⟩
  · contradiction

/-! ## Blocks -/

/-- The blocks that a repetition of statements reads. -/
theorem readFrom_many {inner : Parse Statement} (himplies : Implies inner statement)
    (h : Ensures (Stopped origin) inner fun line => ∀ b ∈ line.blocks, ReadFrom origin b) :
    Ensures (Stopped origin) (many inner) (AllReadFrom origin) := by
  intro inside c body after hc hm
  obtain ⟨hafter, hlines⟩ := h.many inside c body after hc hm
  have hbody : ReadFrom origin body := ⟨inside, c, after, hc, (runs_of_many hm).mono himplies⟩
  exact ⟨hafter, forall_mem_nestedBlocks hbody hlines⟩

theorem frames_statementWith {inner : Parse Statement}
    (hregions : Yields (many inner) Reaches blockRegions)
    (hb : Ensures (Stopped origin) (many inner) (AllReadFrom origin)) :
    FramesStatement origin (statementWith inner) := by
  have hcode : FramesStatement origin
      (fun inside c => codeStatement (many inner) c.peekKeyword inside c) := fun inside c =>
    frames_codeStatement hregions hb c.peekKeyword inside c
  apply Frames.orElse
  · exact frames_comment.map (fun _ => rfl) fun _ _ => by simp [Statement.blocks]
  · apply Frames.orElse
    · exact frames_emptyLine.map (fun _ => rfl) fun _ _ => by simp [Statement.blocks]
    · exact hcode.orElse frames_unmatched

theorem readFrom_block : Ensures (Stopped origin) block (AllReadFrom origin) := by
  have hstatement : Ensures (Stopped origin) statement
      fun line => ∀ b ∈ line.blocks, ReadFrom origin b := by
    refine Ensures.fix fun inner himplies hinner => ?_
    exact (frames_statementWith (yields_statements fun inside c line after hm =>
      yields_statement inside c line after (himplies inside c line after hm))
        (readFrom_many himplies hinner)).ensuresStopped
  exact readFrom_many (fun _ _ _ _ hm => hm) hstatement

theorem frames_statement : FramesStatement origin statement := by
  rw [statement_eq]
  exact frames_statementWith yields_block readFrom_block

end Grammar

end VisualBasic
