import VisualBasic.Grammar.Statement
import VisualBasic.Proofs.Span.Declaration

/-!
# Regions of statements

The rules of compound statements are laid out given blocks that are; `statement` then is because
each step of it is.
-/

set_option autoImplicit false

namespace VisualBasic

/-- A keyword that a statement starts with. -/
def Keyword.isStatementWord (k : Keyword) : Bool :=
  [.Set, .Let, .Dim, .Static, .ReDim, .Exit, .GoTo, .GoSub, .On, .Resume, .Call, .RaiseEvent,
    .While, .Do, .For, .If, .With, .Select].contains k

namespace Grammar

open Cursor (Token Slack Opened Ahead Reaches)
open Parse

/-! ## Expressions inside statements -/

theorem yields_requireExpression (part : String) :
    Yields (requireExpression part) Token Expression.regions :=
  (yields_read expression_lays).require

theorem yields_anyReference : Yields anyReference Token Reference.regions :=
  yields_read (reference_lays expression_lays)

theorem yields_requireReference (part : String) :
    Yields (requireReference part) Token Reference.regions := yields_anyReference.require

theorem yields_expressionList : Yields expressionList Token expressionRegions := by
  intro inside c values after hm
  rw [expressionRegions_eq_flatMap]
  exact (yields_read expression_lays).separated (yields_requireExpression _) _ _ _ _ hm

theorem yields_requireArguments : Yields requireArguments Token expressionRegions := by
  intro inside c values after hm
  unfold requireArguments at hm
  split at hm
  · cases hm
    exact arguments_lays expression_lays ‹_›
  · contradiction

/-! ## Simple statements -/

theorem concludes_assignment : Concludes assignment Statement.regions := by
  have htarget (isWritten : Bool) :
      Yields (if isWritten then requireReference "variable" else anyReference) Token
        Reference.regions := by
    cases isWritten
    · exact yields_anyReference
    · exact yields_requireReference _
  have hvalue (kind : AssignmentKind) (target : Reference) :
      Proceeds Token target.regions (do
        let value ← requireExpression "expression"
        return fun span => Statement.assign kind target value span) Token
        fun build regions => ∀ span, (build span).regions = [.mk span true regions] := by
    refine (yields_requireExpression _).andThen fun _ => ?_
    exact .pure fun _ => rfl
  refine Proceeds.sentence ?_
  refine (moves_oneOf _).optToken.andThen fun kind => ?_
  refine (htarget _).andThen fun target => ?_
  dsimp only
  split
  · exact (moves_requireSymbol (by decide) (by decide)).andThen fun _ => hvalue _ target
  · exact (moves_symbol (by decide) (by decide)).andThen fun _ => hvalue _ target

theorem concludes_localVariables : Concludes localVariables Statement.regions := by
  refine Proceeds.sentence ?_
  refine (moves_oneOf _).andThen fun _ => ?_
  refine (yields_declaredVariables yields_declaredVariable.require).andThen fun _ => ?_
  exact .pure fun _ => rfl

theorem concludes_redim : Concludes redim Statement.regions := by
  refine Proceeds.sentence ?_
  refine (moves_keyword _).andThen fun _ => ?_
  refine (moves_keyword _).flag.andThen fun _ => ?_
  refine (yields_requireReference _).andThen fun _ => ?_
  refine (begins_requireSymbol (by decide)).andThen fun _ => ?_
  refine yields_expressionList.require.andThen fun _ => ?_
  refine (moves_requireSymbol (by decide) (by decide)).andThen fun _ => ?_
  exact .pure fun _ => rfl

theorem concludes_exit : Concludes exit Statement.regions := by
  refine Proceeds.sentence ?_
  refine (moves_keyword _).andThen fun _ => ?_
  refine (moves_oneOf _).require.andThen fun _ => ?_
  exact .pure fun _ => rfl

theorem concludes_jump : Concludes jump Statement.regions := by
  refine Proceeds.sentence ?_
  refine (moves_oneOf _).andThen fun _ => ?_
  refine (moves_requireName _).andThen fun _ => ?_
  exact .pure fun _ => rfl

theorem moves_errorTarget : Moves errorTarget Token := by
  intro inside c value after hm
  obtain ⟨place, d, hplace, hm⟩ := matched_bind hm
  cases hplace
  obtain ⟨number, d, hn, hm⟩ := matched_bind hm
  cases number with
  | none =>
    have hd := moves_number.optToken inside c none d hn
    have hname : Moves (ErrorResponse.goToLabel <$> requireName "'0', '-1' or a label") Token :=
      ((moves_requireName _).yields.map fun _ => rfl : Yields _ _ fun _ => []).moves
    exact Cursor.Composes.comp hd (hname inside d value after hm)
  | some number =>
    have ht := moves_number inside c number d (matched_opt_some hn)
    dsimp only at hm
    split at hm
    · cases hm
      exact ht
    · split at hm
      · cases hm
        exact ht
      · contradiction

theorem moves_errorResponse : Moves errorResponse Token := by
  refine (yields_firstOf fun p hp => ?_ : Yields errorResponse Token fun _ => []).moves
  simp only [List.mem_cons, List.not_mem_nil, or_false] at hp
  rcases hp with rfl | rfl | rfl
  · exact (((moves_keyword _).seqRight (moves_requireKeyword _).yields).moves).seqRight
      (yields_pure _)
  · exact (moves_keyword _).seqRight moves_errorTarget.yields
  · exact (moves_keyword _).seqRight (moves_oneOf _).require.yields

theorem concludes_onError : Concludes onError Statement.regions := by
  refine Proceeds.sentence ?_
  refine (moves_keyword _).andThen fun _ => ?_
  refine (moves_requireKeyword _).andThen fun _ => ?_
  refine moves_errorResponse.require.andThen fun _ => ?_
  exact .pure fun _ => rfl

theorem moves_resumePoint : Moves resumePoint Slack := by
  have hnumber {f : Literal → Parse ResumePoint} (hf : ∀ number, Moves (f number) Slack) :
      Moves (read Cursor.number >>= f) Token := by
    intro inside c value after hm
    obtain ⟨number, d, hn, hm⟩ := matched_bind hm
    exact Cursor.Composes.comp (moves_number inside c number d hn)
      (hf number inside d value after hm)
  have hslack {p : Parse ResumePoint} (h : Moves p Token) : Yields p Slack fun _ => [] :=
    h.yields.weaken .inr
  refine Proceeds.moves (P := fun _ _ => True) ?_
  refine moves_nextToken.andThen fun place => ?_
  refine (yields_firstOf fun p hp => ?_ : Yields _ Slack fun _ => []).last fun _ => trivial
  simp only [List.mem_cons, List.not_mem_nil, or_false] at hp
  rcases hp with rfl | rfl | rfl | rfl
  · exact hslack ((moves_keyword _).seqRight (yields_pure _)).moves
  · refine hslack (hnumber fun number => ?_)
    split
    · exact (yields_pure _).moves
    · exact moves_failAt
  · exact hslack (moves_identifier.yields.map fun _ => rfl : Yields _ _ fun _ => []).moves
  · exact yields_pure _

theorem concludes_resume : Concludes resume Statement.regions := by
  refine Proceeds.sentence ?_
  refine (moves_keyword _).andThen fun _ => ?_
  refine moves_resumePoint.andThen fun _ => ?_
  exact .pure fun _ => rfl

theorem yields_label : Yields label Opened Statement.regions := by
  refine Yields.within (Proceeds.yields ?_)
  have hname : Yields (spanned do
      let name ← identifier
      adjacent ':'
      return Statement.label name) Token Statement.regions := by
    refine Proceeds.tight ?_
    refine moves_identifier.andThen fun _ => ?_
    refine (moves_adjacent (by decide) (by decide)).andThen fun _ => ?_
    exact .pure fun _ => rfl
  refine hname.andThen fun _ => ?_
  refine moves_lineEnd.yields.optReaches.moves.andThen fun _ => ?_
  exact .pure rfl

/-! ## Calls -/

theorem slack_memberNames (c : Cursor) : Slack c (memberNames c).2 := by
  fun_induction memberNames c with
  | case1 => exact .inl rfl
  | case2 => exact .inl rfl
  | case3 c d hd _ name e he _ names f hf ih =>
    rw [hf] at ih
    have hd := Cursor.begun_of_adjacent (by decide) hd
    exact .inr (Cursor.Composes.comp (hd.token (Cursor.token_of_word he)) ih)
  | case4 c d hd _ name e he =>
    have hd := Cursor.begun_of_adjacent (by decide) hd
    exact .inr (hd.token (Cursor.token_of_word he))
  | case5 => exact .inl rfl

theorem token_of_procedureName {c d : Cursor} {name : String}
    (h : procedureName c = some (name, d)) : Token c d := by
  simp only [procedureName, Option.bind_eq_bind, Option.bind_eq_some_iff] at h
  obtain ⟨⟨first, e⟩, hn, h⟩ := h
  cases h
  have hn := Cursor.token_of_identifier hn
  have hfirst : Token c.skipBlanks e := by
    cases hdot : c.skipBlanks.adjacent '.' with
    | none => simpa [hdot] using hn
    | some f =>
      have hf := Cursor.begun_of_adjacent (by decide) hdot
      exact hf.token (by simpa [hdot] using hn)
  exact Cursor.token_skipBlanks_iff.mp (Cursor.Composes.comp hfirst (slack_memberNames e))

theorem moves_procedureName : Moves (read procedureName) Token := moves_read token_of_procedureName

theorem concludes_explicitCall : Concludes explicitCall Statement.regions := by
  refine Proceeds.sentence ?_
  refine (moves_keyword _).andThen fun _ => ?_
  refine moves_mark.andThen fun _ => ?_
  refine moves_procedureName.require.andThen fun _ => ?_
  refine (begins_requireSymbol (by decide)).andThen fun _ => ?_
  refine yields_requireArguments.andThen fun _ => ?_
  exact .pure fun _ => rfl

theorem concludes_raiseEvent : Concludes raiseEvent Statement.regions := by
  refine Proceeds.sentence ?_
  refine (moves_keyword _).andThen fun _ => ?_
  refine (moves_requireName _).andThen fun _ => ?_
  refine (begins_requireSymbol (by decide)).andThen fun _ => ?_
  refine yields_requireArguments.andThen fun _ => ?_
  exact .pure fun _ => rfl

/-- Arguments in parentheses end where the statement does, before its terminator. -/
theorem wholeArguments_regions {c stop after : Cursor} {values : List Expression}
    (h : wholeArguments c = some ((values, stop), after)) :
    Token c stop ∧ stop.terminator = some after ∧ InOrder c stop (expressionRegions values) := by
  simp only [wholeArguments, Option.bind_eq_bind, Option.bind_eq_some_iff] at h
  obtain ⟨d, hd, ⟨found, e⟩, ha, f, hf, h⟩ := h
  cases h
  have hd := Cursor.begun_of_symbol (by decide) hd
  obtain ⟨ht, hi⟩ := arguments_lays expression_lays (eq_ok_of_toOption ha)
  exact ⟨hd.token ht, hf, hi.after_reaches hd.reaches⟩

theorem looseArguments_regions {inside : List Construct} {c stop after : Cursor}
    {values : List Expression} (h : looseArguments inside c = .matched (values, stop) after) :
    Slack c stop ∧ stop.terminator = some after ∧ InOrder c stop (expressionRegions values) := by
  obtain ⟨found, d, hd, h⟩ := matched_bind h
  obtain ⟨place, e, he, h⟩ := matched_bind h
  cases he
  obtain ⟨_, f, hf, h⟩ := matched_bind h
  cases h
  obtain ⟨hs, hi⟩ := yields_expressionList.optToken _ _ _ _ hd
  refine ⟨hs, terminator_of_requireTerminator hf, ?_⟩
  cases found <;> simpa [expressionRegions] using hi

/-- The arguments of a call end where a terminator starts. -/
theorem callArguments_regions {inside : List Construct} {c stop after : Cursor}
    {values : List Expression}
    (h : orElse (Parse.read wholeArguments) looseArguments inside c =
      .matched (values, stop) after) :
    Slack c stop ∧ stop.terminator = some after ∧ InOrder c stop (expressionRegions values) := by
  unfold orElse at h
  split at h
  · exact looseArguments_regions h
  · obtain ⟨htoken, hend⟩ := wholeArguments_regions (matched_read h)
    exact ⟨.inr htoken, hend⟩

theorem concludes_implicitCall : Concludes implicitCall Statement.regions := by
  intro inside c value after hm
  obtain ⟨start, d, hstart, hm⟩ := matched_bind hm
  cases hstart
  obtain ⟨name, d, hname, hm⟩ := matched_bind hm
  obtain ⟨⟨values, stop⟩, e, harguments, hm⟩ := matched_bind hm
  cases hm
  have hname := moves_procedureName _ _ _ _ hname
  obtain ⟨hslack, hend, hi⟩ := callArguments_regions harguments
  have htoken : Token c.skipBlanks stop := Cursor.Composes.comp hname hslack
  exact ⟨stop, _, rfl, Cursor.token_skipBlanks_iff.mp htoken, hi.after_reaches hname.reaches, hend⟩

theorem codeStatement_eq_firstOf {word : Option Keyword} (block : Parse (List Statement))
    (h : word.any Keyword.isStatementWord = false) :
    codeStatement block word = firstOf [assignment, label, implicitCall] := by
  unfold codeStatement
  split <;> first | rfl | contradiction

/-! ## Compound statements -/

section Compound

variable {block : Parse (List Statement)} (hb : Yields block Reaches blockRegions)

theorem moves_loopEnd : Moves loopEnd Token := by
  refine Proceeds.moves (P := fun _ _ => True) ?_
  refine (moves_requireKeyword _).andThen fun _ => ?_
  refine yields_anyReference.moves.optToken.andThen fun _ => ?_
  exact .pure trivial

theorem yields_loopTest : Yields loopTest Token fun test => test.condition.regions := by
  refine Proceeds.yields ?_
  refine (moves_oneOf _).andThen fun _ => ?_
  refine (yields_requireExpression _).andThen fun _ => ?_
  exact .pure rfl

include hb

theorem concludes_whileLoop : Concludes (whileLoop block) Statement.regions := by
  refine Proceeds.sentence ?_
  refine (moves_keyword _).andThen fun _ => ?_
  refine (yields_requireExpression _).andThen fun _ => ?_
  refine moves_requireTerminator.andThen fun _ => ?_
  refine hb.andThen fun _ => ?_
  refine (moves_requireKeyword _).andThen fun _ => ?_
  exact .pure fun _ => rfl

theorem concludes_doLoop : Concludes (doLoop block) Statement.regions := by
  refine Proceeds.sentence ?_
  refine (moves_keyword _).andThen fun _ => ?_
  refine yields_loopTest.optToken.andThen fun first => ?_
  refine moves_requireTerminator.andThen fun _ => ?_
  refine hb.andThen fun _ => ?_
  refine (moves_requireKeyword _).andThen fun _ => ?_
  refine moves_nextToken.andThen fun _ => ?_
  refine yields_loopTest.optToken.andThen fun last => ?_
  cases first <;> cases last
  · exact .pure fun _ => by simp [Statement.regions]
  · exact .pure fun _ => by simp [Statement.regions]
  · exact .pure fun _ => by simp [Statement.regions]
  · intro start inside c value after _ _ hm
    contradiction

theorem leads_forEachLoop : Proceeds Token [] (forEachLoop block) Token fun build regions =>
    ∀ span, (build span).regions = [.mk span true regions] := by
  refine (moves_keyword _).andThen fun _ => ?_
  refine (yields_requireReference _).andThen fun _ => ?_
  refine (moves_requireKeyword _).andThen fun _ => ?_
  refine (yields_requireExpression _).andThen fun _ => ?_
  refine moves_requireTerminator.andThen fun _ => ?_
  refine hb.andThen fun _ => ?_
  refine moves_loopEnd.andThen fun _ => ?_
  exact .pure fun _ => rfl

theorem leads_countingLoop : Proceeds Token [] (countingLoop block) Token fun build regions =>
    ∀ span, (build span).regions = [.mk span true regions] := by
  refine (yields_requireReference _).andThen fun _ => ?_
  refine (moves_requireSymbol (by decide) (by decide)).andThen fun _ => ?_
  refine (yields_requireExpression _).andThen fun _ => ?_
  refine (moves_requireKeyword _).andThen fun _ => ?_
  refine (yields_requireExpression _).andThen fun _ => ?_
  refine (yields_requireExpression _).after.andThen fun _ => ?_
  refine moves_requireTerminator.andThen fun _ => ?_
  refine hb.andThen fun _ => ?_
  refine moves_loopEnd.andThen fun _ => ?_
  exact .pure fun _ => rfl

theorem concludes_forLoop : Concludes (forLoop block) Statement.regions := by
  refine Proceeds.sentence ?_
  refine (moves_keyword _).andThen fun _ => ?_
  exact (leads_forEachLoop hb).orElse (leads_countingLoop hb)

theorem yields_branch (k : Keyword) : Yields (branch block k) Opened Branch.regions := by
  refine Proceeds.loose ?_
  refine (moves_keyword _).andThen fun _ => ?_
  refine (yields_requireExpression _).andThen fun _ => ?_
  refine (moves_requireKeyword _).andThen fun _ => ?_
  refine moves_requireTerminator.advise.andThen fun _ => ?_
  refine hb.andThen fun _ => ?_
  exact .pure fun _ => rfl

theorem concludes_conditional : Concludes (conditional block) Statement.regions := by
  refine Proceeds.sentence ?_
  refine (yields_branch hb _).andThen fun _ => ?_
  refine (yields_branch hb _).manyReaches.andThen fun _ => ?_
  refine moves_mark.andThen fun _ => ?_
  refine ((moves_keyword .Else).seqRight
    (moves_requireTerminator.seqRight hb)).optReaches.andThen fun _ => ?_
  refine (moves_requireEnd _).andThen fun _ => ?_
  refine .pure fun _ => ?_
  simp [Statement.regions, branchRegions_eq_flatMap, otherwiseRegions_eq_flatMap]

theorem concludes_withBlock : Concludes (withBlock block) Statement.regions := by
  refine Proceeds.sentence ?_
  refine (moves_keyword _).andThen fun _ => ?_
  refine (yields_requireReference _).andThen fun _ => ?_
  refine moves_requireTerminator.andThen fun _ => ?_
  refine hb.andThen fun _ => ?_
  refine (moves_requireEnd _).andThen fun _ => ?_
  exact .pure fun _ => rfl

omit hb in
theorem yields_caseClause : Yields caseClause Token CaseClause.regions := by
  have hrelational : Yields relationalClause Token CaseClause.regions := by
    refine Proceeds.yields ?_
    refine (moves_keyword _).andThen fun _ => ?_
    refine moves_relation.require.andThen fun _ => ?_
    refine (yields_requireExpression _).andThen fun _ => ?_
    exact .pure rfl
  have hvalue : Yields valueClause Token CaseClause.regions := by
    refine Proceeds.yields ?_
    refine (yields_requireExpression _).andThen fun _ => ?_
    refine (yields_requireExpression _).after.andThen fun last => ?_
    refine .pure ?_
    cases last <;> simp [CaseClause.regions]
  exact hrelational.orElse hvalue

theorem yields_caseBlock : Yields (caseBlock block) Opened CaseBlock.regions := by
  refine Proceeds.loose ?_
  refine (moves_keyword _).andThen fun _ => ?_
  refine (moves_unlessKeyword _).andThen fun _ => ?_
  refine (yields_caseClause.separated yields_caseClause).andThen fun _ => ?_
  refine moves_requireTerminator.andThen fun _ => ?_
  refine hb.andThen fun _ => ?_
  exact .pure fun _ => rfl

theorem yields_elseBlock : Yields (elseBlock block) Opened blockRegions := by
  refine Proceeds.yields ?_
  refine (moves_keyword _).andThen fun _ => ?_
  refine (moves_keyword _).andThen fun _ => ?_
  refine moves_requireTerminator.andThen fun _ => ?_
  exact hb.last fun _ => rfl

theorem concludes_select : Concludes (select block) Statement.regions := by
  refine Proceeds.sentence ?_
  refine (moves_keyword _).andThen fun _ => ?_
  refine (moves_requireKeyword _).andThen fun _ => ?_
  refine (yields_requireExpression _).andThen fun _ => ?_
  refine moves_requireTerminator.andThen fun _ => ?_
  refine moves_skipTrivia.andThen fun _ => ?_
  refine (yields_caseBlock hb).manyReaches.andThen fun _ => ?_
  refine moves_mark.andThen fun _ => ?_
  refine (yields_elseBlock hb).optReaches.andThen fun _ => ?_
  refine (moves_requireEnd _).andThen fun _ => ?_
  refine .pure fun _ => ?_
  simp [Statement.regions, caseRegions_eq_flatMap, otherwiseRegions_eq_flatMap]

/-- A statement with a keyword. -/
theorem concludes_codeStatement {word : Option Keyword}
    (h : word.any Keyword.isStatementWord = true) :
    Concludes (codeStatement block word) Statement.regions := by
  unfold codeStatement
  split
  · exact concludes_assignment
  · exact concludes_assignment
  · exact concludes_localVariables
  · exact concludes_localVariables
  · exact concludes_redim
  · exact concludes_exit
  · exact concludes_jump
  · exact concludes_jump
  · exact concludes_onError
  · exact concludes_resume
  · exact concludes_explicitCall
  · exact concludes_raiseEvent
  · exact concludes_whileLoop hb
  · exact concludes_doLoop hb
  · exact concludes_forLoop hb
  · exact concludes_conditional hb
  · exact concludes_withBlock hb
  · exact concludes_select hb
  · rename_i hplain
    cases word with
    | none => contradiction
    | some k => cases k <;> simp_all [Keyword.isStatementWord]

theorem yields_codeStatement (word : Option Keyword) :
    Yields (codeStatement block word) Opened Statement.regions := by
  cases hword : word.any Keyword.isStatementWord with
  | true => exact (concludes_codeStatement hb hword).yields
  | false =>
    rw [codeStatement_eq_firstOf block hword]
    refine yields_firstOf fun p hp => ?_
    simp only [List.mem_cons, List.not_mem_nil, or_false] at hp
    rcases hp with rfl | rfl | rfl
    · exact concludes_assignment.yields
    · exact yields_label
    · exact concludes_implicitCall.yields

end Compound

/-! ## Blocks -/

theorem yields_statements {p : Parse Statement} (h : Yields p Ahead Statement.regions) :
    Yields (many p) Reaches blockRegions := by
  intro inside c values after hm
  rw [blockRegions_eq_flatMap]
  exact h.manyReaches inside c values after hm

theorem yields_statementWith {inner : Parse Statement}
    (h : Yields inner Ahead Statement.regions) :
    Yields (statementWith inner) Ahead Statement.regions := by
  refine yields_firstOf fun p hp => ?_
  rcases List.mem_cons.mp hp with rfl | hp
  · exact yields_comment.map fun _ => rfl
  rcases List.mem_cons.mp hp with rfl | hp
  · exact yields_emptyLine.map fun _ => rfl
  · obtain rfl := List.mem_singleton.mp hp
    intro inside c value after hm
    exact (yields_codeStatement (yields_statements h) c.peekKeyword).weaken Opened.ahead inside c
      value after hm

theorem yields_statement : Yields statement Ahead Statement.regions :=
  Yields.fix fun _ => yields_statementWith

theorem yields_block : Yields block Reaches blockRegions := yields_statements yields_statement

end Grammar

end VisualBasic
