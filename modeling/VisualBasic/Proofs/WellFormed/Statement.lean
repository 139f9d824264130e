import VisualBasic.Grammar.Statement
import VisualBasic.Proofs.WellFormed.Declaration

/-!
# Well-formed statements

The simple statements are followed part by part. A compound statement is well formed when the parser
of the blocks inside it gives well-formed statements, and `statement` then is because each step of
it is.
-/

set_option autoImplicit false

namespace VisualBasic

namespace Grammar

open Parse

/-! ## Expressions inside statements -/

theorem gives_requireExpression (part : String) :
    Gives (requireExpression part) Expression.WellFormed := expression_wellFormed.gives.require

theorem gives_anyReference : Gives anyReference Reference.WellFormed :=
  (reference_wellFormed expression_wellFormed).gives

theorem gives_requireReference (part : String) :
    Gives (requireReference part) Reference.WellFormed := gives_anyReference.require

theorem gives_expressionList : Gives expressionList fun values =>
    values ≠ [] ∧ ∀ value ∈ values, value.WellFormed :=
  expression_wellFormed.gives.separated (gives_requireExpression _)

theorem gives_requireArguments : Gives requireArguments fun values =>
    ∀ value ∈ values, value.WellFormed := by
  intro inside c values after _ hm
  unfold requireArguments at hm
  split at hm
  · cases hm
    exact ⟨trivial, arguments_wellFormed expression_wellFormed ‹_›⟩
  · contradiction

/-! ## Simple statements -/

theorem gives_assignment : Gives assignment Statement.WellFormed := by
  have htarget (isWritten : Bool) :
      Gives (if isWritten then requireReference "variable" else anyReference)
        Reference.WellFormed := by
    split
    · exact gives_requireReference _
    · exact gives_anyReference
  refine Ensures.sentence (gives_any.andThen fun kind _ => ?_)
  refine (htarget _).andThen fun target htarget => ?_
  have hvalue : Gives (do
      let value ← requireExpression "expression"
      return fun span => Statement.assign (kind.getD .Unwritten) target value span)
      fun build => ∀ span, (build span).WellFormed := by
    refine (gives_requireExpression _).andThen fun value hvalue => ?_
    exact ensures_pure fun span => .assign htarget hvalue
  dsimp only
  split
  · exact gives_any.andThen fun _ _ => hvalue
  · exact gives_any.andThen fun _ _ => hvalue

theorem gives_localVariables : Gives localVariables Statement.WellFormed := by
  refine Ensures.sentence (gives_any.andThen fun kind _ => ?_)
  refine (gives_declaredVariables gives_declaredVariable.require).andThen fun declared h => ?_
  exact ensures_pure fun span => .localVariables h.1 h.2

theorem gives_redim : Gives redim Statement.WellFormed := by
  refine Ensures.sentence (gives_any.andThen fun _ _ => ?_)
  refine gives_any.andThen fun isPreserved _ => ?_
  refine (gives_requireReference _).andThen fun array harray => ?_
  refine gives_any.andThen fun _ _ => ?_
  refine gives_expressionList.require.andThen fun dimensions hdimensions => ?_
  refine gives_any.andThen fun _ _ => ?_
  exact ensures_pure fun span => .redim harray hdimensions.1 hdimensions.2

theorem gives_exit : Gives exit Statement.WellFormed := by
  refine Ensures.sentence (gives_any.andThen fun _ _ => ?_)
  refine gives_any.andThen fun kind _ => ?_
  exact ensures_pure fun span => .exit

theorem gives_jump : Gives jump Statement.WellFormed := by
  refine Ensures.sentence (gives_any.andThen fun kind _ => ?_)
  refine (gives_requireName _).andThen fun label hlabel => ?_
  exact ensures_pure fun span => .jump hlabel

theorem gives_errorTarget : Gives errorTarget ErrorResponse.WellFormed := by
  refine gives_any.andThen fun place _ => ?_
  refine gives_any.andThen fun number _ => ?_
  cases number with
  | none => exact (gives_requireName _).map fun _ h => h
  | some number =>
    dsimp only
    split
    · exact ensures_pure trivial
    · split
      · exact ensures_pure trivial
      · exact ensures_failAt

theorem gives_errorResponse : Gives errorResponse ErrorResponse.WellFormed := by
  apply ensures_firstOf
  intro p hp
  simp only [List.mem_cons, List.not_mem_nil, or_false] at hp
  rcases hp with rfl | rfl | rfl
  · exact gives_any.seqRight (ensures_pure trivial)
  · exact gives_any.seqRight gives_errorTarget
  · refine gives_any.seqRight (gives_oneOf fun entry hentry => ?_).require
    simp only [List.mem_cons, List.not_mem_nil, or_false] at hentry
    rcases hentry with rfl | rfl | rfl <;> trivial

theorem gives_onError : Gives onError Statement.WellFormed := by
  refine Ensures.sentence (gives_any.andThen fun _ _ => ?_)
  refine gives_any.andThen fun _ _ => ?_
  refine gives_errorResponse.require.andThen fun response hresponse => ?_
  exact ensures_pure fun span => .onError hresponse

theorem gives_resumePoint : Gives resumePoint ResumePoint.WellFormed := by
  refine gives_any.andThen fun place _ => ensures_firstOf fun p hp => ?_
  simp only [List.mem_cons, List.not_mem_nil, or_false] at hp
  rcases hp with rfl | rfl | rfl | rfl
  · exact gives_any.seqRight (ensures_pure trivial)
  · refine Ensures.andThen gives_any fun number _ => ?_
    split
    · exact ensures_pure trivial
    · exact ensures_failAt
  · exact gives_identifier.map fun _ h => h
  · exact ensures_pure trivial

theorem gives_resume : Gives resume Statement.WellFormed := by
  refine Ensures.sentence (gives_any.andThen fun _ _ => ?_)
  refine gives_resumePoint.andThen fun point hpoint => ?_
  exact ensures_pure fun span => .resume hpoint

theorem gives_label : Gives label Statement.WellFormed := by
  have hname : Gives (spanned do
      let name ← identifier
      adjacent ':'
      return Statement.label name) Statement.WellFormed := by
    refine Ensures.spanned (gives_identifier.andThen fun name hname => ?_)
    refine gives_any.andThen fun _ _ => ?_
    exact ensures_pure fun span => .label hname
  refine Ensures.within (hname.andThen fun found hfound => ?_)
  exact gives_any.andThen fun _ _ => ensures_pure hfound

/-! ## Calls -/

theorem memberNames_words (c : Cursor) : ∃ members : List String,
    (memberNames c).1 = String.join members ∧
      ∀ member ∈ members, ∃ word, member = "." ++ word ∧ IsWord word := by
  fun_induction memberNames c with
  | case1 => exact ⟨[], by simp, by simp⟩
  | case2 => exact ⟨[], by simp, by simp⟩
  | case3 c d _ _ name e he _ names f hf ih =>
    rw [hf] at ih
    obtain ⟨members, hnames, hmembers⟩ := ih
    have hnames : names = String.join members := hnames
    refine ⟨("." ++ name) :: members, by simp [hnames, String.append_assoc], ?_⟩
    intro member hmember
    rcases List.mem_cons.mp hmember with rfl | hmember
    · exact ⟨name, rfl, Cursor.isWord_of_word he⟩
    · exact hmembers member hmember
  | case4 c d _ _ name e he =>
    refine ⟨["." ++ name], by simp, ?_⟩
    intro member hmember
    rcases List.mem_singleton.mp hmember with rfl
    exact ⟨name, rfl, Cursor.isWord_of_word he⟩
  | case5 => exact ⟨[], by simp, by simp⟩

theorem procedureName_isProcedureName : Finds procedureName IsProcedureName := by
  intro c name after h
  simp only [procedureName, Option.bind_eq_bind, Option.bind_eq_some_iff] at h
  obtain ⟨⟨first, d⟩, hfirst, h⟩ := h
  cases h
  obtain ⟨members, hnames, hmembers⟩ := memberNames_words d
  refine ⟨_, first, members, by rw [hnames], ?_, Cursor.isIdentifier_of_identifier hfirst, hmembers⟩
  split
  · exact .inr rfl
  · exact .inl rfl

theorem gives_explicitCall : Gives explicitCall Statement.WellFormed := by
  refine Ensures.sentence (gives_any.andThen fun _ _ => ?_)
  refine gives_any.andThen fun _ _ => ?_
  refine procedureName_isProcedureName.gives.require.andThen fun name hname => ?_
  refine gives_any.andThen fun _ _ => ?_
  refine gives_requireArguments.andThen fun arguments harguments => ?_
  exact ensures_pure fun span => .call hname harguments

theorem gives_raiseEvent : Gives raiseEvent Statement.WellFormed := by
  refine Ensures.sentence (gives_any.andThen fun _ _ => ?_)
  refine (gives_requireName _).andThen fun event hevent => ?_
  refine gives_any.andThen fun _ _ => ?_
  refine gives_requireArguments.andThen fun arguments harguments => ?_
  exact ensures_pure fun span => .raiseEvent hevent harguments

theorem wholeArguments_wellFormed :
    Finds wholeArguments fun found => ∀ value ∈ found.1, value.WellFormed := by
  intro c found after h
  simp only [wholeArguments, Option.bind_eq_bind, Option.bind_eq_some_iff] at h
  obtain ⟨d, _, ⟨values, stop⟩, hvalues, e, _, h⟩ := h
  cases h
  exact arguments_wellFormed expression_wellFormed (eq_ok_of_toOption hvalues)

theorem gives_looseArguments :
    Gives looseArguments fun found => ∀ value ∈ found.1, value.WellFormed := by
  refine gives_expressionList.opt.andThen fun found hfound => ?_
  refine gives_any.andThen fun stop _ => ?_
  refine gives_any.andThen fun _ _ => ensures_pure ?_
  cases found with
  | none => simp
  | some values => exact (hfound values rfl).2

theorem gives_implicitCall : Gives implicitCall Statement.WellFormed := by
  refine Ensures.within (gives_any.andThen fun start _ => ?_)
  refine procedureName_isProcedureName.gives.andThen fun name hname => ?_
  refine (wholeArguments_wellFormed.gives.orElse gives_looseArguments).andThen
    fun found hfound => ?_
  exact ensures_pure (.call hname hfound)

/-! ## Compound statements -/

section Compound

variable {block : Parse (List Statement)}
  (hb : Gives block fun body => ∀ line ∈ body, line.WellFormed)

theorem gives_loopTest : Gives loopTest fun test => test.condition.WellFormed := by
  refine gives_any.andThen fun isWhile _ => ?_
  exact (gives_requireExpression _).andThen fun condition hcondition => ensures_pure hcondition

include hb

theorem gives_whileLoop : Gives (whileLoop block) Statement.WellFormed := by
  refine Ensures.sentence (gives_any.andThen fun _ _ => ?_)
  refine (gives_requireExpression _).andThen fun condition hcondition => ?_
  refine gives_any.andThen fun _ _ => ?_
  refine hb.andThen fun body hbody => ?_
  refine gives_any.andThen fun _ _ => ?_
  exact ensures_pure fun span => .whileLoop hcondition hbody

theorem gives_doLoop : Gives (doLoop block) Statement.WellFormed := by
  refine Ensures.sentence (gives_any.andThen fun _ _ => ?_)
  refine gives_loopTest.opt.andThen fun first hfirst => ?_
  refine gives_any.andThen fun _ _ => ?_
  refine hb.andThen fun body hbody => ?_
  refine gives_any.andThen fun _ _ => ?_
  refine gives_any.andThen fun place _ => ?_
  refine gives_loopTest.opt.andThen fun last hlast => ?_
  cases first with
  | none =>
    cases last with
    | none => exact ensures_pure fun span => .endlessLoop hbody
    | some last => exact ensures_pure fun span => .testLastLoop hbody (hlast last rfl)
  | some first =>
    cases last with
    | none => exact ensures_pure fun span => .testFirstLoop (hfirst first rfl) hbody
    | some last => exact Ensures.advise ensures_failAt

theorem gives_forEachLoop : Gives (forEachLoop block) fun build =>
    ∀ span, (build span).WellFormed := by
  refine gives_any.andThen fun _ _ => ?_
  refine (gives_requireReference _).andThen fun element helement => ?_
  refine gives_any.andThen fun _ _ => ?_
  refine (gives_requireExpression _).andThen fun collection hcollection => ?_
  refine gives_any.andThen fun _ _ => ?_
  refine hb.andThen fun body hbody => ?_
  refine gives_any.andThen fun _ _ => ?_
  exact ensures_pure fun span => .forEach helement hcollection hbody

theorem gives_countingLoop : Gives (countingLoop block) fun build =>
    ∀ span, (build span).WellFormed := by
  refine (gives_requireReference _).andThen fun counter hcounter => ?_
  refine gives_any.andThen fun _ _ => ?_
  refine (gives_requireExpression _).andThen fun first hfirst => ?_
  refine gives_any.andThen fun _ _ => ?_
  refine (gives_requireExpression _).andThen fun last hlast => ?_
  refine (gives_requireExpression _).after.andThen fun step hstep => ?_
  refine gives_any.andThen fun _ _ => ?_
  refine hb.andThen fun body hbody => ?_
  refine gives_any.andThen fun _ _ => ?_
  exact ensures_pure fun span => .forLoop hcounter hfirst hlast hstep hbody

theorem gives_forLoop : Gives (forLoop block) Statement.WellFormed := by
  refine Ensures.sentence (gives_any.andThen fun _ _ => ?_)
  exact (gives_forEachLoop hb).orElse (gives_countingLoop hb)

theorem gives_branch (k : Keyword) : Gives (branch block k) Branch.WellFormed := by
  refine Ensures.spanned (gives_any.andThen fun _ _ => ?_)
  refine (gives_requireExpression _).andThen fun condition hcondition => ?_
  refine gives_any.andThen fun _ _ => ?_
  refine gives_any.andThen fun _ _ => ?_
  refine hb.andThen fun body hbody => ?_
  exact ensures_pure fun span => ⟨hcondition, hbody⟩

theorem gives_conditional : Gives (conditional block) Statement.WellFormed := by
  refine Ensures.sentence ((gives_branch hb _).andThen fun first hfirst => ?_)
  refine (gives_branch hb _).many.andThen fun others hothers => ?_
  refine gives_any.andThen fun _ _ => ?_
  have hotherwise : Gives (requireTerminator *> block) fun body => ∀ line ∈ body, line.WellFormed :=
    gives_any.seqRight hb
  refine hotherwise.after.andThen fun otherwise hotherwise => ?_
  refine gives_any.andThen fun _ _ => ?_
  exact ensures_pure fun span => .conditional hfirst hothers hotherwise

theorem gives_withBlock : Gives (withBlock block) Statement.WellFormed := by
  refine Ensures.sentence (gives_any.andThen fun _ _ => ?_)
  refine (gives_requireReference _).andThen fun target htarget => ?_
  refine gives_any.andThen fun _ _ => ?_
  refine hb.andThen fun body hbody => ?_
  refine gives_any.andThen fun _ _ => ?_
  exact ensures_pure fun span => .withBlock htarget hbody

omit hb in
theorem gives_caseClause : Gives caseClause CaseClause.WellFormed := by
  apply Ensures.orElse
  · refine gives_any.andThen fun _ _ => ?_
    refine gives_any.andThen fun relation _ => ?_
    exact (gives_requireExpression _).andThen fun bound hbound => ensures_pure hbound
  · refine (gives_requireExpression _).andThen fun first hfirst => ?_
    refine (gives_requireExpression _).after.andThen fun last hlast => ensures_pure ?_
    cases last with
    | none => exact hfirst
    | some last => exact ⟨hfirst, hlast last rfl⟩

theorem gives_caseBlock : Gives (caseBlock block) CaseBlock.WellFormed := by
  refine Ensures.spanned (gives_any.andThen fun _ _ => ?_)
  refine gives_any.andThen fun _ _ => ?_
  refine (gives_caseClause.separated gives_caseClause).andThen fun clauses hclauses => ?_
  refine gives_any.andThen fun _ _ => ?_
  refine hb.andThen fun body hbody => ?_
  exact ensures_pure fun span => ⟨hclauses.1, hclauses.2, hbody⟩

theorem gives_elseBlock : Gives (elseBlock block) fun body => ∀ line ∈ body, line.WellFormed := by
  refine gives_any.andThen fun _ _ => ?_
  refine gives_any.andThen fun _ _ => ?_
  exact gives_any.andThen fun _ _ => hb

theorem gives_select : Gives (select block) Statement.WellFormed := by
  refine Ensures.sentence (gives_any.andThen fun _ _ => ?_)
  refine gives_any.andThen fun _ _ => ?_
  refine (gives_requireExpression _).andThen fun subject hsubject => ?_
  refine gives_any.andThen fun _ _ => ?_
  refine gives_any.andThen fun _ _ => ?_
  refine (gives_caseBlock hb).many.andThen fun cases hcases => ?_
  refine gives_any.andThen fun _ _ => ?_
  refine (gives_elseBlock hb).opt.andThen fun otherwise hotherwise => ?_
  refine gives_any.andThen fun _ _ => ?_
  exact ensures_pure fun span => .select hsubject hcases hotherwise

theorem gives_codeStatement (word : Option Keyword) :
    Gives (codeStatement block word) Statement.WellFormed := by
  have hplain : Gives (firstOf [assignment, label, implicitCall]) Statement.WellFormed := by
    apply ensures_firstOf
    intro p hp
    simp only [List.mem_cons, List.not_mem_nil, or_false] at hp
    rcases hp with rfl | rfl | rfl
    · exact gives_assignment
    · exact gives_label
    · exact gives_implicitCall
  unfold codeStatement
  split
  · exact gives_assignment
  · exact gives_assignment
  · exact gives_localVariables
  · exact gives_localVariables
  · exact gives_redim
  · exact gives_exit
  · exact gives_jump
  · exact gives_jump
  · exact gives_onError
  · exact gives_resume
  · exact gives_explicitCall
  · exact gives_raiseEvent
  · exact gives_whileLoop hb
  · exact gives_doLoop hb
  · exact gives_forLoop hb
  · exact gives_conditional hb
  · exact gives_withBlock hb
  · exact gives_select hb
  · exact hplain

end Compound

theorem gives_statement : Gives statement Statement.WellFormed := by
  refine Ensures.fix fun inner _ hinner => ?_
  have hcode : Gives (fun inside c => codeStatement (many inner) c.peekKeyword inside c)
      Statement.WellFormed := fun inside c =>
    gives_codeStatement hinner.many c.peekKeyword inside c
  apply Ensures.orElse
  · exact gives_comment.map fun note hnote => .comment hnote
  · apply Ensures.orElse
    · exact gives_any.map fun line _ => .emptyLine
    · exact hcode.orElse ensures_unmatched

theorem gives_block : Gives block fun body => ∀ line ∈ body, line.WellFormed := gives_statement.many

end Grammar

end VisualBasic
