import VisualBasic.Proofs.Routine.Declaration

/-!
# Statements under a guide

The routines of statements are followed by their parsers. Branches and cases are taken turn by turn,
from the next token on; turn by turn the parsers unroll to the same.
-/

set_option autoImplicit false

namespace VisualBasic

namespace Grammar

open Parse

/-! ## Branches and cases, turn by turn -/

/-- The place of the next token is the same from there. -/
theorem mark_mark {α : Type} (f : Cursor → Cursor → Parse α) :
    (mark >>= fun start => mark >>= fun other => f start other) =
      mark >>= fun start => f start start := by
  funext inside c
  simp only [bind_apply, mark, Cursor.skipBlanks_skipBlanks]

/-- After a token that is there, a parser ends with less text left. -/
theorem length_lt_of_flag {inside : List Construct} {c d : Cursor} {k : Keyword}
    (h : flag (keyword k) inside c.skipBlanks = .matched true d) :
    d.rest.length < c.rest.length := by
  rw [keyword, flag_pass_apply] at h
  cases hk : c.skipBlanks.keyword k with
  | none => simp [hk] at h
  | some e =>
    simp only [hk, Option.isSome_some, Option.getD_some, Outcome.matched.injEq, true_and] at h
    rw [← h]
    exact Nat.lt_of_lt_of_le (Cursor.token_of_keyword hk).length_lt
      (Cursor.reaches_skipBlanks c).length_le

/-- What comes after the next token, if that is a keyword. -/
theorem opt_keyword_bind {α β : Type} {k : Keyword} {p : Cursor → Parse α} {f : Option α → Parse β}
    (hp : ∀ start, Resolves (p start)) :
    (opt (mark >>= fun start => keyword k >>= fun _ => p start) >>= fun found =>
        found.elim (mark >>= fun _ => f none) fun value => f (some value)) =
      mark >>= fun start => flag (keyword k) >>= fun isMet =>
        if isMet then p start >>= fun value => f (some value) else f none := by
  funext inside c
  rw [bind_apply, opt_apply, bind_apply, bind_apply]
  dsimp only [mark]
  rw [bind_apply, bind_apply, keyword, flag_pass_apply, Parse.pass]
  cases c.skipBlanks.keyword k with
  | none => rfl
  | some d =>
    dsimp only [Option.isSome_some, Option.getD_some]
    rw [if_pos rfl, bind_apply]
    cases hm : p c.skipBlanks inside d with
    | matched value e => rfl
    | unmatched => exact absurd hm (hp _ inside d)
    | failed failure => rfl

section Compound

variable (block : Parse (List Statement))

/-- The condition and the block of a branch that starts at a place. -/
def branchFrom (start : Cursor) : Parse Branch := do
  let condition ← requireExpression "condition"
  requireKeyword .Then
  advise (fun failure => { failure with help := some .singleLineIf }) requireTerminator
  let body ← block
  let stop ← here
  return ⟨condition, body, start.spanTo stop⟩

theorem branch_eq (k : Keyword) : branch block k =
    mark >>= fun start => keyword k >>= fun _ => branchFrom block start := by
  simp only [branch, branchFrom, spanned, bind_assoc, pure_bind]

/-- One more branch, after those before it. -/
def branchTurn (before : List Branch) : Parse (ForInStep (List Branch)) := do
  let start ← mark
  if ← flag (keyword .ElseIf) then
    let value ← branchFrom block start
    return .yield (before ++ [value])
  else return .done before

/-- The branches after those before them, up to the next token. -/
def moreBranches (before : List Branch) : Parse (List Branch) := do
  let branches ← many (branch block .ElseIf)
  let _ ← mark
  return before ++ branches

/-- The clauses and the block of a case that starts at a place. -/
def caseFrom (start : Cursor) : Parse CaseBlock := do
  let clauses ← separated caseClause caseClause
  requireTerminator
  let body ← block
  let stop ← here
  return ⟨clauses, body, start.spanTo stop⟩

theorem caseBlock_eq : caseBlock block =
    mark >>= fun start => keyword .Case >>= fun _ => unlessKeyword .Else >>= fun _ =>
      caseFrom block start := by
  simp only [caseBlock, caseFrom, spanned, bind_assoc, pure_bind]

/-- One more case, after those before it; `Case Else` is the last. -/
def caseTurn (before : List CaseBlock × Option (List Statement)) :
    Parse (ForInStep (List CaseBlock × Option (List Statement))) := do
  let start ← mark
  if ← flag (keyword .Case) then
    if ← flag (keyword .Else) then
      requireTerminator
      let body ← block
      return .done (before.1, some body)
    else
      let value ← caseFrom block start
      return .yield (before.1 ++ [value], before.2)
  else return .done before

/-- The cases after those before them, and `Case Else` if it is there. -/
def moreCases (before : List CaseBlock × Option (List Statement)) :
    Parse (List CaseBlock × Option (List Statement)) := do
  let cases ← many (caseBlock block)
  let _ ← mark
  let otherwise ← opt (elseBlock block)
  return (before.1 ++ cases, otherwise.or before.2)

variable {block} (hb : Yields block Cursor.Reaches blockRegions)
include hb

theorem advances_branchFrom (start : Cursor) : Advances (branchFrom block start) := by
  refine advances_bind (yields_requireExpression _).advances fun _ => ?_
  refine advances_bind (moves_requireKeyword _).advances fun _ => ?_
  refine advances_bind moves_requireTerminator.advise.advances fun _ => ?_
  refine advances_bind hb.advances fun _ => ?_
  exact advances_bind commits_here.advances fun _ => advances_pure _

theorem advances_caseFrom (start : Cursor) : Advances (caseFrom block start) := by
  refine advances_bind (yields_caseClause.separated yields_caseClause).advances fun _ => ?_
  refine advances_bind moves_requireTerminator.advances fun _ => ?_
  refine advances_bind hb.advances fun _ => ?_
  exact advances_bind commits_here.advances fun _ => advances_pure _

theorem turnsAhead_branchTurn : TurnsAhead (branchTurn block) := by
  intro before inside c next e h
  obtain ⟨start, d, hd, h⟩ := matched_bind (show (mark >>= _) inside c = _ from h)
  obtain ⟨isMet, f, hf, h⟩ := matched_bind h
  cases hd
  cases isMet with
  | false => cases h
  | true =>
    obtain ⟨value, g, hg, h⟩ := matched_bind h
    cases h
    exact Nat.lt_of_le_of_lt (advances_branchFrom hb _ inside f value e hg).length_le
      (length_lt_of_flag hf)

theorem turnsAhead_caseTurn : TurnsAhead (caseTurn block) := by
  intro before inside c next e h
  obtain ⟨start, d, hd, h⟩ := matched_bind (show (mark >>= _) inside c = _ from h)
  obtain ⟨isCase, f, hf, h⟩ := matched_bind h
  cases hd
  cases isCase with
  | false => cases h
  | true =>
    obtain ⟨isElse, g, hg, h⟩ := matched_bind h
    cases isElse with
    | true =>
      obtain ⟨_, i, _, h⟩ := matched_bind h
      obtain ⟨body, j, _, h⟩ := matched_bind h
      cases h
    | false =>
      obtain ⟨value, i, hi, h⟩ := matched_bind h
      cases h
      have hword := ((moves_keyword .Else).flag inside f false g hg).reaches.length_le
      have hend := (advances_caseFrom hb _ inside g value e hi).length_le
      have hstart := length_lt_of_flag hf
      omega

variable (hr : Resolves block)
include hr

omit hb in
theorem resolves_branchFrom (start : Cursor) : Resolves (branchFrom block start) :=
  (resolves_require _ _).andThen fun _ => (resolves_requireKeyword _).andThen fun _ =>
    (resolves_requireTerminator.advise _).andThen fun _ => hr.andThen fun _ =>
      resolves_here.andThen fun _ => resolves_pure _

theorem moreBranches_eq (before : List Branch) :
    moreBranches block before = branchTurn block before >>= afterTurn (moreBranches block) := by
  have hahead : Moves (branch block .ElseIf) Cursor.Ahead :=
    (yields_branch hb .ElseIf).moves.weaken Cursor.Opened.ahead
  let rest (found : Option Branch) : Parse (List Branch) :=
    found.elim (pure before) fun value => moreBranches block (before ++ [value])
  calc moreBranches block before
    _ = opt (branch block .ElseIf) >>= fun found =>
        found.elim (mark >>= fun _ => rest none) fun value => rest (some value) := by
      rw [moreBranches, many_bind hahead]
      refine bind_congr fun found => ?_
      cases found <;> simp [rest, moreBranches]
    _ = mark >>= fun start => flag (keyword .ElseIf) >>= fun isMet =>
        if isMet then branchFrom block start >>= fun value => rest (some value) else rest none := by
      rw [branch_eq, opt_keyword_bind (resolves_branchFrom hr)]
    _ = branchTurn block before >>= afterTurn (moreBranches block) := by
      rw [branchTurn, bind_assoc]
      refine bind_congr fun start => ?_
      rw [bind_assoc]
      refine bind_congr fun isMet => ?_
      cases isMet <;> simp [rest, afterTurn]

theorem loop_branchTurn (before : List Branch) :
    loop (branchTurn block) before = moreBranches block before :=
  loop_eq (turnsAhead_branchTurn hb) (moreBranches_eq hb hr) before

omit hb in
theorem resolves_caseFrom (start : Cursor) : Resolves (caseFrom block start) := by
  have hclause : Resolves caseClause :=
    ((resolves_require _ _).andThen fun _ => (resolves_after _ _).andThen fun _ =>
      resolves_pure _ : Resolves valueClause).second _
  exact (hclause.separated _).andThen fun _ => resolves_requireTerminator.andThen fun _ =>
    hr.andThen fun _ => resolves_here.andThen fun _ => resolves_pure _

omit hb in
/-- What comes after the next token, if that is `Case`, or `Case Else`. -/
theorem opt_caseBlock_bind {β : Type} (f : CaseBlock → Parse β)
    (g : Option (List Statement) → Parse β) :
    (opt (caseBlock block) >>= fun found =>
        found.elim (mark >>= fun _ => opt (elseBlock block) >>= g) f) =
      mark >>= fun start => flag (keyword .Case) >>= fun isCase =>
        if isCase then flag (keyword .Else) >>= fun isElse =>
          if isElse then requireTerminator >>= fun _ => block >>= fun body => g (some body)
          else caseFrom block start >>= f
        else g none := by
  have hlast : Resolves (requireTerminator >>= fun _ => block) :=
    resolves_requireTerminator.andThen fun _ => hr
  funext inside c
  have hblock := congrFun (congrFun (caseBlock_eq block) inside) c
  simp only [bind_apply, mark, keyword, Parse.pass, unlessKeyword] at hblock
  rw [bind_apply, opt_apply, bind_apply]
  dsimp only [mark]
  rw [bind_apply, keyword, flag_pass_apply]
  cases hcase : c.skipBlanks.keyword .Case with
  | none =>
    have helse : elseBlock block inside c.skipBlanks = .unmatched := by
      rw [elseBlock, bind_apply, keyword, pass_of_none hcase]
    rw [hcase] at hblock
    rw [hblock]
    simp [bind_apply, mark, opt_apply, helse]
  | some d =>
    rw [hcase] at hblock
    dsimp only [Option.isSome_some, Option.getD_some] at hblock ⊢
    rw [if_pos rfl, bind_apply, keyword, flag_pass_apply]
    cases hword : d.keyword .Else with
    | none =>
      rw [hword, if_neg (by simp)] at hblock
      dsimp only [Option.isSome_none, Option.getD_none] at hblock ⊢
      rw [hblock, if_neg Bool.false_ne_true, bind_apply]
      cases hm : caseFrom block c.skipBlanks inside d with
      | matched value e => rfl
      | unmatched => exact absurd hm (resolves_caseFrom hr _ inside d)
      | failed failure => rfl
    | some e =>
      have helse : elseBlock block inside c.skipBlanks =
          (requireTerminator >>= fun _ => block) inside e := by
        rw [elseBlock, bind_apply, keyword, pass_of_some hcase]
        dsimp only
        rw [bind_apply, keyword, pass_of_some hword]
      rw [hword, if_pos Option.isSome_some] at hblock
      dsimp only [Option.isSome_some, Option.getD_some] at hblock ⊢
      rw [hblock, if_pos rfl]
      dsimp only [Option.elim_none]
      rw [bind_apply, mark]
      dsimp only
      rw [bind_apply, opt_apply, helse, ← bind_assoc]
      generalize (requireTerminator >>= fun _ => block) = lines at hlast ⊢
      rw [bind_apply]
      cases hm : lines inside e with
      | matched value f => rfl
      | unmatched => exact absurd hm (hlast inside e)
      | failed failure => rfl

theorem moreCases_eq (before : List CaseBlock × Option (List Statement)) :
    moreCases block before = caseTurn block before >>= afterTurn (moreCases block) := by
  have hahead : Moves (caseBlock block) Cursor.Ahead :=
    (yields_caseBlock hb).moves.weaken Cursor.Opened.ahead
  calc moreCases block before
    _ = opt (caseBlock block) >>= fun found =>
        found.elim (mark >>= fun _ => opt (elseBlock block) >>= fun otherwise =>
          pure (before.1, otherwise.or before.2)) fun value =>
            moreCases block (before.1 ++ [value], before.2) := by
      rw [moreCases, many_bind hahead]
      refine bind_congr fun found => ?_
      cases found <;> simp [moreCases]
    _ = caseTurn block before >>= afterTurn (moreCases block) := by
      rw [opt_caseBlock_bind hr, caseTurn, bind_assoc]
      refine bind_congr fun start => ?_
      rw [bind_assoc]
      refine bind_congr fun isCase => ?_
      cases isCase with
      | false => simp [afterTurn]
      | true =>
        rw [if_pos rfl, if_pos rfl, bind_assoc]
        refine bind_congr fun isElse => ?_
        cases isElse <;> simp [afterTurn]

theorem loop_caseTurn (before : List CaseBlock × Option (List Statement)) :
    loop (caseTurn block) before = moreCases block before :=
  loop_eq (turnsAhead_caseTurn hb) (moreCases_eq hb hr) before

end Compound

end Grammar

namespace Guide

open Parse (here mark require)

variable {G : Guide} {α γ : Type}

/-! ## Simple statements -/

theorem tracks_assignment :
    G.Tracks .kept Routine.assignment Grammar.assignment (G.On Statement.relabel) := by
  apply Tracks.sentence
  apply (tracks_optOneOf _).next
  intro kind
  have htarget : G.Tracks .kept
      (if kind.isSome then Routine.expectReference "variable" else Routine.anyReference)
      (if kind.isSome then Grammar.requireReference "variable" else Grammar.anyReference)
      (G.On Reference.relabel) := by
    split
    · exact (tracks_expectReference _).anyhow _
    · exact tracks_anyReference
  have hvalue {target target' : Reference} (h : G.On Reference.relabel target target') :
      G.Tracks .never (do
        let value ← Routine.expectExpression "expression"
        return fun span => Statement.assign (kind.getD .Unwritten) target value span) (do
        let value ← Grammar.requireExpression "expression"
        return fun span => Statement.assign (kind.getD .Unwritten) target' value span)
        (G.Spanwise Statement.relabel) := by
    apply (tracks_expectExpression _).thenNever
    intro value value' hvalue
    refine tracks_pure fun span place hspan => ?_
    simp_all only [On, Statement.relabel]
  apply htarget.andThen
  intro target target' htarget
  dsimp only
  split
  · exact (tracks_expectSymbol (by decide)).next fun _ => hvalue htarget
  · exact (passes_symbol (by decide)).met.next fun _ => hvalue htarget

theorem tracks_localVariables :
    G.Tracks .kept Routine.localVariables Grammar.localVariables (G.On Statement.relabel) := by
  apply Tracks.sentence
  apply (tracks_oneOf _).next
  intro kind
  apply (tracks_declaredVariables (tracks_declaredVariable.require _)).andThen
  intro declared declared' h
  refine tracks_pure fun span place hspan => ?_
  simp_all only [On, Statement.relabel]

theorem tracks_redim : G.Tracks .kept Routine.redim Grammar.redim (G.On Statement.relabel) := by
  apply Tracks.sentence
  apply (passes_keyword .ReDim).met.next
  intro _
  apply (passes_keyword .Preserve).flag.next
  intro isPreserved
  apply (tracks_expectReference _).andThen
  intro array array' harray
  apply (tracks_expectSymbol (by decide)).next
  intro _
  apply (tracks_expressionList.require _).andThen
  intro dimensions dimensions' hdimensions
  apply (tracks_expectSymbol (by decide)).next
  intro _
  refine tracks_pure fun span place hspan => ?_
  simp_all only [On, Statement.relabel]

theorem tracks_exit : G.Tracks .kept Routine.exit Grammar.exit (G.On Statement.relabel) := by
  apply Tracks.sentence
  apply (passes_keyword .Exit).met.next
  intro _
  apply ((tracks_oneOf _).require _).next
  intro kind
  refine tracks_pure fun span place hspan => ?_
  simp_all only [On, Statement.relabel]

theorem tracks_jump : G.Tracks .kept Routine.jump Grammar.jump (G.On Statement.relabel) := by
  apply Tracks.sentence
  apply (tracks_oneOf _).next
  intro kind
  apply (tracks_expectName _).next
  intro label
  refine tracks_pure fun span place hspan => ?_
  simp_all only [On, Statement.relabel]

theorem tracks_errorTarget : G.Tracks .never Routine.errorTarget Grammar.errorTarget Eq := by
  apply tracks_nextToken.thenNever
  intro token token' htoken
  apply takes_number.opt.nextNever
  intro number
  cases number with
  | none => exact (tracks_expectName _).map fun _ _ h => congrArg ErrorResponse.goToLabel h
  | some number =>
    dsimp only
    split
    · exact tracks_pure rfl
    · split
      · exact tracks_pure rfl
      · exact tracks_failAt _ _ htoken

theorem tracks_errorResponse : G.Tracks .kept Routine.errorResponse Grammar.errorResponse Eq := by
  simp only [Grammar.errorResponse, seqRight_eq_bind, bind_assoc]
  refine Tracks.orElse ((passes_keyword .Resume).met.nextNever fun _ =>
    (tracks_expectKeyword .Next).nextNever fun _ => tracks_pure rfl) ?_
  refine Tracks.orElse ((passes_keyword .GoTo).met.nextNever fun _ => tracks_errorTarget) ?_
  refine Tracks.orElse ((passes_keyword .Exit).met.nextNever fun _ => (tracks_oneOf _).require _) ?_
  exact tracks_unmatched

theorem tracks_onError :
    G.Tracks .kept Routine.onError Grammar.onError (G.On Statement.relabel) := by
  apply Tracks.sentence
  apply (passes_keyword .On).met.next
  intro _
  apply (tracks_expectKeyword _).next
  intro _
  apply (tracks_errorResponse.require _).next
  intro response
  refine tracks_pure fun span place hspan => ?_
  simp_all only [On, Statement.relabel]

theorem tracks_resumePoint : G.Tracks .never Routine.resumePoint Grammar.resumePoint Eq := by
  apply tracks_nextToken.thenNever
  intro token token' htoken
  refine Tracks.orElse ((passes_keyword .Next).met.seqRight (tracks_pure rfl)) ?_
  refine Tracks.orElse (takes_number.found.nextNever fun number => ?_) ?_
  · cases Grammar.lineNumber? number with
    | some line => exact tracks_pure rfl
    | none => exact tracks_failAt _ _ htoken
  refine Tracks.orElse (takes_identifier.found.map fun _ _ h => congrArg ResumePoint.label h) ?_
  exact (tracks_pure rfl).orElseNever _ _

theorem tracks_resume : G.Tracks .kept Routine.resume Grammar.resume (G.On Statement.relabel) := by
  apply Tracks.sentence
  apply (passes_keyword .Resume).met.next
  intro _
  apply tracks_resumePoint.next
  intro point
  refine tracks_pure fun span place hspan => ?_
  simp_all only [On, Statement.relabel]

theorem opt_pass_bind {token : Cursor → Option Cursor} (q : Parse α) :
    (Parse.opt (Parse.pass token) >>= fun _ => q) =
      Parse.flag (Parse.pass token) >>= fun _ => q := by
  funext inside c
  rw [Parse.bind_apply, Parse.opt_apply, Parse.bind_apply, Parse.flag_pass_apply, Parse.pass]
  cases token c <;> rfl

theorem tracks_label : G.Tracks .kept Routine.label Grammar.label (G.On Statement.relabel) := by
  refine Tracks.rule ?_ _
  simp only [Parse.spanned, bind_assoc, pure_bind]
  apply tracks_mark.andThen
  intro start start' hstart
  apply takes_identifier.found.next
  intro name
  apply (passes_adjacent (by decide)).met.next
  intro _
  apply Tracks.spanFrom hstart.1 fun span =>
    Parse.opt (Parse.pass Cursor.lineEnd) >>= fun _ => pure (Statement.label name span)
  intro span place hspan
  rw [opt_pass_bind]
  apply passes_lineEnd.flag.next
  intro _
  apply tracks_pure
  simp only [On, Statement.relabel, hspan]

/-! ## Calls -/

theorem tracks_arguments : G.Tracks .loose (Routine.arguments Routine.expression)
    (Parse.read fun c => (Grammar.arguments Grammar.expression c).toOption)
    (G.On fun r => List.map (Expression.relabel r)) := by
  intro s inside d hin hcd
  have hlist := Grammar.arguments_listed Grammar.expression_lays Grammar.expression_lays
    Grammar.expression_agrees (clear hcd)
  rw [Routine.run_arguments Routine.reads_expression Grammar.expression_lays.length_le]
  unfold Parse.read
  dsimp only
  generalize Grammar.arguments Grammar.expression s.cursor = x at hlist ⊢
  generalize Grammar.arguments Grammar.expression d = y at hlist ⊢
  cases hlist with
  | @ok values others c e value alive =>
    change G.Follows _ _ s ⟨.matched values, { s with cursor := c }, []⟩ (.matched others e)
    exact .matched value alive.1
  | @error c e alive =>
    change G.Follows _ _ s ⟨.unmatched, { s with cursor := c }, []⟩ .unmatched
    exact .unmatched trivial

/-- Where the arguments are not well formed, the failure is where that is found. -/
theorem tracks_expectArguments :
    G.Tracks .never Routine.expectArguments Grammar.requireArguments
      (G.On fun r => List.map (Expression.relabel r)) := by
  intro s inside d hin hcd
  have hlist := Grammar.arguments_listed Grammar.expression_lays Grammar.expression_lays
    Grammar.expression_agrees (clear hcd)
  simp only [Routine.expectArguments, Routine.require, Routine.orElse, Routine.run_bind,
    Routine.attempt, Routine.run_arguments Routine.reads_expression
      Grammar.expression_lays.length_le]
  unfold Grammar.requireArguments
  generalize Grammar.arguments Grammar.expression s.cursor = x at hlist ⊢
  generalize Grammar.arguments Grammar.expression d = y at hlist ⊢
  cases hlist with
  | @ok values others c e value alive =>
    change G.Follows _ _ s ⟨.matched values, { s with cursor := c }, []⟩ (.matched others e)
    exact .matched value alive.1
  | @error c e alive =>
    exact (tracks_fail .never _ { s with cursor := c } inside e hin alive.1).back fun _ h => h.elim

theorem procedureName_reads {c d : Cursor} (hcd : G.meets c d) :
    Option.Rel (fun found other => G.On Relabel.text found.1 other.1 ∧ G.meets found.2 other.2)
      (Grammar.procedureName c) (Grammar.procedureName d) :=
  Pairing.rel_mono (fun _ _ hfound => ⟨hfound.1, hfound.2.1⟩)
    (Grammar.procedureName_agrees c d (clear hcd))

theorem tracks_procedureName : G.Tracks .loose (Routine.found Scanner.procedureName)
    (Parse.read Grammar.procedureName) (G.On Relabel.text) := by
  intro s inside d hin hcd
  have hname := procedureName_reads hcd
  simp only [Routine.found, Routine.run_bind, Routine.run_scan, Scanner.run_procedureName,
    Scanned.taken, Parsed.matched_andThen, Parsed.after_nil]
  unfold Parse.read
  generalize Grammar.procedureName s.cursor = x at hname ⊢
  generalize Grammar.procedureName d = y at hname ⊢
  cases hname with
  | none => exact .unmatched trivial
  | some hfound => exact .matched hfound.1 hfound.2

/-- Where a name is looked for, the next token is reached, found or not. -/
theorem tracks_requireProcedureName (expected : Expected) : G.Tracks .never
    (Routine.require expected (Routine.found Scanner.procedureName))
    (mark >>= fun _ => require expected (Parse.read Grammar.procedureName))
      (G.On Relabel.text) := by
  intro s inside d hin hcd
  have hname := procedureName_reads hcd
  have hskip : Grammar.procedureName d.skipBlanks = Grammar.procedureName d := by
    simp only [Grammar.procedureName, Cursor.skipBlanks_skipBlanks]
  simp only [Routine.require, Routine.orElse, Routine.run_bind, Routine.attempt, Routine.found,
    Routine.run_scan, Scanner.run_procedureName, Scanned.taken, Parsed.matched_andThen,
    Parsed.after_nil, Parse.bind_apply, mark, require, Parse.orElse, Parse.read, hskip]
  generalize Grammar.procedureName s.cursor = x at hname ⊢
  generalize Grammar.procedureName d = y at hname ⊢
  cases hname with
  | some hfound => exact .matched hfound.1 hfound.2
  | none =>
    exact (tracks_fail .never expected { s with cursor := s.cursor.skipBlanks } inside
      d.skipBlanks hin
      (G.skipBlanks hcd)).back fun _ h => h.elim

theorem tracks_explicitCall :
    G.Tracks .kept Routine.explicitCall Grammar.explicitCall (G.On Statement.relabel) := by
  have hbody : (do
      Parse.keyword .Call
      let _ ← mark
      let name ← require (.part "procedure name") (Parse.read Grammar.procedureName)
      Parse.requireSymbol '('
      let arguments ← Grammar.requireArguments
      return fun span => Statement.call name arguments true span) = (do
      Parse.keyword .Call
      let name ← (mark >>=
        fun _ => require (.part "procedure name") (Parse.read Grammar.procedureName))
      Parse.requireSymbol '('
      let arguments ← Grammar.requireArguments
      return fun span => Statement.call name arguments true span) := by
    simp only [bind_assoc]
  apply Tracks.sentence
  rw [hbody]
  apply (passes_keyword .Call).met.next
  intro _
  apply (tracks_requireProcedureName _).andThen
  intro name name' hname
  apply (tracks_expectSymbol (by decide)).next
  intro _
  apply tracks_expectArguments.andThen
  intro arguments arguments' harguments
  refine tracks_pure fun span place hspan => ?_
  simp_all only [On, Statement.relabel]

theorem tracks_raiseEvent :
    G.Tracks .kept Routine.raiseEvent Grammar.raiseEvent (G.On Statement.relabel) := by
  apply Tracks.sentence
  apply (passes_keyword .RaiseEvent).met.next
  intro _
  apply (tracks_expectName _).next
  intro event
  apply (tracks_expectSymbol (by decide)).next
  intro _
  apply tracks_expectArguments.andThen
  intro arguments arguments' harguments
  refine tracks_pure fun span place hspan => ?_
  simp_all only [On, Statement.relabel]

/-- The arguments of a call in parentheses, part by part. -/
theorem read_wholeArguments : Parse.read Grammar.wholeArguments = (do
    Parse.symbol '('
    let found ← Parse.read fun c => (Grammar.arguments Grammar.expression c).toOption
    let stop ← here
    Parse.pass Cursor.terminator
    return (found, stop)) := by
  funext inside c
  simp only [Parse.bind_apply, Parse.symbol, Parse.pass, Parse.read, here, Grammar.wholeArguments]
  cases c.symbol '(' with
  | none => rfl
  | some d =>
    dsimp only [Option.bind_eq_bind, Option.bind_some]
    cases (Grammar.arguments Grammar.expression d).toOption with
    | none => rfl
    | some found =>
      obtain ⟨values, stop⟩ := found
      dsimp only [Option.bind_some]
      cases stop.terminator <;> rfl

theorem map_orElse {β : Type} (f : α → β) (p q : Parse α) :
    f <$> p.orElse q = (f <$> p).orElse (f <$> q) := by
  funext inside c
  simp only [← bind_pure_comp, Parse.bind_apply, Parse.orElse]
  cases p inside c <;> rfl

theorem tracks_closedCall {start start' : Cursor} (hstart : G.meets start start')
    {name name' : String}
    (hname : G.On Relabel.text name name') :
    G.Tracks .loose (Routine.closedCall start name)
      ((fun found => Statement.call name' found.1 false (start'.spanTo found.2)) <$>
        Parse.read Grammar.wholeArguments) (G.On Statement.relabel) := by
  simp only [read_wholeArguments, map_bind, map_pure]
  apply (passes_symbol (by decide)).met.next
  intro _
  apply tracks_arguments.andThen
  intro values values' hvalues
  apply Tracks.spanFrom hstart fun span =>
    Parse.pass Cursor.terminator >>= fun _ => pure (Statement.call name' values' false span)
  intro span place hspan
  apply passes_terminator.met.next
  intro _
  apply tracks_pure
  simp_all only [On, Statement.relabel]

theorem tracks_looseCall {start start' : Cursor} (hstart : G.meets start start')
    {name name' : String}
    (hname : G.On Relabel.text name name') :
    G.Tracks .never (Routine.looseCall start name)
      ((fun found => Statement.call name' found.1 false (start'.spanTo found.2)) <$>
        Grammar.looseArguments) (G.On Statement.relabel) := by
  simp only [Grammar.looseArguments, map_bind, map_pure]
  apply tracks_expressionList.attempt.thenNever
  intro values values' hvalues
  apply Tracks.spanFrom hstart fun span =>
    Parse.requireTerminator >>= fun _ => pure (Statement.call name' (values'.getD []) false span)
  intro span place hspan
  apply tracks_expectTerminator.nextNever
  intro _
  apply tracks_pure
  have hall : (values.getD []).map (Expression.relabel G.labels) =
      (values'.getD []).map (Expression.relabel G.labels) := Grammar.map_getD_nil hvalues
  simp_all only [On, Statement.relabel]

theorem tracks_implicitCall :
    G.Tracks .kept Routine.implicitCall Grammar.implicitCall (G.On Statement.relabel) := by
  refine Tracks.rule ?_ _
  apply tracks_mark.andThen
  intro start start' hstart
  apply tracks_procedureName.andThen
  intro name name' hname
  rw [bind_pure_comp, map_orElse]
  exact ((tracks_closedCall hstart.1 hname).orElseBack (tracks_looseCall hstart.1 hname)).anyhow
    .loose

/-! ## Compound statements -/

theorem tracks_loopEnd : G.Tracks .never Routine.loopEnd Grammar.loopEnd Eq := by
  apply (tracks_expectKeyword _).nextNever
  intro _
  exact tracks_anyReference.attempt.thenNever fun _ _ _ => tracks_pure rfl

theorem tracks_loopTest :
    G.Tracks .kept Routine.loopTest Grammar.loopTest (G.On LoopTest.relabel) := by
  apply (tracks_oneOf _).nextNever
  intro isWhile
  apply (tracks_expectExpression _).thenNever
  intro condition condition' hcondition
  apply tracks_pure
  simp_all only [On, LoopTest.relabel]

/-- A missing part with a help of its own. -/
theorem tracks_helped (miss : Miss) {V : α → α → Prop} (expected : Expected) (help : Help)
    {token token' : Cursor} (h : G.meets token token') :
    G.Tracks miss (do
      let diagnostic ← Routine.errorAt expected token
      Routine.raise { diagnostic with help := some help.text })
      (Parse.advise (fun failure => { failure with help := some help })
        (Parse.failAt token' expected)) V := by
  intro s inside d hin hcd
  simp only [Routine.run_bind, Routine.run_errorAt, Routine.run_raise, Parsed.matched_andThen,
    Parsed.after_nil, Parse.advise, Parse.failAt]
  refine .failed (c := s.cursor) fun he => ?_
  rw [hin he, G.eq_of_isExact he h, G.eq_of_isExact he hcd]
  exact ⟨rfl, rfl⟩

/-- A part that is missing is missed at the next token. -/
theorem require_read {reader : Reader α} (expected : Expected) (q : α → Parse γ) :
    (require expected (Parse.read reader) >>= q) = Parse.nextToken >>= fun token =>
      Parse.opt (Parse.read reader) >>= fun found => match found with
        | some value => q value
        | none => Parse.failAt token expected := by
  funext inside c
  simp only [Parse.bind_apply, Parse.nextToken, Parse.opt_apply, require, Parse.orElse, Parse.read]
  cases reader c <;> rfl

theorem tracks_caseClause :
    G.Tracks .never Routine.caseClause Grammar.caseClause (G.On CaseClause.relabel) := by
  have hrelational : G.Tracks .kept Routine.relationalClause Grammar.relationalClause
      (G.On CaseClause.relabel) := by
    apply (passes_keyword .Is).met.nextNever
    intro _
    rw [require_read]
    apply tracks_nextToken.thenNever
    intro token token' htoken
    apply takes_relation.opt.nextNever
    intro relation
    cases relation with
    | none => exact tracks_failAt _ _ htoken
    | some relation =>
      apply (tracks_expectExpression _).thenNever
      intro bound bound' hbound
      apply tracks_pure
      simp_all only [On, CaseClause.relabel]
  refine hrelational.orElse ?_
  apply (tracks_expectExpression _).thenNever
  intro first first' hfirst
  apply ((passes_keyword .To).optional (tracks_expectExpression _)).thenNever
  intro last last' hlast
  apply tracks_pure
  cases last <;> cases last' <;> simp_all [On, CaseClause.relabel]

section Compound

variable {block : Routine (List Statement)} {block' : Parse (List Statement)}
  (hb : G.Tracks .never block block' (G.On relabelBlock))
include hb

theorem tracks_whileLoop : G.Tracks .kept (Routine.whileLoop block) (Grammar.whileLoop block')
    (G.On Statement.relabel) := by
  apply Tracks.sentence
  apply (passes_keyword .While).met.next
  intro _
  apply (tracks_expectExpression _).andThen
  intro condition condition' hcondition
  apply tracks_expectTerminator.next
  intro _
  apply hb.andThen
  intro body body' hbody
  apply (tracks_expectKeyword _).next
  intro _
  refine tracks_pure fun span place hspan => ?_
  simp_all only [On, Statement.relabel]

theorem tracks_doLoop : G.Tracks .kept (Routine.doLoop block) (Grammar.doLoop block')
    (G.On Statement.relabel) := by
  apply Tracks.sentence
  apply (passes_keyword .Do).met.next
  intro _
  apply tracks_loopTest.attempt.andThen
  intro first first' hfirst
  apply tracks_expectTerminator.next
  intro _
  apply hb.andThen
  intro body body' hbody
  apply (tracks_expectKeyword _).next
  intro _
  apply tracks_nextToken.andThen
  intro token token' htoken
  apply tracks_loopTest.attempt.andThen
  intro last last' hlast
  have hfirst : first.map (LoopTest.relabel G.labels) = first'.map (LoopTest.relabel G.labels) :=
    hfirst
  have hlast : last.map (LoopTest.relabel G.labels) = last'.map (LoopTest.relabel G.labels) := hlast
  cases first <;> cases first' <;> simp only [Option.map_none, Option.map_some, reduceCtorEq,
      Option.some.injEq] at hfirst <;>
    cases last <;> cases last' <;> simp only [Option.map_none, Option.map_some, reduceCtorEq,
      Option.some.injEq] at hlast
  · refine tracks_pure fun span place hspan => ?_
    simp_all only [On, Statement.relabel]
  · refine tracks_pure fun span place hspan => ?_
    simp_all only [On, Statement.relabel]
  · refine tracks_pure fun span place hspan => ?_
    simp_all only [On, Statement.relabel]
  · exact tracks_helped .never _ .twoConditions htoken

theorem tracks_forEachLoop : G.Tracks .kept (Routine.forEachLoop block) (Grammar.forEachLoop block')
    (G.Spanwise Statement.relabel) := by
  apply (passes_keyword .Each).met.nextNever
  intro _
  apply (tracks_expectReference _).thenNever
  intro element element' helement
  apply (tracks_expectKeyword _).nextNever
  intro _
  apply (tracks_expectExpression _).thenNever
  intro collection collection' hcollection
  apply tracks_expectTerminator.nextNever
  intro _
  apply hb.thenNever
  intro body body' hbody
  apply tracks_loopEnd.nextNever
  intro _
  refine tracks_pure fun span place hspan => ?_
  simp_all only [On, Statement.relabel]

theorem tracks_countingLoop : G.Tracks .never (Routine.countingLoop block)
    (Grammar.countingLoop block') (G.Spanwise Statement.relabel) := by
  apply (tracks_expectReference _).thenNever
  intro counter counter' hcounter
  apply (tracks_expectSymbol (by decide)).nextNever
  intro _
  apply (tracks_expectExpression _).thenNever
  intro first first' hfirst
  apply (tracks_expectKeyword _).nextNever
  intro _
  apply (tracks_expectExpression _).thenNever
  intro last last' hlast
  apply ((passes_keyword .Step).optional (tracks_expectExpression _)).thenNever
  intro step step' hstep
  apply tracks_expectTerminator.nextNever
  intro _
  apply hb.thenNever
  intro body body' hbody
  apply tracks_loopEnd.nextNever
  intro _
  refine tracks_pure fun span place hspan => ?_
  simp_all only [On, Statement.relabel]

theorem tracks_forLoop : G.Tracks .kept (Routine.forLoop block) (Grammar.forLoop block')
    (G.On Statement.relabel) := by
  apply Tracks.sentence
  apply (passes_keyword .For).met.next
  intro _
  exact (tracks_forEachLoop hb).orElse (tracks_countingLoop hb)

theorem tracks_branch {start start' : Cursor} (hstart : G.meets start start') :
    G.Tracks .never (Routine.branch block start) (Grammar.branchFrom block' start')
      (G.On Branch.relabel) := by
  apply (tracks_expectExpression _).thenNever
  intro condition condition' hcondition
  apply (tracks_expectKeyword _).nextNever
  intro _
  rw [Parse.requireTerminator, require, advise_orElse _ (pass_ne_failed _)]
  have hadvised : G.Tracks .never (do
      let diagnostic ← Routine.error .endOfStatement
      Routine.raise { diagnostic with help := some Help.singleLineIf.text })
      (Parse.advise (fun failure => { failure with help := some .singleLineIf })
        (Parse.fail .endOfStatement)) (Eq : Unit → Unit → Prop) := by
    refine tracks_advised (fun _ => rfl) fun s => ?_
    rw [Routine.run_bind, Routine.run_error]
    rfl
  apply (passes_terminator.met.orElse hadvised).nextNever
  intro _
  apply hb.thenNever
  intro body body' hbody
  apply Tracks.spanFrom hstart fun span => pure (Branch.mk condition' body' span)
  intro span place hspan
  apply tracks_pure
  simp_all only [On, Branch.relabel]

theorem tracks_branchTurn {before before' : List Branch} (h : G.On relabelBranches before before') :
    G.Tracks .never (Routine.branchTurn block before) (Grammar.branchTurn block' before')
      (Turned (G.On relabelBranches)) := by
  apply tracks_mark.thenNever
  intro start start' hstart
  apply (passes_keyword .ElseIf).flag.nextNever
  intro isMet
  split
  · apply (tracks_branch hb hstart.1).thenNever
    intro value value' hvalue
    refine tracks_pure (.yield ?_)
    simp_all only [On, relabelBranches_eq_map, List.map_append, List.map_cons, List.map_nil]
  · exact tracks_pure (.done h)

theorem tracks_caseFrom {start start' : Cursor} (hstart : G.meets start start') :
    G.Tracks .never (Routine.caseBlock block start) (Grammar.caseFrom block' start')
      (G.On CaseBlock.relabel) := by
  apply (tracks_caseClause.separated tracks_caseClause).thenNever
  intro clauses clauses' hclauses
  apply tracks_expectTerminator.nextNever
  intro _
  apply hb.thenNever
  intro body body' hbody
  apply Tracks.spanFrom hstart fun span => pure (CaseBlock.mk clauses' body' span)
  intro span place hspan
  apply tracks_pure
  simp_all only [On, CaseBlock.relabel]

/-- The cases of a selection that have been met, and what `Case Else` holds. -/
def relabelSelection (r : Relabel) (found : List CaseBlock × Option (List Statement)) :
    List CaseBlock × Option (List Statement) :=
  (relabelCases r found.1, relabelOtherwise r found.2)

theorem tracks_caseTurn {before before' : List CaseBlock × Option (List Statement)}
    (h : G.On relabelSelection before before') :
    G.Tracks .never (Routine.caseTurn block before) (Grammar.caseTurn block' before')
      (Turned (G.On relabelSelection)) := by
  have hbefore : relabelCases G.labels before.1 = relabelCases G.labels before'.1 :=
    congrArg Prod.fst h
  have hotherwise : relabelOtherwise G.labels before.2 = relabelOtherwise G.labels before'.2 :=
    congrArg Prod.snd h
  apply tracks_mark.thenNever
  intro start start' hstart
  apply (passes_keyword .Case).flag.nextNever
  intro isCase
  split
  · apply (passes_keyword .Else).flag.nextNever
    intro isElse
    split
    · apply tracks_expectTerminator.nextNever
      intro _
      apply hb.thenNever
      intro body body' hbody
      refine tracks_pure (.done ?_)
      simp_all only [On, relabelSelection, relabelOtherwise]
    · apply (tracks_caseFrom hb hstart.1).thenNever
      intro value value' hvalue
      refine tracks_pure (.yield ?_)
      simp_all only [On, relabelSelection, relabelCases_eq_map, List.map_append, List.map_cons,
        List.map_nil]
  · exact tracks_pure (.done h)

variable (hyields : Parse.Yields block' Cursor.Reaches blockRegions)
    (hresolves : Parse.Resolves block')
include hyields hresolves

theorem tracks_conditional : G.Tracks .kept (Routine.conditional block) (Grammar.conditional block')
    (G.On Statement.relabel) := by
  refine Tracks.rule ?_ _
  simp only [Parse.spanned, Grammar.branch_eq block' .If, bind_assoc, pure_bind]
  rw [Grammar.mark_mark]
  apply tracks_mark.andThen
  intro start start' hstart
  apply (passes_keyword .If).met.next
  intro _
  apply (tracks_branch hb hstart.1).andThen
  intro first first' hfirst
  have hmore {γ : Type} (q : List Branch → Parse γ) :
      (Parse.many (Grammar.branch block' .ElseIf) >>= fun branches => mark >>=
        fun _ => q branches) =
        Parse.loop (Grammar.branchTurn block') [] >>= q := by
    rw [Grammar.loop_branchTurn hyields hresolves, Grammar.moreBranches]
    simp only [bind_assoc, pure_bind, List.nil_append]
  rw [hmore]
  apply (Tracks.loop (fun before before' => tracks_branchTurn hb) rfl).andThen
  intro others others' hothers
  apply ((passes_keyword .Else).optional (tracks_expectTerminator.seqRight hb)).andThen
  intro otherwise otherwise' hotherwise
  apply (tracks_expectEnd _).next
  intro _
  apply Tracks.spanFrom hstart.1 fun span => Parse.requireTerminator >>= fun _ =>
    pure (Statement.conditional first' others' otherwise' span)
  intro span place hspan
  apply tracks_expectTerminator.next
  intro _
  apply tracks_pure
  have hotherwise : relabelOtherwise G.labels otherwise = relabelOtherwise G.labels otherwise' := by
    rwa [relabelOtherwise_eq_map, relabelOtherwise_eq_map]
  simp_all only [On, Statement.relabel]

theorem tracks_select : G.Tracks .kept (Routine.select block) (Grammar.select block')
    (G.On Statement.relabel) := by
  have hmore {γ : Type} (q : List CaseBlock → Option (List Statement) → Parse γ) :
      (Parse.many (Grammar.caseBlock block') >>= fun cases => mark >>= fun _ =>
        Parse.opt (Grammar.elseBlock block') >>= fun otherwise => q cases otherwise) =
        Parse.loop (Grammar.caseTurn block') ([], none) >>= fun cases => q cases.1 cases.2 := by
    rw [Grammar.loop_caseTurn hyields hresolves, Grammar.moreCases]
    simp only [bind_assoc, pure_bind, List.nil_append, Option.or_none]
  apply Tracks.sentence
  apply (passes_keyword .Select).met.next
  intro _
  apply (tracks_expectKeyword _).next
  intro _
  apply (tracks_expectExpression _).andThen
  intro subject subject' hsubject
  apply tracks_expectTerminator.next
  intro _
  apply tracks_skipTrivia.next
  intro _
  rw [hmore]
  apply (Tracks.loop (fun before before' => tracks_caseTurn hb) rfl).andThen
  intro cases cases' hcases
  apply (tracks_expectEnd _).next
  intro _
  refine tracks_pure fun span place hspan => ?_
  have hfound : relabelCases G.labels cases.1 = relabelCases G.labels cases'.1 :=
    congrArg Prod.fst hcases
  have hotherwise : relabelOtherwise G.labels cases.2 = relabelOtherwise G.labels cases'.2 :=
    congrArg Prod.snd hcases
  simp_all only [On, Statement.relabel]

omit hyields hresolves

theorem tracks_withBlock : G.Tracks .kept (Routine.withBlock block) (Grammar.withBlock block')
    (G.On Statement.relabel) := by
  apply Tracks.sentence
  apply (passes_keyword .With).met.next
  intro _
  apply (tracks_expectReference _).andThen
  intro target target' htarget
  apply tracks_expectTerminator.next
  intro _
  apply hb.andThen
  intro body body' hbody
  apply (tracks_expectEnd _).next
  intro _
  refine tracks_pure fun span place hspan => ?_
  simp_all only [On, Statement.relabel]

include hyields hresolves

theorem tracks_codeStatement (word : Option Keyword) :
    G.Tracks .kept (Routine.codeStatement block word) (Grammar.codeStatement block' word)
      (G.On Statement.relabel) := by
  unfold Routine.codeStatement
  split
  · exact tracks_assignment
  · exact tracks_assignment
  · exact tracks_localVariables
  · exact tracks_localVariables
  · exact tracks_redim
  · exact tracks_exit
  · exact tracks_jump
  · exact tracks_jump
  · exact tracks_onError
  · exact tracks_resume
  · exact tracks_explicitCall
  · exact tracks_raiseEvent
  · exact tracks_whileLoop hb
  · exact tracks_doLoop hb
  · exact tracks_forLoop hb
  · exact tracks_conditional hb hyields hresolves
  · exact tracks_withBlock hb
  · exact tracks_select hb hyields hresolves
  · have hother : Grammar.codeStatement block' word =
        Parse.firstOf [Grammar.assignment, Grammar.label, Grammar.implicitCall] := by
      unfold Grammar.codeStatement
      split <;> first | contradiction | rfl
    rw [hother]
    exact tracks_assignment.orElse <| tracks_label.orElse <|
      tracks_implicitCall.orElse tracks_unmatched

end Compound

/-! ## Blocks -/

theorem tracks_statements {m : Routine Statement} {p : Parse Statement}
    (h : G.Tracks .kept m p (G.On Statement.relabel)) :
    G.Tracks .never (Routine.collect (Routine.attempt m)) (Parse.many p) (G.On relabelBlock) := by
  refine h.attempt.collect.mono fun v w hvw => ?_
  simpa only [On, relabelBlock_eq_map] using hvw

theorem tracks_statementWith {m : Routine Statement} {p : Parse Statement}
    (h : G.Tracks .kept m p (G.On Statement.relabel))
    (hp : Parse.Yields p Cursor.Ahead Statement.regions) :
    G.Tracks .kept (Routine.statementWith m) (Grammar.statementWith p)
      (G.On Statement.relabel) := by
  refine Tracks.orElse (tracks_comment.map fun _ _ => congrArg Statement.comment) ?_
  refine Tracks.orElse (tracks_emptyLine.map fun _ _ => congrArg Statement.emptyLine) ?_
  refine Tracks.orElse ?_ tracks_unmatched
  have hcode (word : Option Keyword) := tracks_codeStatement (tracks_statements h)
    (Grammar.yields_statements hp) (Parse.many_ne_unmatched p) word
  intro s inside d hin hcd
  have hword : s.cursor.peekWord.bind Keyword.lookup = d.peekKeyword := by
    rw [Alignment.peekWord hcd, Cursor.peekKeyword]
  rw [Routine.run_bind, Routine.run_scan, Scanner.run_peekWord]
  apply Follows.after
  change G.Follows _ _ s _ (Grammar.codeStatement (Parse.many p) d.peekKeyword inside d)
  rw [← hword]
  exact hcode _ s inside d hin hcd

theorem tracks_statement :
    G.Tracks .kept Routine.statement Grammar.statement (G.On Statement.relabel) :=
  Tracks.recurse Grammar.yields_statement fun _ _ => tracks_statementWith

theorem tracks_block : G.Tracks .never Routine.block Grammar.block (G.On relabelBlock) :=
  tracks_statements tracks_statement

end Guide

end VisualBasic
