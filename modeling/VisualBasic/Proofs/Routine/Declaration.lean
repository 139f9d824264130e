import VisualBasic.Proofs.Routine.Sentence

/-!
# Declarations under a guide

The routines of declarations are followed by their parsers. A list of bounds and the lines of a
record are taken turn by turn; turn by turn the parsers unroll to the same.
-/

set_option autoImplicit false

namespace VisualBasic

namespace Grammar

open Parse

/-! ## Bounds and members, turn by turn -/

theorem resolves_requireNumber {α : Type} (expected : Expected) (meaning : Literal → Option α) :
    Resolves (requireNumber expected meaning) := by
  refine resolves_nextToken.andThen fun place => ?_
  refine (resolves_opt _).andThen fun number => ?_
  split
  · exact resolves_pure _
  · exact resolves_failAt _ _

theorem resolves_arrayBound : Resolves arrayBound :=
  (resolves_requireNumber _ _).andThen fun _ => (resolves_after _ _).andThen
    fun _ => resolves_pure _

/-- One more bound, after those before it. -/
def boundTurn (before : List ArrayBound) : Parse (ForInStep (List ArrayBound)) := do
  let bound ← arrayBound
  if ← flag (symbol ')') then return .done (before ++ [bound])
  else if ← flag (symbol ',') then return .yield (before ++ [bound])
  else fail (.choice [","] ")")

/-- What follows a bound: the bounds after commas, and the closing parenthesis. -/
def boundsAfter (bounds : List ArrayBound) : Parse (List ArrayBound) := do
  let others ← many (symbol ',' *> arrayBound)
  require (.choice [","] ")") (symbol ')')
  return bounds ++ others

/-- One or more bounds after those before them, and the closing parenthesis. -/
def closedBounds (before : List ArrayBound) : Parse (List ArrayBound) := do
  let bound ← arrayBound
  boundsAfter (before ++ [bound])

/-- A token that would close the list does not go on with it. -/
theorem symbol_eq_none_of_symbol {c d : Cursor} {char other : Char} (h : c.symbol char = some d)
    (hne : other ≠ char) : c.symbol other = none := by
  have hhead := (Cursor.adjacent_eq_some_iff.mp h).1
  simp only [Cursor.symbol, Cursor.adjacent, hhead, Option.some.injEq, hne.symm, if_false]

theorem boundTurn_apply {inside : List Construct} {c d : Cursor} {bound : ArrayBound}
    (h : arrayBound inside c = .matched bound d) (before : List ArrayBound) :
    boundTurn before inside c = match d.symbol ')' with
      | some e => .matched (.done (before ++ [bound])) e
      | none => match d.symbol ',' with
        | some e => .matched (.yield (before ++ [bound])) e
        | none => fail (.choice [","] ")") inside d := by
  rw [boundTurn, bind_apply, h]
  dsimp only
  rw [bind_apply, symbol, flag_pass_apply]
  cases hclose : d.symbol ')' with
  | some e => rfl
  | none =>
    dsimp only [Option.isSome_none, Option.getD_none]
    rw [if_neg Bool.false_ne_true, bind_apply, symbol, flag_pass_apply]
    cases d.symbol ',' <;> rfl

theorem turnsAhead_boundTurn : TurnsAhead boundTurn := by
  intro before inside c next e h
  obtain ⟨bound, d, hbound, -⟩ := matched_bind (show (arrayBound >>= _) inside c = _ from h)
  have hle := (moves_arrayBound inside c bound d hbound).reaches.length_le
  rw [boundTurn_apply hbound] at h
  split at h
  · simp at h
  · split at h
    · rename_i f hcomma
      cases h
      exact Nat.lt_of_lt_of_le (Cursor.length_lt_of_symbol hcomma) hle
    · cases h

theorem moves_nextBound : Moves (symbol ',' *> arrayBound) Cursor.Ahead :=
  (((begins_symbol (by decide)).seqRight moves_arrayBound.yields).moves).weaken
    Cursor.Token.ahead

theorem pass_of_some {token : Cursor → Option Cursor} {c d : Cursor} (h : token c = some d)
    (inside : List Construct) : pass token inside c = .matched () d := by
  rw [Parse.pass, h]

theorem pass_of_none {token : Cursor → Option Cursor} {c : Cursor} (h : token c = none)
    (inside : List Construct) : pass token inside c = .unmatched := by
  rw [Parse.pass, h]

/-- After a bound the list is closed, or goes on after a comma, or fails. -/
theorem boundsAfter_apply (bounds : List ArrayBound) (inside : List Construct) (d : Cursor) :
    boundsAfter bounds inside d = match d.symbol ')' with
      | some e => .matched bounds e
      | none => match d.symbol ',' with
        | some e => closedBounds bounds inside e
        | none => fail (.choice [","] ")") inside d := by
  have hlast (h : d.symbol ',' = none) : boundsAfter bounds inside d =
      (require (.choice [","] ")") (symbol ')') >>= fun _ => pure (bounds ++ [])) inside d := by
    have hstop : (symbol ',' *> arrayBound) inside d = .unmatched := by
      rw [seqRight_eq_bind, bind_apply, symbol, pass_of_none h]
    rw [boundsAfter, bind_apply, many_of_unmatched hstop]
  cases hclose : d.symbol ')' with
  | some e =>
    rw [hlast (symbol_eq_none_of_symbol hclose (by decide)), bind_apply, require, Parse.orElse,
      symbol, pass_of_some hclose, List.append_nil]
    rfl
  | none =>
    cases hcomma : d.symbol ',' with
    | none =>
      rw [hlast hcomma, bind_apply, require, Parse.orElse, symbol, pass_of_none hclose]
      rfl
    | some e =>
      have hnext : (symbol ',' *> arrayBound) inside d = arrayBound inside e := by
        rw [seqRight_eq_bind, bind_apply, symbol, pass_of_some hcomma]
      dsimp only
      rw [closedBounds, bind_apply, boundsAfter, bind_apply]
      cases hbound : arrayBound inside e with
      | unmatched => exact absurd hbound (resolves_arrayBound inside e)
      | failed failure => rw [many_of_failed (hnext.trans hbound)]
      | matched bound f =>
        rw [many_eq_of_matched moves_nextBound (hnext.trans hbound)]
        simp only [bind_apply, pure_apply, boundsAfter]
        cases many (symbol ',' *> arrayBound) inside f with
        | matched others g => simp
        | unmatched => rfl
        | failed failure => rfl

theorem closedBounds_eq (before : List ArrayBound) :
    closedBounds before = boundTurn before >>= afterTurn closedBounds := by
  funext inside c
  cases hbound : arrayBound inside c with
  | unmatched => simp [closedBounds, boundTurn, bind_apply, hbound]
  | failed failure => simp [closedBounds, boundTurn, bind_apply, hbound]
  | matched bound d =>
    rw [closedBounds, bind_apply, hbound, bind_apply, boundTurn_apply hbound]
    dsimp only
    rw [boundsAfter_apply]
    cases d.symbol ')' with
    | some e => rfl
    | none => cases d.symbol ',' <;> rfl

theorem loop_boundTurn (before : List ArrayBound) : loop boundTurn before = closedBounds before :=
  loop_eq turnsAhead_boundTurn closedBounds_eq before

section Members

variable {α : Type} (member : Parse α)

/-- One more part with its terminator, after the comments and empty lines before it. -/
def memberTurn (before : List α) : Parse (ForInStep (List α)) := do
  skipTrivia
  match ← opt member with
  | none => return .done before
  | some value =>
    requireTerminator
    return .yield (before ++ [value])

/-- The lines of a record or an enumeration, after those before them. -/
def moreMembers (before : List α) : Parse (List α) := do
  skipTrivia
  let members ← many (memberLine member)
  return before ++ members

variable {member}

variable {view : α → List Region} (h : Yields member Cursor.Token view)
include h

theorem turnsAhead_memberTurn : TurnsAhead (memberTurn member) := by
  intro before inside c next f hm
  obtain ⟨_, d, hd, hm⟩ := matched_bind (show (skipTrivia >>= _) inside c = _ from hm)
  obtain ⟨found, e, he, hm⟩ := matched_bind hm
  have hstart := (moves_skipTrivia inside c () d hd).length_le
  cases found with
  | none => cases hm
  | some value =>
    obtain ⟨_, f, hf, hm⟩ := matched_bind hm
    cases hm
    have htoken := (h inside d value e (matched_opt_some he)).1.length_lt
    have hend := (moves_requireTerminator inside e () f hf).length_le
    omega

/-- The comments and empty lines after a member are those before the next one. -/
theorem moreMembers_eq (before : List α) :
    moreMembers member before = memberTurn member before >>= afterTurn (moreMembers member) := by
  have hahead : Moves (memberLine member) Cursor.Ahead :=
    (yields_memberLine h).moves.weaken Cursor.Opened.ahead
  have hline (value : α) : Resolves (do
      requireTerminator
      skipTrivia
      return value) :=
    resolves_requireTerminator.andThen fun _ => commits_skipTrivia.resolves.andThen fun _ =>
      resolves_pure _
  rw [moreMembers, memberTurn, bind_assoc, many_eq hahead, memberLine, opt_bind member hline]
  refine bind_congr fun _ => ?_
  simp only [bind_assoc]
  refine bind_congr fun found => ?_
  cases found with
  | none => simp [afterTurn]
  | some value => simp [afterTurn, moreMembers, memberLine, bind_assoc]

theorem loop_memberTurn (before : List α) :
    loop (memberTurn member) before = moreMembers member before :=
  loop_eq (turnsAhead_memberTurn h) (moreMembers_eq h) before

end Members

end Grammar

namespace Guide

open Parse (loop)

variable {G : Guide} {α : Type}

/-! ## Variables and constants -/

theorem tracks_access : G.Tracks .never Routine.access Grammar.access Eq :=
  (tracks_optOneOf _).nextNever fun _ => tracks_pure rfl

theorem tracks_typeName : G.Tracks .never Routine.typeName Grammar.typeName Eq := by
  apply (tracks_expectName _).nextNever
  intro first
  apply ((passes_adjacent (by decide)).optionalSame (tracks_expectName _)).nextNever
  intro member
  exact tracks_pure rfl

theorem tracks_arrayBound : G.Tracks .never Routine.arrayBound Grammar.arrayBound Eq := by
  apply (tracks_expectNumber _ _).nextNever
  intro first
  apply ((passes_keyword .To).optionalSame (tracks_expectNumber _ _)).nextNever
  intro last
  exact tracks_pure rfl

theorem tracks_boundTurn (before : List ArrayBound) :
    G.Tracks .never (Routine.boundTurn before) (Grammar.boundTurn before) (Turned Eq) := by
  apply tracks_arrayBound.nextNever
  intro bound
  apply (passes_symbol (by decide)).flag.nextNever
  intro isClosed
  split
  · exact tracks_pure (.done rfl)
  · apply (passes_symbol (by decide)).flag.nextNever
    intro isFollowed
    split
    · exact tracks_pure (.yield rfl)
    · exact tracks_fail _ _

theorem tracks_arrayBounds : G.Tracks .kept Routine.arrayBounds Grammar.arrayBounds Eq := by
  have hrest : (do
      let bounds ← Parse.separated Grammar.arrayBound Grammar.arrayBound
      Parse.require (.choice [","] ")") (Parse.symbol ')')
      return bounds) = loop Grammar.boundTurn [] := by
    simp only [Grammar.loop_boundTurn, Grammar.closedBounds, Grammar.boundsAfter, Parse.separated,
      bind_assoc, pure_bind, List.nil_append, List.singleton_append]
  apply (passes_symbol (by decide)).met.nextNever
  intro _
  rw [hrest, Parse.symbol, Parse.orElse_pass _ (Parse.resolves_pure _)]
  apply (passes_symbol (by decide)).flag.nextNever
  intro isEmpty
  split
  · exact tracks_pure rfl
  · refine Tracks.loop (fun before before' hbefore => ?_) rfl
    rw [← hbefore]
    exact tracks_boundTurn before

theorem tracks_variableType : G.Tracks .never Routine.variableType Grammar.variableType Eq := by
  apply (passes_keyword .New).flag.nextNever
  intro isNew
  exact tracks_typeName.map fun name name' hname => congrArg (Prod.mk isNew) hname

theorem tracks_declaredVariable :
    G.Tracks .kept Routine.declaredVariable Grammar.declaredVariable (G.On Variable.relabel) := by
  refine Tracks.rule ?_ _
  simp only [Parse.spanned, bind_assoc, pure_bind]
  apply tracks_mark.andThen
  intro start start' hstart
  apply takes_identifier.found.nextNever
  intro name
  apply tracks_arrayBounds.attemptSame.nextNever
  intro bounds
  apply ((passes_keyword .As).optionalSame tracks_variableType).nextNever
  intro type
  apply Tracks.spanFrom hstart.1 fun span =>
    pure (Variable.mk name (type.map Prod.snd) (type.any Prod.fst) bounds span)
  intro span place hspan
  apply tracks_pure
  simp only [On, Variable.relabel, hspan]

theorem tracks_declaredVariables {miss : Miss} {first : Routine Variable} {first' : Parse Variable}
    (h : G.Tracks miss first first' (G.On Variable.relabel)) :
    G.Tracks miss (Routine.declaredVariables first) (Grammar.declaredVariables first')
      (G.On fun r => List.map (Variable.relabel r)) :=
  h.separated (tracks_declaredVariable.require _)

theorem tracks_variableGroup :
    G.Tracks .kept Routine.variableGroup Grammar.variableGroup (G.On VariableGroup.relabel) := by
  have haccess : G.Tracks .kept
      (Routine.orElse (Routine.found (Scanner.oneOf Grammar.accessKeywords)) do
        Routine.met (Scanner.keyword .Dim)
        return .Dim)
      (Parse.orElse (Parse.oneOf Grammar.accessKeywords) (Parse.keyword .Dim *> pure .Dim)) Eq :=
    (tracks_oneOf _).orElse ((passes_keyword .Dim).met.nextNever fun _ => tracks_pure rfl)
  apply Tracks.sentence
  apply haccess.next
  intro access
  apply (passes_keyword .WithEvents).flag.next
  intro withEvents
  apply (tracks_declaredVariables tracks_declaredVariable).andThen
  intro members members' hmembers
  refine tracks_pure fun span place hspan => ?_
  simp_all only [On, VariableGroup.relabel]

theorem tracks_constant :
    G.Tracks .never Routine.constant Grammar.constant (G.On Constant.relabel) := by
  apply (tracks_declaredVariable.require _).thenNever
  intro declared declared' hdeclared
  apply (tracks_expectSymbol (by decide)).nextNever
  intro _
  apply (tracks_literal.require _).thenNever
  intro value value' hvalue
  apply tracks_pure
  simp_all only [On, Constant.relabel]

theorem tracks_constantGroup :
    G.Tracks .kept Routine.constantGroup Grammar.constantGroup (G.On ConstantGroup.relabel) := by
  apply Tracks.sentence
  apply tracks_access.next
  intro access
  apply (passes_keyword .Const).met.next
  intro _
  apply (tracks_constant.separated tracks_constant).andThen
  intro constants constants' hconstants
  refine tracks_pure fun span place hspan => ?_
  simp_all only [On, ConstantGroup.relabel]

/-! ## Records and enumerations -/

theorem tracks_memberTurn {member : Routine α} {member' : Parse α} {g : Relabel → α → α}
    (h : G.Tracks .kept member member' (G.On g)) {before before' : List α}
    (hbefore : G.On (fun r => List.map (g r)) before before') :
    G.Tracks .never (Routine.memberTurn member before) (Grammar.memberTurn member' before')
      (Turned (G.On fun r => List.map (g r))) := by
  apply tracks_skipTrivia.nextNever
  intro _
  apply h.attempt.thenNever
  intro found found' hfound
  have hfound : found.map (g G.labels) = found'.map (g G.labels) := hfound
  cases found <;> cases found' <;> simp only [Option.map_none, Option.map_some, reduceCtorEq,
    Option.some.injEq] at hfound
  · exact tracks_pure (.done hbefore)
  · apply tracks_expectTerminator.nextNever
    intro _
    refine tracks_pure (.yield ?_)
    have hbefore : before.map (g G.labels) = before'.map (g G.labels) := hbefore
    simp only [On, List.map_append, List.map_cons, List.map_nil, hbefore, hfound]

theorem tracks_memberLines {member : Routine α} {member' : Parse α} {g : Relabel → α → α}
    {view : α → List Region} (h : G.Tracks .kept member member' (G.On g))
    (hyields : Parse.Yields member' Cursor.Token view) (expected : Expected) :
    G.Tracks .never (Routine.memberLines member expected) (Grammar.memberLines member' expected)
      (G.On fun r => List.map (g r)) := by
  have hlines : Grammar.memberLines member' expected = Parse.requireTerminator >>= fun _ =>
      loop (Grammar.memberTurn member') [] >>= fun members =>
        if members.isEmpty then Parse.fail expected else pure members := by
    simp only [Grammar.memberLines, Grammar.loop_memberTurn hyields, Grammar.moreMembers,
      bind_assoc, pure_bind, List.nil_append]
  rw [hlines]
  apply tracks_expectTerminator.nextNever
  intro _
  apply (Tracks.loop (fun before before' => tracks_memberTurn h) rfl).thenNever
  intro members members' hmembers
  have hempty : members.isEmpty = members'.isEmpty := by
    simpa using congrArg List.isEmpty hmembers
  rw [hempty]
  split
  · exact tracks_fail _ _
  · exact tracks_pure hmembers

theorem tracks_record : G.Tracks .kept Routine.record Grammar.record (G.On Record.relabel) := by
  apply Tracks.sentence
  apply tracks_access.next
  intro access
  apply (passes_keyword .Type).met.next
  intro _
  apply (tracks_expectName _).next
  intro name
  apply (tracks_memberLines tracks_declaredVariable Grammar.yields_declaredVariable _).andThen
  intro members members' hmembers
  apply (tracks_expectEnd _).next
  intro _
  refine tracks_pure fun span place hspan => ?_
  simp_all only [On, Record.relabel]

theorem tracks_enumItem :
    G.Tracks .kept Routine.enumItem Grammar.enumItem (G.On EnumItem.relabel) := by
  apply takes_identifier.found.nextNever
  intro name
  apply ((passes_symbol (by decide)).optional (tracks_literal.require _)).thenNever
  intro value value' hvalue
  apply tracks_pure
  simp_all only [On, EnumItem.relabel]

theorem tracks_enumeration :
    G.Tracks .kept Routine.enumeration Grammar.enumeration (G.On Enumeration.relabel) := by
  apply Tracks.sentence
  apply tracks_access.next
  intro access
  apply (passes_keyword .Enum).met.next
  intro _
  apply (tracks_expectName _).next
  intro name
  apply (tracks_memberLines tracks_enumItem Grammar.moves_enumItem.yields _).andThen
  intro items items' hitems
  apply (tracks_expectEnd _).next
  intro _
  refine tracks_pure fun span place hspan => ?_
  simp_all only [On, Enumeration.relabel]

/-! ## Parameters and heads -/

theorem tracks_parameter :
    G.Tracks .kept Routine.parameter Grammar.parameter (G.On Parameter.relabel) := by
  refine Tracks.rule ?_ _
  apply (passes_keyword .Optional).flag.next
  intro isOptional
  apply (tracks_optOneOf _).next
  intro passing
  apply (passes_keyword .ParamArray).flag.next
  intro isParamArray
  have hdeclared (isCommitted : Bool) : G.Tracks .kept
      (if isCommitted then Routine.require (.part "parameter name") Routine.declaredVariable
        else Routine.declaredVariable)
      (if isCommitted then Parse.require (.part "parameter name") Grammar.declaredVariable
        else Grammar.declaredVariable) (G.On Variable.relabel) := by
    cases isCommitted
    · exact tracks_declaredVariable
    · exact (tracks_declaredVariable.require _).anyhow _
  apply (hdeclared _).andThen
  intro declared declared' h
  apply ((passes_symbol (by decide)).optional (tracks_literal.require _)).andThen
  intro value value' hvalue
  apply tracks_pure
  simp_all only [On, Parameter.relabel]

theorem tracks_parameters :
    G.Tracks .kept Routine.parameters Grammar.parameters
      (G.On fun r => List.map (Parameter.relabel r)) :=
  tracks_parameter.separated (tracks_parameter.require _)

theorem tracks_parameterList :
    G.Tracks .kept Routine.parameterList Grammar.parameterList
      (G.On fun r => List.map (Parameter.relabel r)) := by
  apply (passes_symbol (by decide)).met.nextNever
  intro _
  apply tracks_parameters.attempt.thenNever
  intro found found' hfound
  apply (tracks_expectSymbol (by decide)).nextNever
  intro _
  exact tracks_pure (Grammar.map_getD_nil hfound)

theorem tracks_procedureParameters :
    G.Tracks .never Routine.procedureParameters Grammar.procedureParameters
      (G.On fun r => List.map (Parameter.relabel r)) := by
  apply tracks_parameterList.attempt.thenNever
  intro found found' hfound
  exact tracks_pure (Grammar.map_getD_nil hfound)

theorem tracks_returnType (isTyped : Prop) [Decidable isTyped] :
    G.Tracks .never
      (if isTyped then Routine.optional (Scanner.keyword .As) Routine.typeName else pure none)
      (if isTyped then Parse.after .As Grammar.typeName else pure none) Eq := by
  split
  · exact (passes_keyword .As).optionalSame tracks_typeName
  · exact tracks_pure rfl

theorem tracks_externalProcedure :
    G.Tracks .kept Routine.externalProcedure Grammar.externalProcedure
      (G.On Declaration.relabel) := by
  apply Tracks.sentence
  apply tracks_access.next
  intro access
  apply (passes_keyword .Declare).met.next
  intro _
  apply ((tracks_oneOf _).require _).next
  intro isFunction
  apply (tracks_expectName _).next
  intro name
  apply (tracks_expectKeyword _).next
  intro _
  apply (tracks_expectQuoted _).next
  intro library
  apply ((passes_keyword .Alias).optionalSame (tracks_expectQuoted _)).next
  intro entryPoint
  apply tracks_procedureParameters.andThen
  intro parameters parameters' hparameters
  apply (tracks_returnType _).next
  intro type
  refine tracks_pure fun span place hspan => ?_
  cases isFunction <;>
    simp_all [On, Declaration.relabel, External.relabel, ExternalFunction.relabel]

theorem tracks_externalSub :
    G.Tracks .kept Routine.externalSub Grammar.externalSub (G.On External.relabel) := by
  refine Tracks.rule ?_ _
  apply tracks_externalProcedure.andThen
  intro declared declared' h
  cases declared <;> cases declared' <;> simp only [On, Declaration.relabel, reduceCtorEq,
    Declaration.externalSub.injEq] at h
  case externalSub.externalSub =>
    have hpart := tracks_pure (G := G) (V := G.On External.relabel) h
    exact hpart.anyhow .loose
  all_goals exact tracks_unmatched.loosen

theorem tracks_externalFunction : G.Tracks .kept Routine.externalFunction Grammar.externalFunction
    (G.On ExternalFunction.relabel) := by
  refine Tracks.rule ?_ _
  apply tracks_externalProcedure.andThen
  intro declared declared' h
  cases declared <;> cases declared' <;> simp only [On, Declaration.relabel, reduceCtorEq,
    Declaration.externalFunction.injEq] at h
  case externalFunction.externalFunction =>
    have hpart := tracks_pure (G := G) (V := G.On ExternalFunction.relabel) h
    exact hpart.anyhow .loose
  all_goals exact tracks_unmatched.loosen

theorem tracks_plainHead (construct : Construct) (k : Keyword) (part : String) :
    G.Tracks .kept (Routine.plainHead construct k part) (Grammar.plainHead construct k part)
      (G.On Head.relabel) := by
  apply Tracks.sentence
  apply tracks_access.next
  intro access
  apply (passes_keyword k).met.next
  intro _
  apply (tracks_expectName _).next
  intro name
  apply tracks_procedureParameters.andThen
  intro parameters parameters' hparameters
  refine tracks_pure fun span place hspan => ?_
  simp_all only [On, Head.relabel]

theorem tracks_declaration :
    G.Tracks .kept Routine.declaration Grammar.declaration (G.On Declaration.relabel) := by
  refine Tracks.orElse (tracks_constantGroup.map fun _ _ => congrArg Declaration.constantGroup) ?_
  refine Tracks.orElse (tracks_enumeration.map fun _ _ => congrArg Declaration.enumeration) ?_
  refine Tracks.orElse (tracks_record.map fun _ _ => congrArg Declaration.record) ?_
  refine Tracks.orElse tracks_externalProcedure ?_
  refine Tracks.orElse ((tracks_plainHead _ _ _).map fun _ _ => congrArg Declaration.event) ?_
  refine Tracks.orElse (tracks_variableGroup.map fun _ _ => congrArg Declaration.variableGroup) ?_
  exact tracks_unmatched

end Guide

end VisualBasic
