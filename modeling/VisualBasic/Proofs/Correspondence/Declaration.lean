import VisualBasic.Proofs.Correspondence.Expression
import VisualBasic.Proofs.Span.Declaration

/-!
# Corresponding declarations

A correspondence keeps the parsers of comments, variables, parameters and declarations. The parsers
of records and enumerations may lose the text among their lines; the words that close them do not
match there.
-/

set_option autoImplicit false

namespace VisualBasic

namespace Grammar

open Parse Pairing

variable {K : Correspondence}

theorem keeps_literal : K.Keeps .sure (read literal) Literal.relabel :=
  tracks_token fun _ _ => literal_reads

/-! ## Comments and empty lines -/

theorem keeps_comment : K.Keeps .ends (read comment) Comment.relabel :=
  tracks_read (by decide) fun _ _ => K.comment

theorem keeps_emptyLine : K.Keeps .ends (read emptyLine) EmptyLine.relabel := by
  refine tracks_read (by decide) fun c d hcd => ?_
  rcases K.blankLine hcd with ⟨e, he, hpast⟩ | hr
  · exact .inl ⟨e, by rw [emptyLine, he]; rfl, hpast⟩
  · refine .inr (rel_map hr fun e f h => ⟨?_, h, fun hs => by contradiction⟩)
    exact congrArg EmptyLine.mk (K.span_eq hcd.1 h)

theorem moves_triviaLine : Moves triviaLine Cursor.Ahead := by
  have drop {α : Type} {p : Parse α} (h : Moves p Cursor.Ahead) :
      Yields (p *> pure ()) Cursor.Ahead fun _ => [] :=
    (moves_seqRight_ahead h (advances_pure ())).yields
  exact ((drop yields_comment.moves).orElse (drop yields_emptyLine.moves)).moves

theorem keeps_skipTrivia : K.Keeps .loose skipTrivia Relabel.plain := by
  have hline : K.Keeps .ends triviaLine Relabel.plain :=
    Tracks.orElse (keeps_comment.last fun _ _ _ => rfl) (keeps_emptyLine.last fun _ _ _ => rfl)
  exact (hline.manyLoose moves_triviaLine moves_triviaLine).last fun _ _ _ => rfl

theorem commits_skipTrivia : Commits skipTrivia :=
  (commits_many moves_triviaLine.advances).andThen fun _ => commits_pure _

/-! ## Variables -/

theorem keeps_access : K.Keeps .sure access Relabel.plain := by
  refine (keeps_oneOf (by decide)).optPlain.thenSame fun written => ?_
  exact keeps_pure rfl _

/-- Letter by letter, a text put together is relabelled like its parts. -/
theorem text_append (r : Relabel) (first second : String) :
    r.text (first ++ second) = r.text first ++ r.text second := by
  simp [Relabel.text, String.ofList_append]

theorem text_dot (K : Lexicon) : K.left.text "." = K.right.text "." := by
  have h : (".".toList) = ['.'] := rfl
  rw [Relabel.text, Relabel.text, h, List.map_singleton, List.map_singleton, K.dot]

theorem keeps_typeName : K.Keeps .closed typeName Relabel.text := by
  have hadvances : Advances (adjacent '.' *> requireName "type name") :=
    ((begins_adjacent (by decide)).seqRight (moves_requireName _).yields).moves.advances
  refine (keeps_requireName _).thenCommits (fun first first' hfirst => ?_)
    (fun _ => (commits_opt hadvances).andThen fun _ => commits_pure _) (by decide)
  refine ((keeps_adjacent (by decide)).seqRight (keeps_requireName _)).opt.last
    fun member member' hmember => ?_
  have hfirst : K.left.text first = K.right.text first' := hfirst
  cases member <;> cases member' <;> simp only [On, Option.map_none, Option.map_some,
    reduceCtorEq, Option.some.injEq] at hmember
  · exact hfirst
  · simp only [On, text_append, hfirst, hmember, text_dot]

theorem keeps_arrayBound : K.Keeps .sure arrayBound Relabel.plain := by
  refine (keeps_requireNumber _ _).thenSame fun first => ?_
  refine ((keeps_keyword (by decide)).seqRight (keeps_requireNumber _ _)).optPlain.thenSame
    fun last => ?_
  exact keeps_pure rfl _

theorem keeps_arrayBounds : K.Keeps .sure arrayBounds Relabel.plain := by
  have hempty : K.Keeps .sure (symbol ')' *> pure ([] : List ArrayBound)) Relabel.plain :=
    (keeps_symbol (by decide)).seqRight (keeps_pure rfl _)
  have hbounds : K.Keeps .sure (do
      let bounds ← separated arrayBound arrayBound
      require (.choice [","] ")") (symbol ')')
      return bounds) Relabel.plain := by
    have hlist := keeps_arrayBound (K := K).separated keeps_arrayBound rfl
      moves_arrayBound.yields.advances
    refine hlist.andThen fun bounds others h => ?_
    obtain rfl : bounds = others := by simpa [On] using h
    refine ((keeps_symbol (by decide)).require _).thenSame fun _ => ?_
    exact keeps_pure rfl _
  refine (keeps_symbol (by decide)).thenSame fun _ => ?_
  exact hempty.orElse hbounds

/-- Whether `New` is there, and the name of the type. -/
def relabelType (r : Relabel) (type : Bool × String) : Bool × String := (type.1, r.text type.2)

theorem relabelType_parts {r r' : Relabel} {type other : Option (Bool × String)}
    (h : type.map (relabelType r) = other.map (relabelType r')) :
    (type.map Prod.snd).map r.text = (other.map Prod.snd).map r'.text ∧
      type.any Prod.fst = other.any Prod.fst := by
  cases type <;> cases other <;> simp_all [relabelType]

theorem keeps_variableType : K.Keeps .closed variableType relabelType := by
  refine (keeps_keyword (by decide)).flag.thenSame fun isNew => ?_
  exact keeps_typeName.last fun name name' hname => congrArg (Prod.mk isNew) hname

theorem keeps_declaredVariable : K.Keeps .closed declaredVariable Variable.relabel := by
  refine (Tracks.spanned ?_).within _
  refine keeps_identifier.thenCommits (fun name name' hname => ?_) (fun _ =>
    (commits_opt moves_arrayBounds.advances).andThen fun _ =>
      (commits_after moves_variableType.advances _).andThen fun _ => commits_pure _) (by decide)
  refine keeps_arrayBounds.optPlain.thenSame fun bounds => ?_
  refine (keeps_variableType.after (by decide)).last fun type type' htype span place hspan => ?_
  obtain ⟨htypeName, hisNew⟩ := relabelType_parts htype
  simp_all only [On, Variable.relabel]

theorem keeps_declaredVariables {first : Parse Variable}
    (h : K.Keeps .closed first Variable.relabel) :
    K.Keeps .closed (declaredVariables first) fun r values => values.map (Variable.relabel r) :=
  h.separated (keeps_declaredVariable.require _) rfl yields_declaredVariable.require.advances

theorem keeps_variableGroup :
    KeepsSentence K variableGroup VariableGroup.relabel VariableGroup.span := by
  have haccess : K.Keeps .sure (orElse (oneOf accessKeywords) (keyword .Dim *> pure .Dim))
      Relabel.plain :=
    (keeps_oneOf (by decide)).orElse ((keeps_keyword (by decide)).seqRight (keeps_pure rfl _))
  refine tracksSentence _ ?_ ?_
  · iterate 3 refine .andThen fun _ => ?_
    exact buildsOver_pure fun _ => rfl
  refine haccess.thenSame fun access => ?_
  refine (keeps_keyword (by decide)).flag.thenSame fun withEvents => ?_
  refine (keeps_declaredVariables keeps_declaredVariable).last fun members members' h =>
    fun span place hspan => ?_
  simp_all only [On, VariableGroup.relabel]

theorem keeps_constant : K.Keeps .closed constant Constant.relabel := by
  refine (keeps_declaredVariable.require _).thenCommits (fun declared declared' hdeclared => ?_)
    (fun _ => (commits_requireSymbol _).andThen fun _ =>
      (commits_require _ moves_literal.advances).andThen fun _ => commits_pure _) (by decide)
  refine (keeps_requireSymbol (by decide)).thenSame fun _ => ?_
  refine (keeps_literal.require _).andThen fun value value' hvalue => ?_
  refine tracks_pure ?_ _
  simp_all only [On, Constant.relabel]

theorem keeps_constantGroup :
    KeepsSentence K constantGroup ConstantGroup.relabel ConstantGroup.span := by
  refine tracksSentence _ ?_ ?_
  · iterate 3 refine .andThen fun _ => ?_
    exact buildsOver_pure fun _ => rfl
  refine keeps_access.thenSame fun access => ?_
  refine (keeps_keyword (by decide)).thenSame fun _ => ?_
  refine (keeps_constant.separated keeps_constant rfl yields_constant.advances).last
    fun constants constants' h => fun span place hspan => ?_
  simp_all only [On, ConstantGroup.relabel]

/-! ## Records and enumerations -/

theorem commits_memberCheck {α : Type} (expected : Expected) (members : List α) : Commits
    (if members.isEmpty then fail expected else return members : Parse (List α)) := by
  split
  · exact (demands_fail _).toCommits
  · exact commits_pure _

theorem advances_memberLine {α : Type} {member : Parse α} {view : α → List Region}
    (h : Yields member Cursor.Token view) : Advances (memberLine member) :=
  ((yields_memberLine h).moves.weaken Cursor.Opened.ahead).advances

theorem commits_memberLines {α : Type} {member : Parse α} {view : α → List Region}
    (h : Yields member Cursor.Token view) (expected : Expected) :
    Commits (memberLines member expected) :=
  commits_requireTerminator.andThen fun _ => commits_skipTrivia.andThen fun _ =>
    (commits_many (advances_memberLine h)).andThen (commits_memberCheck expected)

/-- The text may end among the lines, or after any of them. -/
theorem keeps_memberLines {α : Type} {member : Parse α} {expected : Expected}
    {g : Relabel → α → α} {view : α → List Region} (h : K.Keeps .closed member g)
    (hyields : Yields member Cursor.Token view) :
    K.Keeps .loose (memberLines member expected) fun r values => values.map (g r) := by
  have hline : K.Keeps .loose (memberLine member) g := by
    refine h.thenCommits (fun value value' hvalue => ?_) (fun _ =>
      commits_requireTerminator.andThen fun _ => commits_skipTrivia.andThen fun _ => commits_pure _)
      (by decide)
    refine keeps_requireTerminator.thenStays (fun _ _ _ => ?_)
      fun _ => commits_skipTrivia.andThen fun _ => commits_pure _
    exact keeps_skipTrivia.last fun _ _ _ => hvalue
  have hmoves : Moves (memberLine member) Cursor.Ahead :=
    (yields_memberLine hyields).moves.weaken Cursor.Opened.ahead
  have hlines : Commits (many (memberLine member) >>= fun members =>
      if members.isEmpty then fail expected else return members : Parse (List α)) :=
    (commits_many hmoves.advances).andThen (commits_memberCheck expected)
  refine keeps_requireTerminator.thenStays (fun _ _ _ => ?_) fun _ =>
    commits_skipTrivia.andThen fun _ => hlines
  refine keeps_skipTrivia.thenStays (fun _ _ _ => ?_) fun _ => hlines
  refine (hline.manyLoose hmoves hmoves).thenStays (fun members members' hmembers => ?_)
    (commits_memberCheck expected)
  have hempty : members.isEmpty = members'.isEmpty := by
    have := congrArg List.isEmpty hmembers
    simpa using this
  rw [hempty]
  split
  · exact tracks_fail _ _
  · exact tracks_pure hmembers _

theorem keeps_record : KeepsSentence K record Record.relabel Record.span := by
  refine tracksSentence _ ?_ ?_
  · iterate 5 refine .andThen fun _ => ?_
    exact buildsOver_pure fun _ => rfl
  refine keeps_access.thenSame fun access => ?_
  refine (keeps_keyword (by decide)).thenSame fun _ => ?_
  have hclose {α : Type} (value : α) : Demands (requireEnd .Type >>= fun _ => pure value) :=
    (demands_requireEnd _).andThen fun _ => commits_pure value
  refine (keeps_requireName _).thenCommits (fun name name' hname => ?_)
    (fun _ => ((commits_memberLines yields_declaredVariable _).demands fun _ => hclose _).toCommits)
    (by decide)
  refine (keeps_memberLines keeps_declaredVariable yields_declaredVariable).thenFails
    (fun members members' hmembers => ?_) (fun _ => hclose _) (by decide)
  refine (keeps_requireEnd (by decide)).thenSame fun _ => ?_
  refine tracks_pure (fun span place hspan => ?_) _
  simp_all only [On, Record.relabel]

/-- A value after an equals sign, where one is required. -/
theorem advances_givenValue (expected : Expected) :
    Advances (symbol '=' *> require expected (read literal)) :=
  advances_bind (advances_pass fun _ _ => Cursor.reaches_of_symbol) fun _ =>
    advances_require moves_literal.advances

theorem keeps_enumItem : K.Keeps .closed enumItem EnumItem.relabel := by
  refine keeps_identifier.thenCommits (fun name name' hname => ?_) (fun _ =>
    (commits_opt (advances_givenValue _)).andThen fun _ => commits_pure _) (by decide)
  refine ((keeps_symbol (by decide)).seqRight (keeps_literal.require _)).opt.andThen
    fun value value' hvalue => ?_
  refine tracks_pure ?_ _
  simp_all only [On, EnumItem.relabel]

theorem keeps_enumeration : KeepsSentence K enumeration Enumeration.relabel Enumeration.span := by
  refine tracksSentence _ ?_ ?_
  · iterate 5 refine .andThen fun _ => ?_
    exact buildsOver_pure fun _ => rfl
  refine keeps_access.thenSame fun access => ?_
  refine (keeps_keyword (by decide)).thenSame fun _ => ?_
  have hclose {α : Type} (value : α) : Demands (requireEnd .Enum >>= fun _ => pure value) :=
    (demands_requireEnd _).andThen fun _ => commits_pure value
  refine (keeps_requireName _).thenCommits (fun name name' hname => ?_)
    (fun _ => ((commits_memberLines moves_enumItem.yields _).demands fun _ => hclose _).toCommits)
    (by decide)
  refine (keeps_memberLines keeps_enumItem moves_enumItem.yields).thenFails
    (fun items items' hitems => ?_) (fun _ => hclose _) (by decide)
  refine (keeps_requireEnd (by decide)).thenSame fun _ => ?_
  refine tracks_pure (fun span place hspan => ?_) _
  simp_all only [On, Enumeration.relabel]

/-! ## Parameters and heads -/

theorem keeps_parameter : K.Keeps .closed parameter Parameter.relabel := by
  have hdeclared (isCommitted : Bool) :
      K.Keeps .closed (if isCommitted then require (.part "parameter name") declaredVariable
        else declaredVariable) Variable.relabel := by
    cases isCommitted
    · exact keeps_declaredVariable
    · exact keeps_declaredVariable.require _
  refine Tracks.within ?_ _
  refine (keeps_keyword (by decide)).flag.thenSame fun isOptional => ?_
  refine (keeps_oneOf (by decide)).optPlain.thenSame fun passing => ?_
  refine (keeps_keyword (by decide)).flag.thenSame fun isParamArray => ?_
  refine (hdeclared _).thenCommits (fun declared declared' h => ?_) (fun _ =>
    (commits_opt (advances_givenValue _)).andThen fun _ => commits_pure _) (by decide)
  refine ((keeps_symbol (by decide)).seqRight (keeps_literal.require _)).opt.andThen
    fun value value' hvalue => ?_
  refine tracks_pure ?_ _
  simp_all only [On, Parameter.relabel]

theorem keeps_parameters :
    K.Keeps .closed parameters fun r values => values.map (Parameter.relabel r) :=
  keeps_parameter.separated (keeps_parameter.require _) rfl yields_parameter.require.advances

/-- A list that may be missing is empty then. -/
theorem map_getD_nil {α : Type} {f f' : α → α} {found other : Option (List α)}
    (h : found.map (List.map f) = other.map (List.map f')) :
    (found.getD []).map f = (other.getD []).map f' := by
  cases found <;> cases other <;> simp_all

theorem keeps_parameterList :
    K.Keeps .closed parameterList fun r values => values.map (Parameter.relabel r) := by
  refine (keeps_symbol (by decide)).thenSame fun _ => ?_
  refine keeps_parameters.opt.thenCommits (fun found found' h => ?_) (fun _ =>
    (commits_requireSymbol _).andThen fun _ => commits_pure _) (by decide)
  refine (keeps_requireSymbol (by decide)).thenSame fun _ => ?_
  refine tracks_pure ?_ _
  exact map_getD_nil h

theorem keeps_procedureParameters :
    K.Keeps .closed procedureParameters fun r values => values.map (Parameter.relabel r) :=
  keeps_parameterList.opt.last fun _ _ h => map_getD_nil h

theorem keeps_returnType (isTyped : Prop) [Decidable isTyped] :
    K.Keeps .closed (if isTyped then after .As typeName else pure none)
      fun r found => found.map r.text := by
  split
  · exact keeps_typeName.after (by decide)
  · exact keeps_pure rfl _

theorem commits_procedureParameters : Commits procedureParameters :=
  (commits_opt yields_parameterList.advances).andThen fun _ => commits_pure _

theorem commits_returnType (isTyped : Prop) [Decidable isTyped] :
    Commits (if isTyped then after .As typeName else pure none) := by
  split
  · exact commits_after moves_typeName.advances _
  · exact commits_pure none

theorem keeps_externalProcedure :
    KeepsSentence K externalProcedure Declaration.relabel Declaration.span := by
  refine tracksSentence _ ?_ ?_
  · iterate 9 refine .andThen fun _ => ?_
    exact buildsOver_pure fun span => by split <;> rfl
  refine keeps_access.thenSame fun access => ?_
  refine (keeps_keyword (by decide)).thenSame fun _ => ?_
  refine ((keeps_oneOf (by decide)).require _).thenSame fun isFunction => ?_
  have htype {α : Type} (f : Option String → α) :
      Commits ((if isFunction then after .As typeName else pure none) >>=
        fun type => pure (f type)) :=
    (commits_returnType _).andThen fun _ => commits_pure _
  refine (keeps_requireName _).thenCommits (fun name name' hname => ?_) (fun _ =>
    (commits_requireKeyword _).andThen fun _ => (commits_requireQuoted _).andThen fun _ =>
      (commits_after (commits_requireQuoted _).advances _).andThen fun _ =>
        commits_procedureParameters.andThen fun _ => htype _) (by decide)
  refine (keeps_requireKeyword (by decide)).thenSame fun _ => ?_
  refine (keeps_requireQuoted _).andThen fun library library' hlibrary => ?_
  refine ((keeps_requireQuoted _).after (by decide)).andThen fun entryPoint entryPoint' hentry => ?_
  refine keeps_procedureParameters.thenCommits (fun parameters parameters' hparameters => ?_)
    (fun _ => htype _) (by decide)
  refine (keeps_returnType _).last fun type type' htype =>
    fun span place hspan => ?_
  cases isFunction <;>
    simp_all [On, Declaration.relabel, External.relabel, ExternalFunction.relabel]

theorem keeps_plainHead (construct : Construct) {k : Keyword} (hk : k ≠ .Rem) (part : String) :
    KeepsSentence K (plainHead construct k part) Head.relabel Head.span := by
  refine tracksSentence _ ?_ ?_
  · iterate 4 refine .andThen fun _ => ?_
    exact buildsOver_pure fun _ => rfl
  refine keeps_access.thenSame fun access => ?_
  refine (keeps_keyword hk).thenSame fun _ => ?_
  refine (keeps_requireName _).thenCommits (fun name name' hname => ?_) (fun _ =>
    commits_procedureParameters.andThen fun _ => commits_pure _) (by decide)
  refine keeps_procedureParameters.last fun parameters parameters' hparameters =>
    fun span place hspan => ?_
  simp_all only [On, Head.relabel]

theorem keeps_declaration : K.Keeps .ends declaration Declaration.relabel := by
  refine Tracks.orElse (keeps_constantGroup.tracks.map
    fun _ _ => congrArg Declaration.constantGroup) ?_
  refine Tracks.orElse (keeps_enumeration.tracks.map fun _ _ => congrArg Declaration.enumeration) ?_
  refine Tracks.orElse (keeps_record.tracks.map fun _ _ => congrArg Declaration.record) ?_
  refine Tracks.orElse keeps_externalProcedure.tracks ?_
  refine Tracks.orElse ((keeps_plainHead _ (by decide) _).tracks.map fun _ _ =>
    congrArg Declaration.event) ?_
  refine Tracks.orElse (keeps_variableGroup.tracks.map fun _ _ =>
    congrArg Declaration.variableGroup) ?_
  exact tracks_unmatched _

end Grammar

end VisualBasic
