import VisualBasic.Grammar.Declaration
import VisualBasic.Proofs.WellFormed.Expression

/-!
# Well-formed declarations

Each declaration is followed part by part; what its value is built of is what the parts gave.
-/

set_option autoImplicit false

namespace VisualBasic

namespace Grammar

open Parse

theorem gives_literal : Gives (read literal) Literal.WellFormed := literal_wellFormed.gives

theorem gives_requireQuoted (part : String) : Gives (requireQuoted part) IsUnbroken :=
  (gives_read Cursor.isUnbroken_of_quoted).require

theorem gives_comment : Gives (read comment) Comment.WellFormed := by
  apply gives_read
  intro c note after h
  obtain ⟨⟨content, stop⟩, hcontent, h⟩ := Option.bind_eq_some_iff.mp h
  obtain ⟨d, _, hnote⟩ := Option.map_eq_some_iff.mp h
  cases hnote
  exact Cursor.isUnbroken_of_comment hcontent

theorem gives_access : Gives access fun written => written ≠ .Dim := by
  have htable : Gives (oneOf accessKeywords) fun written => written ≠ .Dim :=
    gives_oneOf (by decide)
  refine htable.opt.andThen fun written hwritten => ensures_pure ?_
  cases written with
  | none => exact fun h => by contradiction
  | some written => exact hwritten written rfl

/-! ## Variables -/

theorem gives_typeName : Gives typeName IsDottedName := by
  refine (gives_requireName _).andThen fun first hfirst => ?_
  refine (gives_any.seqRight (gives_requireName _)).opt.andThen
    fun member hmember => ensures_pure ?_
  cases member with
  | none => exact ⟨[first], by simp, by simp [String.intercalate_singleton], by simpa using hfirst⟩
  | some second =>
    refine ⟨[first, second], by simp, ?_, by simpa using ⟨hfirst, hmember second rfl⟩⟩
    simp [String.intercalate_cons_cons, String.intercalate_singleton]

theorem gives_variableType : Gives variableType fun type => IsDottedName type.2 := by
  refine gives_any.andThen fun isNew _ => ?_
  exact (gives_typeName).andThen fun name hname => ensures_pure hname

theorem gives_declaredVariable : Gives declaredVariable Variable.WellFormed := by
  refine Ensures.within (Ensures.spanned ?_)
  refine gives_identifier.andThen fun name hname => ?_
  refine gives_any.andThen fun bounds _ => ?_
  refine (gives_variableType).after.andThen fun type htype => ensures_pure fun span => ?_
  cases type with
  | none => exact ⟨hname, by simp, by simp⟩
  | some type => exact ⟨hname, by simpa using htype, by simp⟩

theorem gives_declaredVariables {first : Parse Variable} (h : Gives first Variable.WellFormed) :
    Gives (declaredVariables first) fun members =>
      members ≠ [] ∧ ∀ declared ∈ members, declared.WellFormed :=
  h.separated (gives_declaredVariable).require

theorem gives_variableGroup : Gives variableGroup VariableGroup.WellFormed := by
  have htable : ∀ entry ∈ accessKeywords, entry.2 ≠ .Unwritten := by decide
  have haccess : Gives (orElse (oneOf accessKeywords) (keyword .Dim *> pure .Dim))
      fun written => written ≠ .Unwritten :=
    (gives_oneOf htable).orElse (gives_any.seqRight (ensures_pure (by decide)))
  refine Ensures.sentence (haccess.andThen fun access haccess => ?_)
  refine gives_any.andThen fun withEvents _ => ?_
  refine (gives_declaredVariables gives_declaredVariable).andThen fun members hmembers => ?_
  exact ensures_pure fun span => ⟨haccess, hmembers.1, hmembers.2⟩

theorem gives_constant : Gives constant Constant.WellFormed := by
  refine (gives_declaredVariable).require.andThen fun declared hdeclared => ?_
  refine gives_any.andThen fun _ _ => ?_
  refine (gives_literal).require.andThen fun value hvalue => ?_
  exact ensures_pure ⟨hdeclared, hvalue⟩

theorem gives_constantGroup : Gives constantGroup ConstantGroup.WellFormed := by
  refine Ensures.sentence ((gives_access).andThen fun access haccess => ?_)
  refine gives_any.andThen fun _ _ => ?_
  refine ((gives_constant).separated gives_constant).andThen fun constants hconstants => ?_
  exact ensures_pure fun span => ⟨haccess, hconstants.1, hconstants.2⟩

/-! ## Records and enumerations -/

/-- Without a member there is a failure, so a list of members is never empty. -/
theorem gives_memberLines {α : Type} {member : Parse α} {Q : α → Prop} {expected : Expected}
    (h : Gives member Q) : Gives (memberLines member expected) fun members =>
      members ≠ [] ∧ ∀ value ∈ members, Q value := by
  refine gives_any.andThen fun _ _ => ?_
  refine gives_any.andThen fun _ _ => ?_
  have hline : Gives (do
      let value ← member
      requireTerminator
      skipTrivia
      return value) Q := by
    refine h.andThen fun value hvalue => ?_
    refine gives_any.andThen fun _ _ => ?_
    exact gives_any.andThen fun _ _ => ensures_pure hvalue
  refine hline.many.andThen fun members hmembers => ?_
  split
  · exact ensures_fail
  · rename_i hne
    exact ensures_pure ⟨by simpa using hne, hmembers⟩

theorem gives_record : Gives record Record.WellFormed := by
  refine Ensures.sentence ((gives_access).andThen fun access haccess => ?_)
  refine gives_any.andThen fun _ _ => ?_
  refine (gives_requireName _).andThen fun name hname => ?_
  refine (gives_memberLines gives_declaredVariable).andThen fun members hmembers => ?_
  refine gives_any.andThen fun _ _ => ?_
  exact ensures_pure fun span => ⟨haccess, hname, hmembers.1, hmembers.2⟩

theorem gives_optValue (part : String) : Gives
    (opt (symbol '=' *> require (.part part) (read literal)))
    fun found => ∀ value ∈ found, value.WellFormed :=
  (gives_any.seqRight (gives_literal).require).opt

theorem gives_enumItem : Gives enumItem EnumItem.WellFormed := by
  refine gives_identifier.andThen fun name hname => ?_
  refine (gives_optValue _).andThen fun value hvalue => ?_
  exact ensures_pure ⟨hname, hvalue⟩

theorem gives_enumeration : Gives enumeration Enumeration.WellFormed := by
  refine Ensures.sentence ((gives_access).andThen fun access haccess => ?_)
  refine gives_any.andThen fun _ _ => ?_
  refine (gives_requireName _).andThen fun name hname => ?_
  refine (gives_memberLines gives_enumItem).andThen fun items hitems => ?_
  refine gives_any.andThen fun _ _ => ?_
  exact ensures_pure fun span => ⟨haccess, hname, hitems.1, hitems.2⟩

/-! ## Parameters and heads -/

theorem gives_parameter : Gives parameter Parameter.WellFormed := by
  refine Ensures.within (gives_any.andThen fun isOptional _ => ?_)
  refine gives_any.andThen fun passing _ => ?_
  refine gives_any.andThen fun isParamArray _ => ?_
  have hdeclared (isCommitted : Bool) :
      Gives (if isCommitted then require (.part "parameter name") declaredVariable
        else declaredVariable) Variable.WellFormed := by
    split
    · exact (gives_declaredVariable).require
    · exact gives_declaredVariable
  refine (hdeclared _).andThen fun declared hdeclared => ?_
  refine (gives_optValue _).andThen fun default hdefault => ?_
  exact ensures_pure ⟨hdeclared, hdefault⟩

theorem gives_procedureParameters : Gives procedureParameters fun parameters =>
    ∀ parameter ∈ parameters, parameter.WellFormed := by
  have hlist : Gives parameterList fun parameters =>
      ∀ parameter ∈ parameters, parameter.WellFormed := by
    refine gives_any.andThen fun _ _ => ?_
    refine ((gives_parameter).separated (gives_parameter).require).opt.andThen
      fun found hfound => ?_
    refine gives_any.andThen fun _ _ => ensures_pure ?_
    cases found with
    | none => simp
    | some parameters => exact (hfound parameters rfl).2
  refine hlist.opt.andThen fun found hfound => ensures_pure ?_
  cases found with
  | none => simp
  | some parameters => exact hfound parameters rfl

theorem gives_returnType (isTyped : Bool) :
    Gives (if isTyped then after .As typeName else pure none) fun found =>
      ∀ name ∈ found, IsDottedName name := by
  split
  · exact (gives_typeName).after
  · exact ensures_pure (by simp)

theorem gives_externalProcedure : Gives externalProcedure Declaration.WellFormed := by
  refine Ensures.sentence ((gives_access).andThen fun access haccess => ?_)
  refine gives_any.andThen fun _ _ => ?_
  refine gives_any.andThen fun isFunction _ => ?_
  refine (gives_requireName _).andThen fun name hname => ?_
  refine gives_any.andThen fun _ _ => ?_
  refine (gives_requireQuoted _).andThen fun library hlibrary => ?_
  refine (gives_requireQuoted _).after.andThen fun entryPoint hentryPoint => ?_
  refine (gives_procedureParameters).andThen fun parameters hparameters => ?_
  refine (gives_returnType _).andThen fun returnType hreturnType => ensures_pure fun span => ?_
  have hcommon : External.WellFormed ⟨access, name, library, entryPoint, parameters, span⟩ :=
    ⟨haccess, hname, hlibrary, hentryPoint, hparameters⟩
  cases isFunction with
  | true => exact ⟨hcommon, hreturnType⟩
  | false => exact hcommon

theorem gives_plainHead (construct : Construct) (k : Keyword) (part : String) :
    Gives (plainHead construct k part) Head.WellFormed := by
  refine Ensures.sentence ((gives_access).andThen fun access haccess => ?_)
  refine gives_any.andThen fun _ _ => ?_
  refine (gives_requireName _).andThen fun name hname => ?_
  refine (gives_procedureParameters).andThen fun parameters hparameters => ?_
  exact ensures_pure fun span => ⟨haccess, hname, hparameters⟩

theorem gives_declaration : Gives declaration Declaration.WellFormed := by
  apply ensures_firstOf
  intro p hp
  simp only [List.mem_cons, List.not_mem_nil, or_false] at hp
  rcases hp with rfl | rfl | rfl | rfl | rfl | rfl
  · exact (gives_constantGroup).map fun _ h => h
  · exact (gives_enumeration).map fun _ h => h
  · exact (gives_record).map fun _ h => h
  · exact gives_externalProcedure
  · exact (gives_plainHead _ _ _).map fun _ h => h
  · exact (gives_variableGroup).map fun _ h => h

end Grammar

end VisualBasic
