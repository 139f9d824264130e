import VisualBasic.Proofs.Routine.Agreement
import VisualBasic.Proofs.WellFormed.Statement

/-!
# Well-formed modules

Every tree that `parseModule` returns is well formed, from its items down to the last name.
-/

set_option autoImplicit false

namespace VisualBasic

namespace Grammar

open Parse

/-! ## Procedures -/

theorem gives_functionHead : Gives functionHead FunctionHead.WellFormed := by
  refine Ensures.sentence (gives_access.andThen fun access haccess => ?_)
  refine gives_any.andThen fun _ _ => ?_
  refine (gives_requireName _).andThen fun name hname => ?_
  refine gives_procedureParameters.andThen fun parameters hparameters => ?_
  refine gives_typeName.after.andThen fun returnType hreturnType => ?_
  exact ensures_pure fun span => ⟨⟨haccess, hname, hparameters⟩, hreturnType⟩

theorem gives_propertyHead : Gives propertyHead PropertyHead.WellFormed := by
  refine Ensures.sentence (gives_access.andThen fun access haccess => ?_)
  refine gives_any.andThen fun _ _ => ?_
  refine gives_any.andThen fun kind _ => ?_
  refine (gives_requireName _).andThen fun name hname => ?_
  refine gives_procedureParameters.andThen fun parameters hparameters => ?_
  have hreturnType : Gives (if kind = .getter then after .As typeName else pure none)
      fun found => ∀ name ∈ found, IsDottedName name := by
    split
    · exact gives_typeName.after
    · exact ensures_pure (by simp)
  refine hreturnType.andThen fun found hfound => ensures_pure fun span => ?_
  have hhead : Head.WellFormed ⟨access, name, parameters, span⟩ := ⟨haccess, hname, hparameters⟩
  cases kind with
  | letter => exact hhead
  | setter => exact hhead
  | getter => exact ⟨hhead, hfound⟩

theorem gives_definition {η : Type} {construct : Construct} {head : Parse η} {k : Keyword}
    {P : η → Prop} (h : Gives head P) :
    Gives (definition construct head k) (Definition.WellFormed P) := by
  refine Ensures.sentence (h.andThen fun head hhead => ?_)
  refine gives_block.andThen fun body hbody => ?_
  refine gives_any.andThen fun _ _ => ?_
  exact ensures_pure fun span => ⟨hhead, hbody⟩

/-! ## Attributes -/

theorem gives_attributeName : Gives attributeName IsDottedName := by
  refine (gives_requireName _).andThen fun first hfirst => ?_
  refine (gives_any.seqRight (gives_requireName _)).many.andThen fun rest hrest => ensures_pure ?_
  refine ⟨first :: rest, by simp, rfl, ?_⟩
  intro part hpart
  rcases List.mem_cons.mp hpart with rfl | hpart
  · exact hfirst
  · exact hrest part hpart

theorem isUnbroken_of_keyword {k : Keyword} {c d : Cursor} (hc : c.skipBlanks = c)
    (h : c.keyword k = some d) : IsUnbroken (c.textTo d) := by
  rw [Cursor.keyword_eq, hc] at h
  split at h
  · rename_i hspells
    cases h
    apply Cursor.isUnbroken_textTo_skip
    intro char hchar
    obtain ⟨_, hsame⟩ := startsWithLetters_iff.mp (spells_iff.mp hspells).1
    have halpha := isAlpha_of_sameLetters hsame (fun a ha => k.isAlpha_of_mem_letters ha) char hchar
    exact isBreak_eq_false_of_isInk (isInk_of_isAlphanum (by simp [Char.isAlphanum, halpha]))
  · contradiction

theorem isUnbroken_of_number {c d : Cursor} {value : Literal} (hc : c.skipBlanks = c)
    (h : c.number = some (value, d)) : IsUnbroken (c.textTo d) := by
  simp only [Cursor.number, hc] at h
  obtain ⟨found, hfound, h⟩ := Option.bind_eq_some_iff.mp h
  split at h
  · contradiction
  · cases h
    apply Cursor.isUnbroken_textTo_skip
    intro char hchar
    exact isBreak_eq_false_of_isInk ((inked_of_readNumber hfound).2.1 char hchar)

/-- The text of a literal that is no string. -/
theorem isUnbroken_of_literal {c d : Cursor} {value : Literal} (hc : c.skipBlanks = c)
    (hquoted : c.quoted = none) (h : literal c = some (value, d)) : IsUnbroken (c.textTo d) := by
  simp only [literal, hquoted, Option.map_none, Option.or_none, Option.or_eq_some_iff,
    Option.map_eq_some_iff] at h
  rcases h with ((h | ⟨_, found, h, hvalue⟩) | ⟨_, found, h, hvalue⟩) | ⟨_, found, h, hvalue⟩
  · exact isUnbroken_of_number hc h
  all_goals
    cases hvalue
    exact isUnbroken_of_keyword hc h

theorem gives_attributeValue : Gives attributeValue IsUnbroken := by
  intro inside c value after _ hm
  obtain ⟨start, d, hstart, hm⟩ := matched_bind hm
  cases hstart
  refine ⟨trivial, ?_⟩
  unfold orElse at hm
  split at hm
  · rename_i hunmatched
    have hquoted : c.skipBlanks.quoted = none := by
      unfold Parse.read at hunmatched
      split at hunmatched
      · contradiction
      · assumption
    obtain ⟨found, e, hfound, hm⟩ := matched_bind hm
    obtain ⟨stop, f, hstop, hm⟩ := matched_bind hm
    cases hstop
    cases hm
    unfold require orElse at hfound
    split at hfound
    · contradiction
    · unfold Parse.read at hfound
      split at hfound
      · cases hfound
        exact isUnbroken_of_literal (Cursor.skipBlanks_skipBlanks c) hquoted ‹_›
      · contradiction
  · exact (gives_read Cursor.isUnbroken_of_quoted inside c.skipBlanks value after trivial hm).2

theorem gives_attributeLine : Gives attributeLine Attribute.WellFormed := by
  refine Ensures.sentence (gives_any.andThen fun _ _ => ?_)
  refine gives_attributeName.andThen fun name hname => ?_
  refine gives_any.andThen fun _ _ => ?_
  refine gives_attributeValue.andThen fun value hvalue => ?_
  exact ensures_pure fun span => ⟨hname, hvalue⟩

/-! ## Items -/

theorem gives_item : Gives item Item.WellFormed := by
  apply ensures_firstOf
  intro p hp
  simp only [List.mem_cons, List.not_mem_nil, or_false] at hp
  rcases hp with rfl | rfl | rfl | rfl | rfl | rfl | rfl | rfl
  · exact gives_comment.map fun _ h => h
  · exact gives_any.map fun _ _ => trivial
  · exact gives_attributeLine.map fun _ h => h
  · exact gives_any.map fun _ _ => trivial
  · exact gives_declaration.map fun _ h => h
  · exact (gives_definition (gives_plainHead _ _ _)).map fun _ h => h
  · exact (gives_definition gives_functionHead).map fun _ h => h
  · exact (gives_definition gives_propertyHead).map fun _ h => h

theorem gives_module : Gives module Module.WellFormed := by
  refine gives_item.many.andThen fun items hitems => ?_
  exact gives_any.andThen fun _ _ => ensures_pure hitems

end Grammar

theorem wellFormed_of_parseModule {source : String} {settings : Settings} {tree : Module}
    (h : parseModule source settings = .ok tree) : tree.WellFormed := by
  rw [parseModule_eq] at h
  split at h
  · rename_i tree after hm
    cases h
    exact (Grammar.gives_module [] _ tree after trivial hm).2
  · cases h
    simp [Module.WellFormed]
  · contradiction

/-- An array, a dotted type, a member of the target of a `With` block and a quote in a string. -/
theorem wellFormed_of_procedure :
    ∃ tree,
    parseModule "Dim a(3) As Lib.Kind\nSub F(c)\nWith a(c).b\n.Put \"q\"\"\"\nEnd With\nEnd Sub"
        Settings.standard = .ok tree ∧ tree.items.length = 2 ∧ tree.WellFormed := by
  have h : (parseModule
      "Dim a(3) As Lib.Kind\nSub F(c)\nWith a(c).b\n.Put \"q\"\"\"\nEnd With\nEnd Sub"
      Settings.standard).toOption.map (fun tree => tree.items.length) = some 2 := by
    decide +kernel
  obtain ⟨tree, htree, hlength⟩ := Option.map_eq_some_iff.mp h
  have hparse := Grammar.eq_ok_of_toOption htree
  exact ⟨tree, hparse, hlength, wellFormed_of_parseModule hparse⟩

end VisualBasic
