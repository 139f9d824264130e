import VisualBasic.Proofs.Correspondence.Joining
import VisualBasic.Proofs.Gap.Statement

/-!
# Gaps of a module

Between the spans of a parsed module, and between those of the statements of each block, nothing is
skipped but blanks, line continuations and one terminator at most.
-/

set_option autoImplicit false

namespace VisualBasic

namespace Grammar

open Cursor (Reaches Stopped)
open Parse

variable {origin : Cursor}

/-! ## Declarations -/

theorem frames_variableGroup : Frames origin variableGroup VariableGroup.span fun _ => True := by
  have haccess : Moves (orElse (oneOf accessKeywords) (keyword .Dim *> pure .Dim)) Cursor.Token :=
    ((moves_oneOf _).yields.orElse ((moves_keyword _).seqRight (yields_pure _))).moves
  refine frames_sentence concludes_variableGroup ?_
  refine haccess.advances.ensures.andThen fun _ _ => ?_
  refine (moves_keyword _).flag.advances.ensures.andThen fun _ _ => ?_
  refine (yields_declaredVariables yields_declaredVariable).advances.ensures.andThen fun _ _ => ?_
  exact ensures_pure fun _ => ⟨rfl, ⟨_, rfl⟩, trivial⟩

theorem frames_constantGroup : Frames origin constantGroup ConstantGroup.span fun _ => True := by
  refine frames_sentence concludes_constantGroup ?_
  refine moves_access.advances.ensures.andThen fun _ _ => ?_
  refine (moves_keyword _).advances.ensures.andThen fun _ _ => ?_
  refine (yields_constant.separated yields_constant).advances.ensures.andThen fun _ _ => ?_
  exact ensures_pure fun _ => ⟨rfl, ⟨_, rfl⟩, trivial⟩

theorem frames_record : Frames origin record Record.span fun _ => True := by
  refine frames_sentence concludes_record ?_
  refine moves_access.advances.ensures.andThen fun _ _ => ?_
  refine (moves_keyword _).advances.ensures.andThen fun _ _ => ?_
  refine (moves_requireName _).advances.ensures.andThen fun _ _ => ?_
  refine (yields_memberLines yields_declaredVariable).advances.ensures.andThen fun _ _ => ?_
  refine (moves_requireEnd _).advances.ensures.andThen fun _ _ => ?_
  exact ensures_pure fun _ => ⟨rfl, ⟨_, rfl⟩, trivial⟩

theorem frames_enumeration : Frames origin enumeration Enumeration.span fun _ => True := by
  refine frames_sentence concludes_enumeration ?_
  refine moves_access.advances.ensures.andThen fun _ _ => ?_
  refine (moves_keyword _).advances.ensures.andThen fun _ _ => ?_
  refine (moves_requireName _).advances.ensures.andThen fun _ _ => ?_
  refine (yields_memberLines moves_enumItem.yields).advances.ensures.andThen fun _ _ => ?_
  refine (moves_requireEnd _).advances.ensures.andThen fun _ _ => ?_
  exact ensures_pure fun _ => ⟨rfl, ⟨_, rfl⟩, trivial⟩

theorem frames_externalProcedure :
    Frames origin externalProcedure Declaration.span fun _ => True := by
  refine frames_sentence concludes_externalProcedure ?_
  refine moves_access.advances.ensures.andThen fun _ _ => ?_
  refine (moves_keyword _).advances.ensures.andThen fun _ _ => ?_
  refine (moves_oneOf _).require.advances.ensures.andThen fun isFunction _ => ?_
  refine (moves_requireName _).advances.ensures.andThen fun _ _ => ?_
  refine (moves_requireKeyword _).advances.ensures.andThen fun _ _ => ?_
  refine (moves_requireQuoted _).advances.ensures.andThen fun _ _ => ?_
  refine (moves_requireQuoted _).after.advances.ensures.andThen fun _ _ => ?_
  refine yields_procedureParameters.advances.ensures.andThen fun _ _ => ?_
  refine (moves_returnType _).advances.ensures.andThen fun _ _ => ?_
  cases isFunction with
  | true => exact ensures_pure fun _ => ⟨rfl, ⟨_, rfl⟩, trivial⟩
  | false => exact ensures_pure fun _ => ⟨rfl, ⟨_, rfl⟩, trivial⟩

theorem frames_plainHead (construct : Construct) (k : Keyword) (part : String) :
    Frames origin (plainHead construct k part) Head.span fun _ => True := by
  refine frames_sentence (concludes_plainHead construct k part) ?_
  refine moves_access.advances.ensures.andThen fun _ _ => ?_
  refine (moves_keyword _).advances.ensures.andThen fun _ _ => ?_
  refine (moves_requireName _).advances.ensures.andThen fun _ _ => ?_
  refine yields_procedureParameters.advances.ensures.andThen fun _ _ => ?_
  exact ensures_pure fun _ => ⟨rfl, ⟨_, rfl⟩, trivial⟩

theorem frames_functionHead : Frames origin functionHead (fun head => head.span) fun _ => True := by
  refine frames_sentence concludes_functionHead ?_
  refine moves_access.advances.ensures.andThen fun _ _ => ?_
  refine (moves_keyword _).advances.ensures.andThen fun _ _ => ?_
  refine (moves_requireName _).advances.ensures.andThen fun _ _ => ?_
  refine yields_procedureParameters.advances.ensures.andThen fun _ _ => ?_
  refine moves_typeName.after.advances.ensures.andThen fun _ _ => ?_
  exact ensures_pure fun _ => ⟨rfl, ⟨_, rfl⟩, trivial⟩

theorem frames_propertyHead :
    Frames origin propertyHead (fun head => head.head.span) fun _ => True := by
  refine frames_sentence concludes_propertyHead ?_
  refine moves_access.advances.ensures.andThen fun _ _ => ?_
  refine (moves_keyword _).advances.ensures.andThen fun _ _ => ?_
  refine (moves_oneOf _).require.advances.ensures.andThen fun kind _ => ?_
  refine (moves_requireName _).advances.ensures.andThen fun _ _ => ?_
  refine yields_procedureParameters.advances.ensures.andThen fun _ _ => ?_
  refine (moves_returnType _).advances.ensures.andThen fun _ _ => ?_
  exact ensures_pure fun _ => by cases kind <;> exact ⟨rfl, ⟨_, rfl⟩, trivial⟩

theorem frames_declaration : Frames origin declaration Declaration.span fun _ => True := by
  apply frames_firstOf
  intro p hp
  simp only [List.mem_cons, List.not_mem_nil, or_false] at hp
  rcases hp with rfl | rfl | rfl | rfl | rfl | rfl
  · exact frames_constantGroup.map (fun _ => rfl) fun _ h => h
  · exact frames_enumeration.map (fun _ => rfl) fun _ h => h
  · exact frames_record.map (fun _ => rfl) fun _ h => h
  · exact frames_externalProcedure
  · exact (frames_plainHead _ _ _).map (fun _ => rfl) fun _ h => h
  · exact frames_variableGroup.map (fun _ => rfl) fun _ h => h

/-! ## Items -/

theorem frames_attributeLine : Frames origin attributeLine Attribute.span fun _ => True := by
  refine frames_sentence concludes_attributeLine ?_
  refine (moves_keyword _).advances.ensures.andThen fun _ _ => ?_
  refine moves_attributeName.advances.ensures.andThen fun _ _ => ?_
  refine (begins_requireSymbol (by decide)).advances.ensures.andThen fun _ _ => ?_
  refine moves_attributeValue.advances.ensures.andThen fun _ _ => ?_
  exact ensures_pure fun _ => ⟨rfl, ⟨_, rfl⟩, trivial⟩

theorem frames_optionLine : Frames origin optionLine OptionLine.span fun _ => True := by
  refine frames_sentence concludes_optionLine ?_
  refine (moves_keyword _).advances.ensures.andThen fun _ _ => ?_
  refine moves_moduleOption.require.advances.ensures.andThen fun _ _ => ?_
  exact ensures_pure fun _ => ⟨rfl, ⟨_, rfl⟩, trivial⟩

theorem frames_definition {η : Type} {construct : Construct} {head : Parse η} {k : Keyword}
    {view : η → List Region} {span : η → Span} (hview : Yields head Cursor.Opened view)
    (hhead : Frames origin head span fun _ => True) :
    Frames origin (definition construct head k) Definition.span
      fun found => AllReadFrom origin found.body := by
  refine frames_sentence (concludes_definition hview) ?_
  refine Ensures.opened (fun inside c value after hc hm => ?_) readFrom_block fun _ body hbody => ?_
  · exact (hhead inside c value after hc hm).1
  · refine (moves_requireEnd _).advances.ensures.andThen fun _ _ => ?_
    exact ensures_pure fun _ => ⟨rfl, ⟨_, rfl⟩, hbody⟩

theorem frames_item :
    Frames origin item Item.span fun found => ∀ b ∈ found.blocks, ReadFrom origin b := by
  have plain {α : Type} {p : Parse α} {span : α → Span} {f : α → Item}
      (h : Frames origin p span fun _ => True) (hspan : ∀ value, (f value).span = span value)
      (hf : ∀ value, (f value).blocks = []) :
      Frames origin (f <$> p) Item.span fun found => ∀ b ∈ found.blocks, ReadFrom origin b :=
    h.map hspan fun value _ => by simp [hf]
  apply frames_firstOf
  intro p hp
  simp only [List.mem_cons, List.not_mem_nil, or_false] at hp
  rcases hp with rfl | rfl | rfl | rfl | rfl | rfl | rfl | rfl
  · exact plain frames_comment (fun _ => rfl) fun _ => rfl
  · exact plain frames_emptyLine (fun _ => rfl) fun _ => rfl
  · exact plain frames_attributeLine (fun _ => rfl) fun _ => rfl
  · exact plain frames_optionLine (fun _ => rfl) fun _ => rfl
  · exact plain frames_declaration (fun _ => rfl) fun _ => rfl
  · exact (frames_definition (concludes_plainHead _ _ _).yields (frames_plainHead _ _ _)).map
      (fun _ => rfl)
      fun _ h => h
  · exact (frames_definition concludes_functionHead.yields frames_functionHead).map (fun _ => rfl)
      fun _ h => h
  · exact (frames_definition concludes_propertyHead.yields frames_propertyHead).map (fun _ => rfl)
      fun _ h => h

/-! ## Modules -/

/-- A module is a run of items from the start of the source, with only blanks after it. -/
theorem runs_of_module {inside : List Construct} {c after : Cursor} {tree : Module}
    (h : module inside c = .matched tree after) :
    ∃ d, Runs item inside c tree.items d ∧ d.skipBlanks.rest = [] := by
  obtain ⟨items, d, hitems, h⟩ := matched_bind h
  obtain ⟨_, e, hend, h⟩ := matched_bind h
  cases h
  refine ⟨d, runs_of_many hitems, ?_⟩
  unfold advise at hend
  split at hend
  · contradiction
  · unfold requireEndOfSource at hend
    split at hend
    · exact List.isEmpty_iff.mp ‹_›
    · contradiction

theorem readFrom_of_mem_blocks {tree : Module} {inside : List Construct} {after : Cursor}
    (h : module inside origin = .matched tree after) {body : List Statement}
    (hbody : body ∈ tree.blocks) : ReadFrom origin body := by
  obtain ⟨items, d, hitems, h⟩ := matched_bind h
  obtain ⟨_, e, _, h⟩ := matched_bind h
  cases h
  obtain ⟨_, hread⟩ := frames_item.ensures.many inside origin items d (Reaches.refl _) hitems
  obtain ⟨found, hfound, hbody⟩ := List.mem_flatMap.mp hbody
  exact hread found hfound body hbody

theorem exists_run_of_mem_blocks {tree : Module} {inside : List Construct} {after : Cursor}
    (h : module inside origin = .matched tree after) {body : List Statement}
    (hbody : body ∈ tree.blocks) :
    ∃ inner c d, Reaches origin c ∧ Runs statement inner c body d := by
  obtain ⟨inner, c, d, hc, hrun⟩ := readFrom_of_mem_blocks h hbody
  exact ⟨inner, c, d, hc.reaches, hrun⟩

end Grammar

theorem matched_of_parseModule {source : String} {settings : Settings} {tree : Module}
    (h : parseModule source settings = .ok tree) :
    ∃ after, Grammar.module [] (Cursor.start source.toList) = .matched tree after := by
  rw [parseModule_eq] at h
  split at h
  · cases h
    exact ⟨_, ‹_›⟩
  · exact absurd ‹_› (Grammar.module_ne_unmatched _ _)
  · contradiction

/-- From one span to the next there is only a gap: before the first item, between the items, after
the last one, and between the statements of every block. -/
theorem gaps_of_parseModule {source : String} {settings : Settings} {tree : Module}
    (h : parseModule source settings = .ok tree) :
    List.IsChain (Adjoins source) (⟨0, 0⟩ :: (tree.items.map Item.span ++
      [⟨byteLength source.toList, byteLength source.toList⟩])) ∧
    ∀ body ∈ tree.blocks, List.IsChain (Adjoins source) (body.map Statement.span) := by
  obtain ⟨after, hm⟩ := matched_of_parseModule h
  constructor
  · obtain ⟨d, hitems, hend⟩ := Grammar.runs_of_module hm
    have hfresh : (Cursor.start source.toList).Fresh := fun hblank => by contradiction
    refine hitems.isChain Grammar.frames_item (fun s last hs hlast hclose => ?_) ⟨0, 0⟩ _ rfl
      (Cursor.Reaches.refl _) hfresh.closes
    have hover := hclose.over_skipBlanks
    obtain ⟨before, hsource, hoffset⟩ := (hlast.trans hover.reaches).eq_append
    rw [hend, List.append_nil] at hsource
    exact .cons_cons (adjoins_of_over hlast hover hs (by rw [hoffset, hsource])) (.singleton _)
  · intro body hbody
    obtain ⟨inside, c, d, hc, hrun⟩ := Grammar.exists_run_of_mem_blocks hm hbody
    cases hrun with
    | nil => exact .nil
    | @cons _ middle _ line rest hfirst hrest =>
      obtain ⟨_, ⟨first, last, hspan, _, hlast, hclose⟩, _⟩ :=
        Grammar.frames_statement _ _ _ _ hc hfirst
      have hchain : List.IsChain (Adjoins source)
          (line.span :: (rest.map Statement.span ++ [])) :=
        hrest.isChain Grammar.frames_statement (fun s _ _ _ _ => .singleton s) line.span last
          (by rw [hspan]; rfl) (hc.trans hlast) hclose
      simpa using hchain

/-- A comment after a statement, a colon, a line continuation and a label, with blanks around
them. -/
theorem gaps_of_procedure :
    ∃ tree, parseModule " Sub F()\n a: x = 1 : g _\n : h ' one\n\nEnd Sub ' two" Settings.standard =
        .ok tree ∧
      tree.items.length = 1 ∧ tree.blocks.map List.length = [5] ∧
      List.IsChain (Adjoins " Sub F()\n a: x = 1 : g _\n : h ' one\n\nEnd Sub ' two")
        (⟨0, 0⟩ :: (tree.items.map Item.span ++ [⟨50, 50⟩])) ∧
      ∀ body ∈ tree.blocks, List.IsChain
        (Adjoins " Sub F()\n a: x = 1 : g _\n : h ' one\n\nEnd Sub ' two")
        (body.map Statement.span) := by
  have h : (parseModule " Sub F()\n a: x = 1 : g _\n : h ' one\n\nEnd Sub ' two"
      Settings.standard).toOption.map
        (fun tree => (tree.items.length, tree.blocks.map List.length)) = some (1, [5]) := by
    decide +kernel
  obtain ⟨tree, htree, hlengths⟩ := Option.map_eq_some_iff.mp h
  have hparse := Grammar.eq_ok_of_toOption htree
  obtain ⟨hitems, hblocks⟩ := Prod.mk.inj hlengths
  exact ⟨tree, hparse, hitems, hblocks, gaps_of_parseModule hparse⟩

end VisualBasic
