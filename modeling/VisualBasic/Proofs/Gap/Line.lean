import VisualBasic.Proofs.Gap.Module

/-!
# Constructs on their lines

Every item, and every statement at any depth, is the first on its line or comes after a colon:
before its span there are only blanks, back to the start of the line, to the start of the source or
to a colon. Comments and empty lines are no exception. So a comment or the blank rest of a line
after code is part of the tree where a colon stands between them, and only there.
-/

set_option autoImplicit false

namespace VisualBasic

open Cursor (Opens)

theorem Framed.blankSince {source : String} {c after : Cursor} {span : Span}
    (h : Framed c span after) (hc : Opens source c) (hrest : c.rest ≠ []) :
    BlankSince isStop source span.start := by
  obtain ⟨first, last, rfl, hfirst, _⟩ := h
  obtain ⟨hplace, htoken⟩ := hc.blankSince hrest
  rcases hfirst with rfl | rfl
  · exact hplace
  · exact htoken

/-- Each part of a run leaves off where the next one may start. -/
theorem Parse.Runs.blankSince {α : Type} {source : String} {p : Parse α} {span : α → Span}
    {Q : α → Prop} {inside : List Construct} {c d : Cursor} {values : List α}
    (hp : Frames (Cursor.start source.toList) p span Q) (hmoves : Moves p Cursor.Ahead)
    (h : Runs p inside c values d) (hc : Opens source c)
    (hreach : Cursor.Reaches (Cursor.start source.toList) c) :
    ∀ value ∈ values, BlankSince isStop source (span value).start := by
  induction h with
  | nil => simp
  | @cons c middle _ value _ hfirst _ ih =>
    obtain ⟨hstopped, hframed, _⟩ := hp _ _ _ _ hreach hfirst
    have hrest : c.rest ≠ [] := by
      intro hnil
      have hlt := (hmoves _ _ _ _ hfirst).2
      simp [hnil] at hlt
    intro other hother
    rcases List.mem_cons.mp hother with rfl | hother
    · exact hframed.blankSince hc hrest
    · exact ih (.inr hstopped) hstopped.reaches other hother

/-- Before every item and every statement only blanks lie on the line, unless a colon comes
before. -/
theorem blankSince_of_parseModule {source : String} {settings : Settings} {tree : Module}
    (h : parseModule source settings = .ok tree) :
    (∀ found ∈ tree.items, BlankSince isStop source found.span.start) ∧
      ∀ body ∈ tree.blocks, ∀ line ∈ body, BlankSince isStop source line.span.start := by
  obtain ⟨after, hm⟩ := matched_of_parseModule h
  constructor
  · obtain ⟨d, hitems, _⟩ := Grammar.runs_of_module hm
    exact hitems.blankSince Grammar.frames_item Grammar.yields_item.moves (.inl rfl)
      (Cursor.Reaches.refl _)
  · intro body hbody
    obtain ⟨inside, c, d, hc, hrun⟩ := Grammar.readFrom_of_mem_blocks hm hbody
    exact hrun.blankSince Grammar.frames_statement Grammar.yields_statement.moves
      (.inr hc) hc.reaches

/-- A comment and an empty line after a colon, and a comment on a line of its own. -/
theorem blankSince_of_procedure :
    ∃ tree, parseModule "Sub F()\n x = 1: ' one\n ' two\n y = 2:\nEnd Sub" Settings.standard =
        .ok tree ∧
      tree.items.length = 1 ∧ tree.blocks.map List.length = [5] ∧
      (∀ found ∈ tree.items, BlankSince isStop
        "Sub F()\n x = 1: ' one\n ' two\n y = 2:\nEnd Sub" found.span.start) ∧
      ∀ body ∈ tree.blocks, ∀ line ∈ body, BlankSince isStop
        "Sub F()\n x = 1: ' one\n ' two\n y = 2:\nEnd Sub" line.span.start := by
  have h : (parseModule "Sub F()\n x = 1: ' one\n ' two\n y = 2:\nEnd Sub"
      Settings.standard).toOption.map
        (fun tree => (tree.items.length, tree.blocks.map List.length)) = some (1, [5]) := by
    decide +kernel
  obtain ⟨tree, htree, hlengths⟩ := Option.map_eq_some_iff.mp h
  have hparse := Grammar.eq_ok_of_toOption htree
  obtain ⟨hitems, hblocks⟩ := Prod.mk.inj hlengths
  exact ⟨tree, hparse, hitems, hblocks, blankSince_of_parseModule hparse⟩

/-- After a colon a comment is part of the tree though its line holds code before it. -/
theorem exists_comment_after_colon :
    ∃ tree note, parseModule "Option Explicit: ' note\n" Settings.standard = .ok tree ∧
      Item.comment note ∈ tree.items ∧
      ¬ BlankSince isBreak "Option Explicit: ' note\n" note.span.start := by
  have h : (parseModule "Option Explicit: ' note\n" Settings.standard).toOption.bind
      (fun tree => tree.items[1]?.map fun found => (found.kind, found.span)) =
        some ("comment", ⟨17, 23⟩) := by
    decide +kernel
  obtain ⟨tree, htree, hitem⟩ := Option.bind_eq_some_iff.mp h
  obtain ⟨found, hfound, hpair⟩ := Option.map_eq_some_iff.mp hitem
  obtain ⟨hkind, hspan⟩ := Prod.mk.inj hpair
  cases found with
  | comment note =>
    have hplace : note.span = ⟨17, 23⟩ := hspan
    refine ⟨tree, note, Grammar.eq_ok_of_toOption htree, List.mem_of_getElem? hfound, ?_⟩
    rw [hplace, BlankSince]
    decide +kernel
  | procedure definition => cases definition <;> simp [Item.kind, Procedure.kind] at hkind
  | _ => simp [Item.kind] at hkind

end VisualBasic
