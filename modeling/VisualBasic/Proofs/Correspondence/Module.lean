import VisualBasic.Proofs.Correspondence.Statement
import VisualBasic.Proofs.Span.Module

/-!
# Corresponding modules

A correspondence keeps the parsers of procedures and items. Where it is strict, so that no place is
lost and failures correspond too, it keeps the parser of a module to its very end.
-/

set_option autoImplicit false

namespace VisualBasic

namespace Grammar

open Parse Pairing

variable {K : Correspondence}

theorem keeps_functionHead : K.Keeps .ends functionHead FunctionHead.relabel := by
  refine Tracks.sentence _ ?_
  refine keeps_access.thenSame fun access => ?_
  refine (keeps_keyword (by decide)).thenSame fun _ => ?_
  have htype {α : Type} (f : Option String → α) :
      Commits (after .As typeName >>= fun type => pure (f type)) :=
    (commits_after moves_typeName.advances _).andThen fun _ => commits_pure _
  refine (keeps_requireName _).thenCommits (fun name name' hname => ?_)
    (fun _ => commits_procedureParameters.andThen fun _ => htype _) (by decide)
  refine keeps_procedureParameters.thenCommits (fun parameters parameters' hparameters => ?_)
    (fun _ => htype _) (by decide)
  refine (keeps_typeName.after (by decide)).last fun type type' htype span place hspan => ?_
  simp_all only [On, FunctionHead.relabel, Head.relabel]

theorem keeps_propertyHead : K.Keeps .ends propertyHead PropertyHead.relabel := by
  refine Tracks.sentence _ ?_
  refine keeps_access.thenSame fun access => ?_
  refine (keeps_keyword (by decide)).thenSame fun _ => ?_
  refine ((keeps_oneOf (by decide)).require _).thenSame fun kind => ?_
  have htype {α : Type} (f : Option String → α) :
      Commits ((if kind = .getter then after .As typeName else pure none) >>= fun type =>
        pure (f type)) := (commits_returnType _).andThen fun _ => commits_pure _
  refine (keeps_requireName _).thenCommits (fun name name' hname => ?_)
    (fun _ => commits_procedureParameters.andThen fun _ => htype _) (by decide)
  refine keeps_procedureParameters.thenCommits (fun parameters parameters' hparameters => ?_)
    (fun _ => htype _) (by decide)
  refine (keeps_returnType _).last fun type type' htype span place hspan => ?_
  cases kind <;> simp_all only [On, PropertyHead.relabel, FunctionHead.relabel, Head.relabel]

/-- The block of a procedure may be all that is left of the text; then its last words are
missing. -/
theorem keeps_definition {η : Type} {construct : Construct} {head : Parse η}
    {g : Relabel → η → η} (h : K.Keeps .ends head g) {k : Keyword} (hk : k ≠ .Rem) :
    KeepsSentence K (definition construct head k) (Definition.relabel g) Definition.span := by
  have hclose {α : Type} (value : α) : Demands (requireEnd k >>= fun _ => pure value) :=
    (demands_requireEnd _).andThen fun _ => commits_pure value
  refine tracksSentence _ ?_ ?_
  · iterate 3 refine .andThen fun _ => ?_
    exact buildsOver_pure fun _ => rfl
  refine h.thenFails (fun head head' hhead => ?_) (fun _ => commits_block.demands fun _ => hclose _)
    (by decide)
  refine keeps_block.thenFails (fun body body' hbody => ?_) (fun _ => hclose _) (by decide)
  refine (keeps_requireEnd hk).thenSame fun _ => ?_
  refine tracks_pure (fun span place hspan => ?_) _
  simp_all only [On, Definition.relabel]

/-! ## Attributes and options -/

theorem text_intercalate (r : Relabel) (values : List String) :
    r.text (".".intercalate values) = (r.text ".").intercalate (values.map r.text) := by
  induction values with
  | nil => simp [Relabel.text]
  | cons first rest ih =>
    cases rest with
    | nil => simp
    | cons second rest =>
      simp only [String.intercalate_cons_cons, text_append, ih, List.map_cons]

theorem keeps_attributeName : K.Keeps .closed attributeName Relabel.text := by
  have hmember : Moves (adjacent '.' *> requireName "attribute name") Cursor.Ahead :=
    ((begins_adjacent (by decide)).seqRight (moves_requireName _).yields).moves.weaken
      Cursor.Token.ahead
  refine (keeps_requireName _).thenCommits (fun first first' hfirst => ?_)
    (fun _ => (commits_many hmember.advances).andThen fun _ => commits_pure _) (by decide)
  refine (((keeps_adjacent (by decide)).seqRight (keeps_requireName _)).many rfl
    hmember hmember).last
    fun rest rest' hrest => ?_
  have hfirst : K.left.text first = K.right.text first' := hfirst
  have hrest : rest.map K.left.text = rest'.map K.right.text := hrest
  simp only [On, text_intercalate, List.map_cons, hfirst, hrest, text_dot]

/-- A value that is no string is the text of a literal, from the place where it starts. -/
theorem keeps_attributeValue : K.Keeps .sure attributeValue Relabel.text := by
  intro inside inside' c d hin hcd
  have hstart := K.skipBlanks hcd
  refine (keeps_quoted inside inside' _ _ hin hstart).orElse ?_
  have hliteral := literal_reads hstart
  cases hc : literal c.skipBlanks with
  | none =>
    rw [hc] at hliteral
    cases hd : literal d.skipBlanks with
    | none =>
      simp only [bind_apply, require, Parse.orElse, Parse.read, hc, hd]
      have hfail : K.Tracks .sure (fail (.part "attribute value") : Parse String)
        (fail (.part "attribute value")) (K.On Relabel.text) := tracks_fail _ _
      exact hfail inside inside' _ _ hin hstart
    | some =>
      rw [hd] at hliteral
      cases hliteral
  | some found =>
    rw [hc] at hliteral
    cases hd : literal d.skipBlanks with
    | none =>
      rw [hd] at hliteral
      cases hliteral
    | some other =>
      rw [hd] at hliteral
      cases hliteral with
      | some h =>
        have htext : K.On Relabel.text (c.skipBlanks.textTo found.2)
            (d.skipBlanks.textTo other.2) :=
          K.literalText hstart hc hd
        simp only [bind_apply, require, Parse.orElse, Parse.read, hc, hd]
        exact .matched htext h.2

theorem commits_attributeValue : Commits attributeValue :=
  ⟨moves_attributeValue.advances, resolves_mark.andThen fun _ => (Resolves.andThen
    (resolves_require _ _) fun _ => resolves_here.andThen fun _ => resolves_pure _).second _⟩

theorem keeps_attributeLine : KeepsSentence K attributeLine Attribute.relabel Attribute.span := by
  refine tracksSentence _ ?_ ?_
  · iterate 4 refine .andThen fun _ => ?_
    exact buildsOver_pure fun _ => rfl
  refine (keeps_keyword (by decide)).thenSame fun _ => ?_
  refine keeps_attributeName.thenCommits (fun name name' hname => ?_) (fun _ =>
    (commits_requireSymbol _).andThen fun _ => commits_attributeValue.andThen fun _ =>
      commits_pure _) (by decide)
  refine (keeps_requireSymbol (by decide)).thenSame fun _ => ?_
  refine keeps_attributeValue.andThen fun value value' hvalue => ?_
  refine tracks_pure (fun span place hspan => ?_) _
  simp_all only [On, Attribute.relabel]

theorem keeps_moduleOption : K.Keeps .sure moduleOption Relabel.plain := by
  refine Tracks.orElse ?_ (Tracks.orElse ?_ (Tracks.orElse ?_ (Tracks.orElse ?_
    (tracks_unmatched _))))
  · exact (keeps_keyword (by decide)).seqRight (keeps_pure rfl _)
  · exact (keeps_keyword (by decide)).seqRight ((keeps_oneOf (by decide)).require _)
  · exact (keeps_keyword (by decide)).seqRight (keeps_requireNumber _ _)
  · exact ((keeps_keyword (by decide)).seqRight (keeps_requireKeyword (by decide))).seqRight
      (keeps_pure rfl _)

theorem keeps_optionLine : KeepsSentence K optionLine OptionLine.relabel OptionLine.span := by
  refine tracksSentence _ ?_ ?_
  · iterate 2 refine .andThen fun _ => ?_
    exact buildsOver_pure fun _ => rfl
  refine (keeps_keyword (by decide)).thenSame fun _ => ?_
  refine (keeps_moduleOption.require _).thenSame fun option => ?_
  refine tracks_pure (fun span place hspan => ?_) _
  simp_all only [On, OptionLine.relabel]

/-! ## Items -/

theorem keeps_item : K.Keeps .ends item Item.relabel := by
  refine Tracks.orElse (keeps_comment.map fun _ _ => congrArg Item.comment) ?_
  refine Tracks.orElse (keeps_emptyLine.map fun _ _ => congrArg Item.emptyLine) ?_
  refine Tracks.orElse (keeps_attributeLine.tracks.map fun _ _ => congrArg Item.attributeLine) ?_
  refine Tracks.orElse (keeps_optionLine.tracks.map fun _ _ => congrArg Item.optionLine) ?_
  refine Tracks.orElse (keeps_declaration.map fun _ _ => congrArg Item.declaration) ?_
  refine Tracks.orElse
    ((keeps_definition (keeps_plainHead _ (by decide) _).tracks (by decide)).tracks.map
    fun _ _ => congrArg fun d => Item.procedure (.sub d)) ?_
  refine Tracks.orElse ((keeps_definition keeps_functionHead (by decide)).tracks.map
    fun _ _ => congrArg fun d => Item.procedure (.function d)) ?_
  refine Tracks.orElse ((keeps_definition keeps_propertyHead (by decide)).tracks.map
    fun _ _ => congrArg fun d => Item.procedure (.property d)) ?_
  exact tracks_unmatched _

/-! ## Whole modules -/

/-- Where failures correspond, nothing gets lost. -/
theorem sure_of_isStrict {α : Type} {s : Strength} {p q : Parse α} {V : α → α → Prop}
    (hs : K.isStrict) (h : K.Tracks s p q V) : K.Tracks .sure p q V := by
  intro inside inside' c d hin hcd
  have hfollows := h inside inside' c d hin hcd
  generalize p inside c = o at hfollows ⊢
  generalize q inside' d = o' at hfollows ⊢
  cases hfollows with
  | matched value joins => exact .matched value ⟨joins.1, fun _ hl => K.not_strict (.inl hl) hs⟩
  | stranded strays => exact absurd hs (K.not_strict (strays.imp And.right And.right))
  | unmatched => exact .unmatched
  | failed alike => exact .failed alike

theorem keeps_requireEndOfSource (hs : K.isStrict) (expected : Expected) :
    K.Keeps .sure (requireEndOfSource expected) Relabel.plain := by
  intro inside inside' c d hin hcd
  simp only [requireEndOfSource, K.isFinished hs hcd]
  split
  · exact .matched rfl (hcd.joins _)
  · have hfail : K.Keeps .sure (fail expected : Parse Unit) Relabel.plain := tracks_fail _ _
    exact hfail inside inside' _ _ hin hcd

theorem alike_suggestWord {failure other : Failure} (hs : K.isStrict)
    (h : K.Alike failure other) : K.Alike (suggestWord failure) (suggestWord other) :=
  ⟨h.construct, h.expected, K.suggested hs h.place, h.help, h.place, h.stopped, h.token⟩

theorem keeps_module (hs : K.isStrict) : K.Keeps .sure module Module.relabel := by
  have hitems := (sure_of_isStrict hs (keeps_item (K := K))).many rfl yields_item.moves
    yields_item.moves
  refine hitems.andThen fun items items' h => ?_
  refine ((keeps_requireEndOfSource hs _).advise fun _ _ => alike_suggestWord).thenSame fun _ => ?_
  refine tracks_pure ?_ _
  exact congrArg Module.mk h

end Grammar

end VisualBasic
