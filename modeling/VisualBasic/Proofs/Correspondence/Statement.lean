import VisualBasic.Proofs.Correspondence.Declaration
import VisualBasic.Proofs.Span.Statement

/-!
# Corresponding statements

A correspondence keeps the parsers of statements. A statement without a block may lose the text
after its last line only; a block may lose it after any of its lines, and then the words that close
the block are missing. So a compound statement is kept to its end, like any other.
-/

set_option autoImplicit false

namespace VisualBasic

namespace Grammar

open Cursor (Reaches)
open Parse Pairing

variable {K : Correspondence}

/-! ## Expressions in statements -/

theorem keeps_expression : K.Keeps .closed (read expression) Expression.relabel :=
  expression_pairs.tracks

theorem keeps_requireExpression (part : String) :
    K.Keeps .closed (requireExpression part) Expression.relabel := keeps_expression.require _

theorem keeps_anyReference : K.Keeps .closed anyReference Reference.relabel :=
  reference_pairs.tracks

theorem keeps_requireReference (part : String) :
    K.Keeps .closed (requireReference part) Reference.relabel := keeps_anyReference.require _

theorem keeps_expressionList :
    K.Keeps .closed expressionList fun r values => values.map (Expression.relabel r) :=
  keeps_expression.separated (keeps_requireExpression _) rfl (yields_requireExpression _).advances

theorem commits_requireExpression (part : String) : Commits (requireExpression part) :=
  ⟨(yields_requireExpression part).advances, resolves_require _ _⟩

theorem commits_requireArguments : Commits requireArguments := by
  refine ⟨yields_requireArguments.advances, fun inside c => ?_⟩
  unfold requireArguments
  cases arguments expression c with
  | ok => simp
  | error => exact resolves_fail _ _ _

/-- No name lapses after the parenthesis that opens a list of arguments. -/
theorem tracks_argumentList {α : Type} {s : Strength} {f f' : List Expression → Parse α}
    {V : α → α → Prop}
    (h : ∀ values values', values.map (Expression.relabel K.left) =
      values'.map (Expression.relabel K.right) → K.Tracks s (f values) (f' values') V) :
    K.Tracks s (requireSymbol '(' >>= fun _ => requireArguments >>= f)
      (requireSymbol '(' >>= fun _ => requireArguments >>= f') V := by
  have hfail (expected : Expected) : K.Tracks s (fail expected) (fail expected) V := tracks_fail _ _
  intro inside inside' c d hin hcd
  have hopen : Option.Rel (Clear K.toLexicon) (c.symbol '(') (d.symbol '(') :=
    rel_symbol_clear (by decide) (by decide) hcd
  simp only [requireSymbol, Parse.symbol, require, Parse.orElse, Parse.pass, bind_apply]
  generalize c.symbol '(' = x at hopen ⊢
  generalize d.symbol '(' = y at hopen ⊢
  cases hopen with
  | none => exact hfail (.symbol '(') inside inside' c d hin hcd
  | @some e e' hee =>
    have hlist := arguments_listed expression_lays expression_lays expression_agrees hee
    dsimp only
    unfold requireArguments
    generalize arguments expression e = x at hlist ⊢
    generalize arguments expression e' = y at hlist ⊢
    cases hlist with
    | ok value alive => exact h _ _ value inside inside' _ _ hin alive
    | error alive => exact (hfail (.part "argument list")) inside inside' _ _ hin alive

/-- Whatever follows a name that lapses, nothing matches on the right. -/
theorem Pairs.thenAdvances {α β : Type} {reader other : Reader α} {V : α → α → Prop}
    {U : β → β → Prop} {f f' : α → Parse β} (h : Pairs K.toLexicon reader other V)
    (hf : ∀ v w, V v w → K.Tracks .closed (f v) (f' w) U) (hadvances : ∀ v, Advances (f v)) :
    K.Tracks .closed (read reader >>= f) (read other >>= f') U := by
  intro inside inside' c d hin hcd
  simp only [bind_apply, Parse.read]
  rcases h c d hcd with ⟨⟨e, he, hpast⟩, hnone⟩ | hreads
  · obtain ⟨⟨v, place⟩, hfound, rfl⟩ := Option.map_eq_some_iff.mp he
    rw [hfound, hnone]
    dsimp only at hpast ⊢
    cases hm : f v inside place with
    | matched w after =>
      exact .stranded (.inr ⟨by decide, K.past_of_reaches hpast (hadvances v inside _ w after hm)⟩)
    | unmatched => exact .unmatched
    | failed failure => exact .failed fun hs => absurd hs (K.not_strict (.inr hpast))
  · generalize reader c = x at hreads ⊢
    generalize other d = y at hreads ⊢
    cases hreads with
    | none => exact .unmatched
    | some hfound => exact hf _ _ hfound.1 inside inside' _ _ hin (hfound.2.alive rfl)

/-! ## Simple statements -/

theorem keeps_assignment : KeepsSentence K assignment Statement.relabel Statement.span := by
  refine tracksSentence _ ?_ ?_
  · iterate 2 refine .andThen fun _ => ?_
    dsimp only
    split <;> exact .andThen fun _ => .andThen fun _ => buildsOver_pure fun _ => rfl
  refine (keeps_oneOf (by decide)).optPlain.thenSame fun kind => ?_
  have hrest {equals : Parse Unit} (hequals : K.Keeps .sure equals Relabel.plain)
      (target target' : Reference) (h : target.relabel K.left = target'.relabel K.right) :
      K.Tracks .closed (do
        equals
        let value ← requireExpression "expression"
        return fun span => Statement.assign (kind.getD .Unwritten) target value span) (do
        equals
        let value ← requireExpression "expression"
        return fun span => Statement.assign (kind.getD .Unwritten) target' value span)
        (K.Spanwise (K.On Statement.relabel)) := by
    refine hequals.thenSame fun _ => ?_
    refine (keeps_requireExpression _).last fun value value' hvalue =>
      fun span place hspan => ?_
    simp_all only [On, Statement.relabel]
  have hvalue (target : Reference) : Commits (do
      let value ← requireExpression "expression"
      return fun span => Statement.assign (kind.getD .Unwritten) target value span) :=
    (commits_requireExpression _).andThen fun _ => commits_pure _
  dsimp only
  split
  · exact (keeps_requireReference _).thenCommits
      (hrest (keeps_requireSymbol (by decide)))
      (fun target => (commits_requireSymbol _).andThen fun _ => hvalue target) (by decide)
  · exact reference_pairs.thenAdvances (hrest (keeps_symbol (by decide))) fun target =>
      advances_bind (advances_pass fun _ _ => Cursor.reaches_of_symbol) fun _ =>
        (hvalue target).advances

theorem keeps_localVariables : KeepsSentence K localVariables Statement.relabel Statement.span := by
  refine tracksSentence _ ?_ ?_
  · iterate 2 refine .andThen fun _ => ?_
    exact buildsOver_pure fun _ => rfl
  refine (keeps_oneOf (by decide)).thenSame fun kind => ?_
  refine (keeps_declaredVariables (keeps_declaredVariable.require _)).last
    fun declared declared' h => fun span place hspan => ?_
  simp_all only [On, Statement.relabel]

theorem keeps_redim : KeepsSentence K redim Statement.relabel Statement.span := by
  refine tracksSentence _ ?_ ?_
  · iterate 6 refine .andThen fun _ => ?_
    exact buildsOver_pure fun _ => rfl
  refine (keeps_keyword (by decide)).thenSame fun _ => ?_
  refine (keeps_keyword (by decide)).flag.thenSame fun isPreserved => ?_
  have hclose {α : Type} (value : α) : Commits (requireSymbol ')' >>= fun _ => pure value) :=
    (commits_requireSymbol _).andThen fun _ => commits_pure value
  refine (keeps_requireReference _).thenCommits (fun array array' harray => ?_) (fun _ =>
    (commits_requireSymbol _).andThen fun _ =>
      (commits_require _ yields_expressionList.advances).andThen fun _ => hclose _) (by decide)
  refine (keeps_requireSymbol (by decide)).thenSame fun _ => ?_
  refine (keeps_expressionList.require _).thenCommits (fun dimensions dimensions' h => ?_)
    (fun _ => hclose _) (by decide)
  refine (keeps_requireSymbol (by decide)).thenSame fun _ => ?_
  refine tracks_pure (fun span place hspan => ?_) _
  simp_all only [On, Statement.relabel]

theorem keeps_exit : KeepsSentence K exit Statement.relabel Statement.span := by
  refine tracksSentence _ ?_ ?_
  · iterate 2 refine .andThen fun _ => ?_
    exact buildsOver_pure fun _ => rfl
  refine (keeps_keyword (by decide)).thenSame fun _ => ?_
  refine ((keeps_oneOf (by decide)).require _).thenSame fun kind => ?_
  refine tracks_pure (fun span place hspan => ?_) _
  simp_all only [On, Statement.relabel]

theorem keeps_jump : KeepsSentence K jump Statement.relabel Statement.span := by
  refine tracksSentence _ ?_ ?_
  · iterate 2 refine .andThen fun _ => ?_
    exact buildsOver_pure fun _ => rfl
  refine (keeps_oneOf (by decide)).thenSame fun kind => ?_
  refine (keeps_requireName _).last fun name name' hname =>
    fun span place hspan => ?_
  simp_all only [On, Statement.relabel]

theorem keeps_errorTarget : K.Keeps .closed errorTarget ErrorResponse.relabel := by
  refine tracks_nextToken.andThen fun place place' hplace => ?_
  refine keeps_number.optPlain.thenSame fun number => ?_
  cases number with
  | none => exact (keeps_requireName _).map fun _ _ => congrArg ErrorResponse.goToLabel
  | some number =>
    dsimp only
    split
    · exact keeps_pure rfl _
    · split
      · exact keeps_pure rfl _
      · exact tracks_failAt hplace _ _

/-- A response without a label. -/
theorem keeps_plainResponse {table : List (Keyword × ErrorResponse)}
    (h : ∀ entry ∈ table, entry.1 ≠ .Rem ∧ ∀ r, entry.2.relabel r = entry.2) :
    K.Keeps .sure (oneOf table) ErrorResponse.relabel := by
  induction table with
  | nil => exact tracks_unmatched _
  | cons entry rest ih =>
    obtain ⟨hk, hentry⟩ := h entry List.mem_cons_self
    refine Tracks.orElse ((keeps_keyword hk).seqRight (tracks_pure ?_ _))
      (ih fun other ho => h other (List.mem_cons_of_mem _ ho))
    rw [On, hentry, hentry]

theorem keeps_errorResponse : K.Keeps .closed errorResponse ErrorResponse.relabel := by
  refine Tracks.orElse ?_ (Tracks.orElse ?_ (Tracks.orElse ?_ (tracks_unmatched _)))
  · exact ((keeps_keyword (by decide)).seqRight (keeps_requireKeyword (by decide))).seqRight
      (keeps_pure rfl _)
  · exact (keeps_keyword (by decide)).seqRight keeps_errorTarget
  · refine (keeps_keyword (by decide)).seqRight
      (((keeps_plainResponse ?_).require _).weaken (fun _ _ => id) _)
    intro entry he
    simp only [List.mem_cons, List.not_mem_nil, or_false] at he
    rcases he with rfl | rfl | rfl <;> exact ⟨by decide, fun _ => rfl⟩

theorem keeps_onError : KeepsSentence K onError Statement.relabel Statement.span := by
  refine tracksSentence _ ?_ ?_
  · iterate 3 refine .andThen fun _ => ?_
    exact buildsOver_pure fun _ => rfl
  refine (keeps_keyword (by decide)).thenSame fun _ => ?_
  refine (keeps_requireKeyword (by decide)).thenSame fun _ => ?_
  refine (keeps_errorResponse.require _).last fun response response' h =>
    fun span place hspan => ?_
  simp_all only [On, Statement.relabel]

theorem keeps_resumePoint : K.Keeps .closed resumePoint ResumePoint.relabel := by
  refine tracks_nextToken.andThen fun place place' hplace => ?_
  refine Tracks.orElse ?_ (Tracks.orElse ?_ (Tracks.orElse ?_
    (Tracks.orElse (keeps_pure rfl _) (tracks_unmatched _))))
  · exact (keeps_keyword (by decide)).seqRight (keeps_pure rfl _)
  · refine keeps_number.thenSame fun number => ?_
    split
    · exact keeps_pure rfl _
    · exact tracks_failAt hplace _ _
  · exact keeps_identifier.map fun _ _ => congrArg ResumePoint.label

theorem keeps_resume : KeepsSentence K resume Statement.relabel Statement.span := by
  refine tracksSentence _ ?_ ?_
  · iterate 2 refine .andThen fun _ => ?_
    exact buildsOver_pure fun _ => rfl
  refine (keeps_keyword (by decide)).thenSame fun _ => ?_
  refine keeps_resumePoint.last fun point point' h => fun span place hspan => ?_
  simp_all only [On, Statement.relabel]

theorem keeps_colon : K.Keeps .closed (adjacent ':') Relabel.plain := by
  intro inside inside' c d _ hcd
  rcases K.colon hcd with ⟨e, he, hpast⟩ | hr
  · unfold Parse.adjacent Parse.pass
    rw [he]
    exact .stranded (.inr ⟨by decide, hpast⟩)
  · exact follows_pass (rel_mono (fun _ _ h => h.joins _) hr) inside inside'

theorem keeps_label : K.Keeps .ends label Statement.relabel := by
  have hname : K.Keeps .closed (spanned do
      let name ← identifier
      adjacent ':'
      return Statement.label name) Statement.relabel := by
    refine Tracks.spanned ?_
    have hname : Pairs K.toLexicon Cursor.identifier Cursor.identifier (K.On Relabel.text) :=
      fun _ _ => K.identifier
    refine hname.thenAdvances (fun name name' hname => ?_) fun _ => ?_
    · refine keeps_colon.last fun _ _ _ span place hspan => ?_
      simp_all only [On, Statement.relabel]
    · exact advances_bind (advances_pass fun _ _ => Cursor.reaches_of_adjacent) fun _ =>
        advances_pure _
  refine Tracks.within ?_ _
  refine hname.thenCommits (fun found found' hfound => ?_) (fun _ => ?_) (by decide)
  · exact tracks_optLineEnd.last fun _ _ _ => hfound
  · exact (commits_opt moves_lineEnd.advances).andThen fun _ => commits_pure _

/-! ## Calls -/

theorem token_of_member {c d : Cursor} {text : String} (h : c.member = some (text, d)) :
    Cursor.Token c d := by
  obtain ⟨e, he, h⟩ := Option.bind_eq_some_iff.mp h
  split at h
  · exact (Cursor.begun_of_adjacent (by decide) he).token (Cursor.token_of_word h)
  · contradiction

theorem memberNames_eq (c : Cursor) :
    memberNames c =
      match c.member with
      | none => ("", c)
      | some (name, e) =>
        if e.rest.length < c.rest.length then
          ("." ++ name ++ (memberNames e).1, (memberNames e).2)
        else ("." ++ name, e) := by
  rw [memberNames, Cursor.member]
  cases c.adjacent '.' with
  | none => rfl
  | some d =>
    dsimp only [Option.bind_some]
    split
    · cases d.word <;> rfl
    · rfl

theorem memberNames_follows {L : Lexicon} {c d : Cursor} (hcd : L.Alive c d) :
    L.left.text (memberNames c).1 = L.right.text (memberNames d).1 ∧
      L.Alive (memberNames c).2 (memberNames d).2 := by
  have main (n : Nat) (c d : Cursor) (hn : c.rest.length < n) (hcd : L.Alive c d) :
      L.left.text (memberNames c).1 = L.right.text (memberNames d).1 ∧
        L.Alive (memberNames c).2 (memberNames d).2 := by
    induction n generalizing c d with
    | zero => omega
    | succ n ih =>
      rw [memberNames_eq, memberNames_eq]
      have hfirst := L.member hcd
      generalize hmember : c.member = x at hfirst ⊢
      generalize hmember' : d.member = y at hfirst ⊢
      cases hfirst with
      | none => exact ⟨rfl, hcd⟩
      | @some found other hfirst =>
        obtain ⟨name, e⟩ := found
        obtain ⟨name', e'⟩ := other
        have hee : L.Alive e e' := hfirst.2.alive rfl
        have hname : L.left.text name = L.right.text name' := hfirst.1
        have hlt := (token_of_member hmember).length_lt
        dsimp only
        rw [if_pos hlt, if_pos ((token_of_member hmember').length_lt)]
        obtain ⟨hnames, halive⟩ := ih e e' (by omega) hee
        exact ⟨by simp only [text_append, text_dot, hname, hnames], halive⟩
  exact main (c.rest.length + 1) c d (by omega) hcd

theorem procedureName_agrees {L : Lexicon} :
    Agrees L procedureName procedureName (L.On Relabel.text) := by
  intro c d hcd
  have hstart := hcd.skipBlanks
  have hdot : Option.Rel (Clear L) (c.skipBlanks.adjacent '.') (d.skipBlanks.adjacent '.') :=
    rel_adjacent_clear (by decide) (by decide) hstart.1
  unfold procedureName
  dsimp only
  rw [rel_isSome hdot]
  refine rel_bind (rel_getD hdot hstart).2 ?_
  rintro ⟨name, e⟩ ⟨name', e'⟩ ⟨hname, hee⟩
  obtain ⟨hnames, halive⟩ := memberNames_follows (hee.alive rfl)
  have hname : L.left.text name = L.right.text name' := hname
  refine .some ⟨?_, halive.joins _⟩
  split <;> simp only [On, text_append, text_dot, hname, hnames]
  rfl

theorem procedureName_startsWithName : StartsWithName procedureName := by
  intro c value after hdot h
  simp only [procedureName, hdot, Option.getD_none, Option.bind_eq_bind, Option.bind_eq_some_iff,
    Cursor.identifier_skipBlanks] at h
  obtain ⟨⟨name, e⟩, hname, h⟩ := h
  cases h
  exact ⟨name, e, hname, (slack_memberNames e).reaches⟩

theorem procedureName_pairs {L : Lexicon} :
    Pairs L procedureName procedureName (L.On Relabel.text) :=
  procedureName_agrees.pairs procedureName_startsWithName procedureName_startsWithName

theorem keeps_procedureName : K.Keeps .closed (read procedureName) Relabel.text :=
  procedureName_pairs.tracks

theorem keeps_explicitCall : KeepsSentence K explicitCall Statement.relabel Statement.span := by
  refine tracksSentence _ ?_ ?_
  · iterate 5 refine .andThen fun _ => ?_
    exact buildsOver_pure fun _ => rfl
  refine (keeps_keyword (by decide)).thenSame fun _ => ?_
  refine tracks_mark.andThen fun _ _ _ => ?_
  refine (keeps_procedureName.require _).thenCommits (fun name name' hname => ?_) (fun _ =>
    (commits_requireSymbol _).andThen fun _ => commits_requireArguments.andThen fun _ =>
      commits_pure _) (by decide)
  refine tracks_argumentList fun values values' hvalues => ?_
  refine tracks_pure (fun span place hspan => ?_) _
  simp_all only [On, Statement.relabel]

theorem keeps_raiseEvent : KeepsSentence K raiseEvent Statement.relabel Statement.span := by
  refine tracksSentence _ ?_ ?_
  · iterate 4 refine .andThen fun _ => ?_
    exact buildsOver_pure fun _ => rfl
  refine (keeps_keyword (by decide)).thenSame fun _ => ?_
  refine (keeps_requireName _).thenCommits (fun name name' hname => ?_) (fun _ =>
    (commits_requireSymbol _).andThen fun _ => commits_requireArguments.andThen fun _ =>
      commits_pure _) (by decide)
  refine tracks_argumentList fun values values' hvalues => ?_
  refine tracks_pure (fun span place hspan => ?_) _
  simp_all only [On, Statement.relabel]

/-- Arguments with the place where they stop. -/
def Stopped (K : Correspondence) (found other : List Expression × Cursor) : Prop :=
  K.On (fun r values => values.map (Expression.relabel r)) found.1 other.1 ∧
    K.meets found.2 other.2

theorem wholeArguments_reads {c d : Cursor} (hcd : K.Alive c d) :
    K.Passes ((wholeArguments c).map Prod.snd) ∨
      K.Reads .ends (Stopped K) (wholeArguments c) (wholeArguments d) := by
  unfold wholeArguments
  have hopen : Option.Rel (Clear K.toLexicon) (c.symbol '(') (d.symbol '(') :=
    rel_symbol_clear (by decide) (by decide) hcd
  generalize c.symbol '(' = x at hopen ⊢
  generalize d.symbol '(' = y at hopen ⊢
  cases hopen with
  | none => exact .inr .none
  | @some e e' hee =>
    simp only [Option.bind_eq_bind, Option.bind_some]
    have hlist := (arguments_listed expression_lays expression_lays expression_agrees hee).reads
    generalize (arguments expression e).toOption = x at hlist ⊢
    generalize (arguments expression e').toOption = y at hlist ⊢
    cases hlist with
    | none => exact .inr .none
    | @some found other hfound =>
      obtain ⟨values, stop⟩ := found
      obtain ⟨values', stop'⟩ := other
      obtain ⟨hvalues, hstop⟩ := hfound
      simp only [Option.bind_some]
      rcases K.terminator (hstop.alive rfl) with ⟨f, hf, hpast⟩ | hend
      · exact .inl ⟨f, by rw [hf]; rfl, hpast⟩
      · refine .inr (rel_bind hend fun f f' hf => ?_)
        exact .some ⟨⟨hvalues, hstop.1⟩, hf, fun hs => by contradiction⟩

theorem looseArguments_tracks : K.Tracks .ends looseArguments looseArguments (Stopped K) := by
  refine keeps_expressionList.opt.thenCommits (fun found found' hfound => ?_) (fun _ =>
    commits_here.andThen fun _ => commits_requireTerminator.andThen fun _ => commits_pure _)
    (by decide)
  refine tracks_here.andThen fun stop stop' hstop => ?_
  exact keeps_requireTerminator.last fun _ _ _ => ⟨map_getD_nil hfound, hstop.1⟩

theorem reaches_of_wholeArguments {c after : Cursor} {found : List Expression × Cursor}
    (h : wholeArguments c = some (found, after)) : Reaches c after :=
  have ⟨ht, hend, _⟩ := wholeArguments_regions h
  ht.reaches.trans (Cursor.reaches_of_terminator hend)

theorem commits_looseArguments : Commits looseArguments :=
  (commits_opt yields_expressionList.advances).andThen fun _ => commits_here.andThen fun _ =>
    commits_requireTerminator.andThen fun _ => commits_pure _

theorem keeps_implicitCall : K.Keeps .ends implicitCall Statement.relabel := by
  refine Tracks.within ?_ _
  refine tracks_mark.andThen fun start start' hstart => ?_
  refine keeps_procedureName.thenCommits (fun name name' hname => ?_) (fun _ =>
    (Commits.orElse (advances_read fun _ _ _ => reaches_of_wholeArguments)
      commits_looseArguments).andThen fun _ => commits_pure _) (by decide)
  refine ((tracks_read (by decide) fun c d => wholeArguments_reads).orElse
    looseArguments_tracks).last
    fun found found' hfound => ?_
  have hspan := K.span_eq hstart.1.1 hfound.2
  have hvalues := hfound.1
  simp_all only [On, Statement.relabel]

/-! ## Compound statements -/

section Compound

variable {block block' : Parse (List Statement)} (hyields : Yields block Reaches blockRegions)
  (hyields' : Yields block' Reaches blockRegions)
  (hb : K.Tracks .loose block block' (K.On relabelBlock)) (hcommits : Commits block)

theorem keeps_loopEnd : K.Keeps .closed loopEnd Relabel.plain := by
  refine (keeps_requireKeyword (by decide)).thenSame fun _ => ?_
  refine keeps_anyReference.opt.last fun _ _ _ => ?_
  rfl

theorem demands_loopEnd : Demands loopEnd :=
  (demands_requireKeyword _).andThen fun _ =>
    (commits_opt yields_anyReference.advances).andThen fun _ => commits_pure _

theorem keeps_loopTest : K.Keeps .closed loopTest LoopTest.relabel := by
  refine (keeps_oneOf (by decide)).thenSame fun isWhile => ?_
  refine (keeps_requireExpression _).last fun condition condition' h => ?_
  simp_all only [On, LoopTest.relabel]

include hcommits hb

/-- The line on which a block starts, the block, and the words that close it. -/
theorem tracks_closedBlock {α : Type} {f f' : List Statement → Parse α} {V : α → α → Prop}
    (h : ∀ body body', relabelBlock K.left body = relabelBlock K.right body' →
      K.Tracks .closed (f body) (f' body') V) (hf : ∀ body, Demands (f body)) :
    K.Tracks .closed (requireTerminator >>= fun _ => block >>= f)
      (requireTerminator >>= fun _ => block' >>= f') V :=
  keeps_requireTerminator.thenFails (fun _ _ _ => hb.thenFails h hf (by decide))
    (fun _ => hcommits.demands hf) (by decide)

omit hb in
theorem commits_closedBlock {α : Type} {f : List Statement → Parse α}
    (hf : ∀ body, Demands (f body)) :
    Commits (requireTerminator >>= fun _ => block >>= f) :=
  commits_requireTerminator.andThen fun _ => (hcommits.demands hf).toCommits

theorem whileLoop_tracks :
    TracksSentence K (whileLoop block) (whileLoop block') (K.On Statement.relabel)
      Statement.span := by
  refine tracksSentence _ ?_ ?_
  · iterate 5 refine .andThen fun _ => ?_
    exact buildsOver_pure fun _ => rfl
  refine (keeps_keyword (by decide)).thenSame fun _ => ?_
  have hclose {α : Type} (value : α) : Demands (requireKeyword .Wend >>= fun _ => pure value) :=
    (demands_requireKeyword _).andThen fun _ => commits_pure value
  refine (keeps_requireExpression _).thenCommits (fun condition condition' h => ?_)
    (fun _ => commits_closedBlock hcommits fun _ => hclose _) (by decide)
  refine tracks_closedBlock hb hcommits (fun body body' hbody => ?_) fun _ => hclose _
  refine (keeps_requireKeyword (by decide)).thenSame fun _ => ?_
  refine tracks_pure (fun span place hspan => ?_) _
  simp_all only [On, Statement.relabel]

omit hb hcommits in
/-- What a `Do` loop comes to after its last condition. -/
theorem commits_loopClose (first : Option LoopTest) (body : List Statement) (place : Cursor)
    (last : Option LoopTest) : Commits (match first, last with
    | some _, some _ =>
      advise (fun failure => { failure with help := some .twoConditions })
        (failAt place .endOfStatement)
    | some test, none => pure fun span => Statement.testFirstLoop test body span
    | none, some test => pure fun span => Statement.testLastLoop body test span
    | none, none => pure fun span => Statement.endlessLoop body span) := by
  cases first <;> cases last
  · exact commits_pure _
  · exact commits_pure _
  · exact commits_pure _
  · exact (commits_failAt _ _).advise _

omit hb hcommits in
theorem demands_loopClose (first : Option LoopTest) (body : List Statement) :
    Demands (do
      requireKeyword .Loop
      let place ← nextToken
      let last ← opt loopTest
      match first, last with
      | some _, some _ =>
        advise (fun failure => { failure with help := some .twoConditions })
          (failAt place .endOfStatement)
      | some test, none => return fun span => Statement.testFirstLoop test body span
      | none, some test => return fun span => Statement.testLastLoop body test span
      | none, none => return fun span => Statement.endlessLoop body span) :=
  (demands_requireKeyword _).andThen fun _ => commits_nextToken.andThen fun place =>
    (commits_opt yields_loopTest.advances).andThen (commits_loopClose first body place)

theorem doLoop_tracks :
    TracksSentence K (doLoop block) (doLoop block') (K.On Statement.relabel) Statement.span := by
  refine tracksSentence _ ?_ ?_
  · iterate 7 refine .andThen fun _ => ?_
    split
    · intro inside c build after hm
      contradiction
    · exact buildsOver_pure fun _ => rfl
    · exact buildsOver_pure fun _ => rfl
    · exact buildsOver_pure fun _ => rfl
  refine (keeps_keyword (by decide)).thenSame fun _ => ?_
  refine keeps_loopTest.opt.thenCommits (fun first first' hfirst => ?_)
    (fun first => commits_closedBlock hcommits (demands_loopClose first)) (by decide)
  refine tracks_closedBlock hb hcommits (fun body body' hbody => ?_) (demands_loopClose first)
  refine (keeps_requireKeyword (by decide)).thenSame fun _ => ?_
  refine tracks_nextToken.andThen fun place place' hplace => ?_
  refine keeps_loopTest.opt.thenCommits (fun last last' hlast => ?_)
    (commits_loopClose first body place) (by decide)
  cases first <;> cases first' <;> simp only [On, Option.map_none, Option.map_some,
    reduceCtorEq, Option.some.injEq] at hfirst <;> cases last <;> cases last' <;>
    simp only [On, Option.map_none, Option.map_some, reduceCtorEq, Option.some.injEq] at hlast
  · refine tracks_pure (fun span place hspan => ?_) _
    simp_all only [On, Statement.relabel]
  · refine tracks_pure (fun span place hspan => ?_) _
    simp_all only [On, Statement.relabel]
  · refine tracks_pure (fun span place hspan => ?_) _
    simp_all only [On, Statement.relabel]
  · refine (tracks_failAt hplace _ _).advise fun _ _ _ h => ?_
    exact ⟨h.construct, h.expected, h.suggestion, rfl, h.place, h.stopped, h.token⟩

theorem forEachLoop_tracks : K.Tracks .closed (forEachLoop block) (forEachLoop block')
    (K.Spanwise (K.On Statement.relabel)) := by
  refine (keeps_keyword (by decide)).thenSame fun _ => ?_
  have hclose {α : Type} (value : α) : Demands (loopEnd >>= fun _ => pure value) :=
    demands_loopEnd.andThen fun _ => commits_pure value
  have hbody {α : Type} (f : List Statement → α) :
      Commits (requireTerminator >>= fun _ => block >>= fun body => loopEnd >>= fun _ =>
        pure (f body)) := commits_closedBlock hcommits fun _ => hclose _
  refine (keeps_requireReference _).thenCommits (fun element element' helement => ?_) (fun _ =>
    (commits_requireKeyword _).andThen fun _ => (commits_requireExpression _).andThen fun _ =>
      hbody _) (by decide)
  refine (keeps_requireKeyword (by decide)).thenSame fun _ => ?_
  refine (keeps_requireExpression _).thenCommits (fun collection collection' hcollection => ?_)
    (fun _ => hbody _) (by decide)
  refine tracks_closedBlock hb hcommits (fun body body' hbody => ?_) fun _ => hclose _
  refine keeps_loopEnd.last fun _ _ _ => fun span place hspan => ?_
  simp_all only [On, Statement.relabel]

theorem countingLoop_tracks : K.Tracks .closed (countingLoop block) (countingLoop block')
    (K.Spanwise (K.On Statement.relabel)) := by
  have hclose {α : Type} (value : α) : Demands (loopEnd >>= fun _ => pure value) :=
    demands_loopEnd.andThen fun _ => commits_pure value
  have hbody {α : Type} (f : List Statement → α) :
      Commits (requireTerminator >>= fun _ => block >>= fun body => loopEnd >>= fun _ =>
        pure (f body)) := commits_closedBlock hcommits fun _ => hclose _
  have hstep {α : Type} (f : Option Expression → List Statement → α) :
      Commits (after .Step (requireExpression "step value") >>= fun step => requireTerminator >>=
        fun _ => block >>= fun body => loopEnd >>= fun _ => pure (f step body)) :=
    (commits_after (commits_requireExpression _).advances _).andThen fun _ => hbody _
  have hlast {α : Type} (f : Expression → Option Expression → List Statement → α) :
      Commits (requireKeyword .To >>= fun _ => requireExpression "end value" >>= fun last =>
        after .Step (requireExpression "step value") >>= fun step => requireTerminator >>=
          fun _ => block >>= fun body => loopEnd >>= fun _ => pure (f last step body)) :=
    (commits_requireKeyword _).andThen fun _ => (commits_requireExpression _).andThen
      fun _ => hstep _
  refine (keeps_requireReference _).thenCommits (fun counter counter' hcounter => ?_) (fun _ =>
    (commits_requireSymbol _).andThen fun _ => (commits_requireExpression _).andThen fun _ =>
      hlast _) (by decide)
  refine (keeps_requireSymbol (by decide)).thenSame fun _ => ?_
  refine (keeps_requireExpression _).thenCommits (fun first first' hfirst => ?_)
    (fun _ => hlast _) (by decide)
  refine (keeps_requireKeyword (by decide)).thenSame fun _ => ?_
  refine (keeps_requireExpression _).thenCommits (fun last last' hlast => ?_)
    (fun _ => hstep _) (by decide)
  refine ((keeps_requireExpression _).after (by decide)).thenCommits (fun step step' hstep => ?_)
    (fun _ => hbody _) (by decide)
  refine tracks_closedBlock hb hcommits (fun body body' hbody => ?_) fun _ => hclose _
  refine keeps_loopEnd.last fun _ _ _ => fun span place hspan => ?_
  simp_all only [On, Statement.relabel]

theorem forLoop_tracks :
    TracksSentence K (forLoop block) (forLoop block') (K.On Statement.relabel) Statement.span := by
  refine tracksSentence _ ?_ ?_
  · refine .andThen fun _ => .orElse ?_ ?_
    · iterate 7 refine .andThen fun _ => ?_
      exact buildsOver_pure fun _ => rfl
    · iterate 9 refine .andThen fun _ => ?_
      exact buildsOver_pure fun _ => rfl
  refine (keeps_keyword (by decide)).thenSame fun _ => ?_
  exact (forEachLoop_tracks hb hcommits).orElse (countingLoop_tracks hb hcommits)

/-- A branch ends with its block, wherever that ends. -/
theorem branch_tracks {k : Keyword} (hk : k ≠ .Rem) :
    K.Tracks .loose (branch block k) (branch block' k) (K.On Branch.relabel) := by
  have hline : K.Keeps .ends
      (advise (fun failure => { failure with help := some .singleLineIf }) requireTerminator)
      Relabel.plain :=
    keeps_requireTerminator.advise fun _ _ _ h =>
      ⟨h.construct, h.expected, h.suggestion, rfl, h.place, h.stopped, h.token⟩
  refine Tracks.spanned ?_
  refine (keeps_keyword hk).thenSame fun _ => ?_
  refine (keeps_requireExpression _).thenCommits (fun condition condition' h => ?_) (fun _ =>
    (commits_requireKeyword _).andThen
      fun _ => (commits_requireTerminator.advise _).andThen fun _ =>
      hcommits.andThen fun _ => commits_pure _) (by decide)
  refine (keeps_requireKeyword (by decide)).thenSame fun _ => ?_
  refine hline.thenStays (fun _ _ _ => ?_) fun _ => hcommits.andThen fun _ => commits_pure _
  refine hb.last fun body body' hbody span place hspan => ?_
  simp_all only [On, Branch.relabel]

theorem withBlock_tracks :
    TracksSentence K (withBlock block) (withBlock block') (K.On Statement.relabel)
      Statement.span := by
  refine tracksSentence _ ?_ ?_
  · iterate 5 refine .andThen fun _ => ?_
    exact buildsOver_pure fun _ => rfl
  refine (keeps_keyword (by decide)).thenSame fun _ => ?_
  have hclose {α : Type} (value : α) : Demands (requireEnd .With >>= fun _ => pure value) :=
    (demands_requireEnd _).andThen fun _ => commits_pure value
  refine (keeps_requireReference _).thenCommits (fun target target' htarget => ?_)
    (fun _ => commits_closedBlock hcommits fun _ => hclose _) (by decide)
  refine tracks_closedBlock hb hcommits (fun body body' hbody => ?_) fun _ => hclose _
  refine (keeps_requireEnd (by decide)).thenSame fun _ => ?_
  refine tracks_pure (fun span place hspan => ?_) _
  simp_all only [On, Statement.relabel]

omit hb hcommits in
theorem keeps_caseClause : K.Keeps .closed caseClause CaseClause.relabel := by
  refine Tracks.orElse ?_ ?_
  · refine (keeps_keyword (by decide)).thenSame fun _ => ?_
    refine (keeps_relation.require _).thenSame fun relation => ?_
    refine (keeps_requireExpression _).last fun bound bound' h => ?_
    simp_all only [On, CaseClause.relabel]
  · refine (keeps_requireExpression _).thenCommits (fun first first' hfirst => ?_) (fun _ =>
      (commits_after (commits_requireExpression _).advances _).andThen fun _ => commits_pure _)
      (by decide)
    refine ((keeps_requireExpression _).after (by decide)).last fun last last' hlast => ?_
    cases last <;> cases last' <;> simp_all [On, CaseClause.relabel]

theorem caseBlock_tracks :
    K.Tracks .loose (caseBlock block) (caseBlock block') (K.On CaseBlock.relabel) := by
  refine Tracks.spanned ?_
  refine (keeps_keyword (by decide)).thenSame fun _ => ?_
  refine (keeps_unlessKeyword (by decide)).thenSame fun _ => ?_
  refine (keeps_caseClause.separated keeps_caseClause rfl yields_caseClause.advances).thenCommits
    (fun clauses clauses' hclauses => ?_) (fun _ => commits_requireTerminator.andThen fun _ =>
      hcommits.andThen fun _ => commits_pure _) (by decide)
  refine keeps_requireTerminator.thenStays (fun _ _ _ => ?_) fun _ =>
    hcommits.andThen fun _ => commits_pure _
  refine hb.last fun body body' hbody span place hspan => ?_
  simp_all only [On, CaseBlock.relabel]

theorem elseBlock_tracks :
    K.Tracks .loose (elseBlock block) (elseBlock block') (K.On relabelBlock) := by
  refine (keeps_keyword (by decide)).thenSame fun _ => ?_
  refine (keeps_keyword (by decide)).thenSame fun _ => ?_
  exact keeps_requireTerminator.thenStays (fun _ _ _ => hb) fun _ => hcommits

include hyields hyields'

theorem conditional_tracks :
    TracksSentence K (conditional block) (conditional block') (K.On Statement.relabel)
      Statement.span := by
  have hothers : Advances (branch block .ElseIf) := (yields_branch hyields _).advances
  have hotherwise : Advances (requireTerminator *> block) :=
    advances_bind moves_requireTerminator fun _ => hyields.advances
  have hafter : K.Tracks .loose (requireTerminator *> block) (requireTerminator *> block')
      (K.On relabelBlock) :=
    keeps_requireTerminator.thenStays (fun _ _ _ => hb) fun _ => hcommits
  have hclose {α : Type} (value : α) : Demands (requireEnd .If >>= fun _ => pure value) :=
    (demands_requireEnd _).andThen fun _ => commits_pure value
  refine tracksSentence _ ?_ ?_
  · iterate 5 refine .andThen fun _ => ?_
    exact buildsOver_pure fun _ => rfl
  refine (branch_tracks hb hcommits (by decide)).thenFails (fun first first' hfirst => ?_) (fun _ =>
    (commits_many hothers).demands fun _ => commits_mark.demands fun _ =>
      (commits_after hotherwise _).demands fun _ => hclose _) (by decide)
  refine ((branch_tracks hb hcommits (by decide)).manyLoose
    ((yields_branch hyields _).moves.weaken Cursor.Opened.ahead)
    ((yields_branch hyields' _).moves.weaken Cursor.Opened.ahead)).thenFails
      (fun others others' h => ?_) (fun _ => commits_mark.demands fun _ =>
        (commits_after hotherwise _).demands fun _ => hclose _) (by decide)
  refine tracks_mark.andThen fun _ _ _ => ?_
  refine (hafter.after (by decide)).thenFails (fun otherwise otherwise' h => ?_)
    (fun _ => hclose _) (by decide)
  refine (keeps_requireEnd (by decide)).thenSame fun _ => ?_
  refine tracks_pure (fun span place hspan => ?_) _
  simp_all only [On, Statement.relabel, relabelBranches_eq_map, relabelOtherwise_eq_map]

theorem select_tracks :
    TracksSentence K (select block) (select block') (K.On Statement.relabel) Statement.span := by
  have hcases : Advances (caseBlock block) := (yields_caseBlock hyields).advances
  have helse : Advances (elseBlock block) := (yields_elseBlock hyields).advances
  have hclose {α : Type} (value : α) : Demands (requireEnd .Select >>= fun _ => pure value) :=
    (demands_requireEnd _).andThen fun _ => commits_pure value
  refine tracksSentence _ ?_ ?_
  · iterate 9 refine .andThen fun _ => ?_
    exact buildsOver_pure fun _ => rfl
  refine (keeps_keyword (by decide)).thenSame fun _ => ?_
  refine (keeps_requireKeyword (by decide)).thenSame fun _ => ?_
  have hall {α : Type} (f : List CaseBlock → Option (List Statement) → α) :
      Demands (many (caseBlock block) >>= fun cases => mark >>= fun _ =>
        opt (elseBlock block) >>= fun otherwise => requireEnd .Select >>= fun _ =>
          pure (f cases otherwise)) :=
    (commits_many hcases).demands fun _ => commits_mark.demands fun _ =>
      (commits_opt helse).demands fun _ => hclose _
  refine (keeps_requireExpression _).thenCommits (fun subject subject' hsubject => ?_) (fun _ =>
    commits_requireTerminator.andThen fun _ =>
      (commits_skipTrivia.demands fun _ => hall _).toCommits) (by decide)
  refine keeps_requireTerminator.thenFails (fun _ _ _ => ?_) (fun _ =>
    commits_skipTrivia.demands fun _ => hall _) (by decide)
  refine keeps_skipTrivia.thenFails (fun _ _ _ => ?_) (fun _ => hall _) (by decide)
  refine ((caseBlock_tracks hb hcommits).manyLoose
    ((yields_caseBlock hyields).moves.weaken Cursor.Opened.ahead)
    ((yields_caseBlock hyields').moves.weaken Cursor.Opened.ahead)).thenFails
      (fun cases cases' h => ?_) (fun _ => commits_mark.demands fun _ =>
        (commits_opt helse).demands fun _ => hclose _) (by decide)
  refine tracks_mark.andThen fun _ _ _ => ?_
  refine (elseBlock_tracks hb hcommits).opt.thenFails (fun otherwise otherwise' h => ?_)
    (fun _ => hclose _) (by decide)
  refine (keeps_requireEnd (by decide)).thenSame fun _ => ?_
  refine tracks_pure (fun span place hspan => ?_) _
  simp_all only [On, Statement.relabel, relabelCases_eq_map, relabelOtherwise_eq_map]

theorem codeStatement_tracks (word : Option Keyword) :
    K.Tracks .ends (codeStatement block word) (codeStatement block' word)
      (K.On Statement.relabel) := by
  unfold codeStatement
  split
  · exact keeps_assignment.tracks
  · exact keeps_assignment.tracks
  · exact keeps_localVariables.tracks
  · exact keeps_localVariables.tracks
  · exact keeps_redim.tracks
  · exact keeps_exit.tracks
  · exact keeps_jump.tracks
  · exact keeps_jump.tracks
  · exact keeps_onError.tracks
  · exact keeps_resume.tracks
  · exact keeps_explicitCall.tracks
  · exact keeps_raiseEvent.tracks
  · exact (whileLoop_tracks hb hcommits).tracks
  · exact (doLoop_tracks hb hcommits).tracks
  · exact (forLoop_tracks hb hcommits).tracks
  · exact (conditional_tracks hyields hyields' hb hcommits).tracks
  · exact (withBlock_tracks hb hcommits).tracks
  · exact (select_tracks hyields hyields' hb hcommits).tracks
  · exact keeps_assignment.tracks.orElse (keeps_label.orElse (keeps_implicitCall.orElse
      (tracks_unmatched _)))

end Compound

/-! ## Blocks -/

theorem keeps_block_of {p q : Parse Statement} (hp : Yields p Cursor.Ahead Statement.regions)
    (hq : Yields q Cursor.Ahead Statement.regions)
    (h : K.Tracks .ends p q (K.On Statement.relabel)) :
    K.Tracks .loose (many p) (many q) (K.On relabelBlock) := by
  have hmany := h.manyLoose hp.moves hq.moves
  simpa only [On, ← relabelBlock_eq_map] using hmany

/-- The word `Rem` starts a statement no more than a word that is no keyword. -/
theorem codeStatement_filter (block : Parse (List Statement)) (word : Option Keyword) :
    codeStatement block (word.filter (· ≠ .Rem)) = codeStatement block word := by
  cases word with
  | none => rfl
  | some k => cases k <;> rfl

theorem keeps_statement : K.Keeps .ends statement Statement.relabel := by
  refine Tracks.knot statementWith yields_statement
    (fun h => (congrFun (congrFun statement_eq _) _).trans (statementWith_congr h).symm)
    fun p q hp hq h => ?_
  refine Tracks.orElse (keeps_comment.map fun _ _ => congrArg Statement.comment) ?_
  refine Tracks.orElse (keeps_emptyLine.map fun _ _ => congrArg Statement.emptyLine) ?_
  refine Tracks.orElse (fun inside inside' c d hin hcd => ?_) (tracks_unmatched _)
  show K.Follows .ends _ (codeStatement (many p) c.peekKeyword inside c)
    (codeStatement (many q) d.peekKeyword inside' d)
  rw [← codeStatement_filter _ c.peekKeyword, ← codeStatement_filter _ d.peekKeyword,
    K.peekKeyword hcd]
  exact codeStatement_tracks (yields_statements hp) (yields_statements hq) (keeps_block_of hp hq h)
    (commits_many hp.advances) _ inside inside' c d hin hcd

theorem keeps_block : K.Keeps .loose block relabelBlock :=
  keeps_block_of yields_statement yields_statement keeps_statement

theorem commits_block : Commits block := commits_many yields_statement.advances

end Grammar

end VisualBasic
