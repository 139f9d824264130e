import VisualBasic.Proofs.Lookahead.Met
import VisualBasic.Proofs.Parse.Runs
import VisualBasic.Proofs.Parse.Unrolling
import VisualBasic.Proofs.Reading.Reference
import VisualBasic.Proofs.Routine.Agreement

/-!
# Where a block ends

A statement is told from its first word, or from a dot before its first word, unless a comment or an
empty line comes next. Whatever statement is told so matches or fails. So a block goes on for as
long as a statement is told, and ends at the first place where none is.
-/

set_option autoImplicit false

namespace VisualBasic

namespace Cursor

/-- Whether code that starts a statement comes next: a keyword of a statement, a word that is not
reserved, or a dot and such a word. -/
def beginsStatement (c : Cursor) : Bool :=
  match c.peekWord with
  | some word => (Keyword.lookup word).any Keyword.isStatementWord || ! isReservedWord word
  | none => (c.symbol '.').any fun d => d.identifier.isSome

/-- Neither a comment nor an empty line nor a statement with code comes next. -/
structure EndsBlock (c : Cursor) : Prop where
  commentMark : c.commentMark = none
  blankLine : c.blankLine = none
  code : c.beginsStatement = false

end Cursor

namespace Grammar

open Parse

/-! ## Statements with a keyword -/

theorem metBy_localVariables :
    MetBy localVariables fun c => c.peekKeyword = some .Dim ∨ c.peekKeyword = some .Static := by
  refine MetBy.sentence (MetBy.andThen ?_ fun kind => ?_) (fun c => by simp) _
  · exact (metBy_oneOf _).congr fun c => by simp
  · exact (Resolves.separated (resolves_require _ _) _).andThen fun _ => resolves_pure _

theorem metBy_redim : MetBy redim fun c => c.peekKeyword = some .ReDim := by
  refine MetBy.sentence ((metBy_keyword _).andThen fun _ => ?_) (fun c => by simp) _
  refine (resolves_flag _).andThen fun _ => (resolves_require _ _).andThen fun _ => ?_
  refine (resolves_require _ _).andThen fun _ => (resolves_require _ _).andThen fun _ => ?_
  exact (resolves_require _ _).andThen fun _ => resolves_pure _

theorem metBy_exit : MetBy exit fun c => c.peekKeyword = some .Exit :=
  MetBy.sentence ((metBy_keyword _).andThen fun _ =>
    (resolves_require _ _).andThen fun _ => resolves_pure _) (fun c => by simp) _

theorem metBy_jump :
    MetBy jump fun c => c.peekKeyword = some .GoTo ∨ c.peekKeyword = some .GoSub := by
  refine MetBy.sentence (MetBy.andThen ?_ fun kind => ?_) (fun c => by simp) _
  · exact (metBy_oneOf _).congr fun c => by simp
  · exact (resolves_requireName _).andThen fun _ => resolves_pure _

theorem metBy_onError : MetBy onError fun c => c.peekKeyword = some .On :=
  MetBy.sentence ((metBy_keyword _).andThen fun _ => (resolves_requireKeyword _).andThen fun _ =>
    (resolves_require _ _).andThen fun _ => resolves_pure _) (fun c => by simp) _

theorem metBy_resume : MetBy resume fun c => c.peekKeyword = some .Resume := by
  have hpoint : Resolves resumePoint := resolves_nextToken.andThen fun _ =>
    Resolves.firstOf (p := pure .unwritten) (by simp) (resolves_pure _)
  exact MetBy.sentence ((metBy_keyword _).andThen fun _ => hpoint.andThen fun _ => resolves_pure _)
    (fun c => by simp) _

theorem resolves_requireArguments : Resolves requireArguments := by
  intro inside c h
  unfold requireArguments at h
  split at h
  · contradiction
  · exact resolves_fail _ _ _ h

theorem metBy_explicitCall : MetBy explicitCall fun c => c.peekKeyword = some .Call := by
  refine MetBy.sentence ((metBy_keyword _).andThen fun _ => ?_) (fun c => by simp) _
  refine resolves_mark.andThen fun _ => (resolves_require _ _).andThen fun _ => ?_
  exact (resolves_require _ _).andThen fun _ => resolves_requireArguments.andThen fun _ =>
    resolves_pure _

theorem metBy_raiseEvent : MetBy raiseEvent fun c => c.peekKeyword = some .RaiseEvent := by
  refine MetBy.sentence ((metBy_keyword _).andThen fun _ => ?_) (fun c => by simp) _
  refine (resolves_requireName _).andThen fun _ => (resolves_require _ _).andThen fun _ => ?_
  exact resolves_requireArguments.andThen fun _ => resolves_pure _

section Compound

variable {block : Parse (List Statement)} (hb : Resolves block)

include hb

theorem metBy_whileLoop : MetBy (whileLoop block) fun c => c.peekKeyword = some .While := by
  refine MetBy.sentence ((metBy_keyword _).andThen fun _ => ?_) (fun c => by simp) _
  refine (resolves_require _ _).andThen fun _ => resolves_requireTerminator.andThen fun _ => ?_
  exact hb.andThen fun _ => (resolves_requireKeyword _).andThen fun _ => resolves_pure _

theorem metBy_doLoop : MetBy (doLoop block) fun c => c.peekKeyword = some .Do := by
  refine MetBy.sentence ((metBy_keyword _).andThen fun _ => ?_) (fun c => by simp) _
  refine (resolves_opt _).andThen fun first => resolves_requireTerminator.andThen fun _ => ?_
  refine hb.andThen fun body => (resolves_requireKeyword _).andThen fun _ => ?_
  refine resolves_nextToken.andThen fun place => (resolves_opt _).andThen fun last => ?_
  split
  · exact (resolves_failAt _ _).advise _
  · exact resolves_pure _
  · exact resolves_pure _
  · exact resolves_pure _

theorem metBy_forLoop : MetBy (forLoop block) fun c => c.peekKeyword = some .For := by
  refine MetBy.sentence ((metBy_keyword _).andThen fun _ => Resolves.second ?_ _)
    (fun c => by simp) _
  refine (resolves_require _ _).andThen fun _ => (resolves_require _ _).andThen fun _ => ?_
  refine (resolves_require _ _).andThen fun _ => (resolves_requireKeyword _).andThen fun _ => ?_
  refine (resolves_require _ _).andThen fun _ => (resolves_after _ _).andThen fun _ => ?_
  refine resolves_requireTerminator.andThen fun _ => hb.andThen
    fun _ => Resolves.andThen ?_ fun _ =>
    resolves_pure _
  exact (resolves_requireKeyword _).andThen fun _ => (resolves_opt _).andThen
    fun _ => resolves_pure _

theorem metBy_branch (k : Keyword) : MetBy (branch block k) fun c => c.peekKeyword = some k := by
  refine MetBy.spanned ((metBy_keyword _).andThen fun _ => ?_) fun c => by simp
  refine (resolves_require _ _).andThen fun _ => (resolves_requireKeyword _).andThen fun _ => ?_
  exact (resolves_requireTerminator.advise _).andThen fun _ => hb.andThen fun _ => resolves_pure _

theorem metBy_conditional : MetBy (conditional block) fun c => c.peekKeyword = some .If := by
  refine MetBy.sentence ((metBy_branch hb _).andThen fun _ => ?_) (fun c => by simp) _
  refine (many_ne_unmatched _).andThen fun _ => resolves_mark.andThen fun _ => ?_
  exact (resolves_after _ _).andThen fun _ => (resolves_requireEnd _).andThen
    fun _ => resolves_pure _

theorem metBy_withBlock : MetBy (withBlock block) fun c => c.peekKeyword = some .With := by
  refine MetBy.sentence ((metBy_keyword _).andThen fun _ => ?_) (fun c => by simp) _
  refine (resolves_require _ _).andThen fun _ => resolves_requireTerminator.andThen fun _ => ?_
  exact hb.andThen fun _ => (resolves_requireEnd _).andThen fun _ => resolves_pure _

omit hb in
theorem metBy_select : MetBy (select block) fun c => c.peekKeyword = some .Select := by
  refine MetBy.sentence ((metBy_keyword _).andThen fun _ => ?_) (fun c => by simp) _
  refine (resolves_requireKeyword _).andThen fun _ => (resolves_require _ _).andThen fun _ => ?_
  refine resolves_requireTerminator.andThen fun _ => Resolves.andThen ?_ fun _ => ?_
  · exact (many_ne_unmatched _).andThen fun _ => resolves_pure _
  · refine (many_ne_unmatched _).andThen fun _ => resolves_mark.andThen fun _ => ?_
    exact (resolves_opt _).andThen fun _ => (resolves_requireEnd _).andThen fun _ => resolves_pure _

end Compound

/-! ## Statements without a keyword -/

/-- The place of the name of a called procedure, past the dot that may come before it. -/
theorem procedureName_isSome_iff (c : Cursor) :
    (procedureName c).isSome ↔
      ((c.skipBlanks.adjacent '.').getD c.skipBlanks).identifier.isSome := by
  unfold procedureName
  cases h : ((c.skipBlanks.adjacent '.').getD c.skipBlanks).identifier <;> simp [h]

/-- A called procedure is named by a word that is not reserved, perhaps after a dot. -/
theorem procedureName_isSome_eq (c : Cursor) :
    (procedureName c).isSome =
      match c.peekWord with
      | some word => ! isReservedWord word
      | none => (c.symbol '.').any fun d => d.identifier.isSome := by
  rw [Bool.eq_iff_iff, procedureName_isSome_iff, Cursor.peekWord, Cursor.symbol]
  cases hword : c.word with
  | some found =>
    rw [Cursor.adjacent_eq_none_of_word hword rfl, Option.getD_none, Cursor.identifier_skipBlanks]
    simp [Cursor.identifier, hword]
  | none =>
    cases c.skipBlanks.adjacent '.' with
    | some d => simp
    | none => simp [Cursor.identifier, hword]

variable {inside : List Construct} {c : Cursor}

theorem metBy_implicitCall : MetBy implicitCall fun c => (procedureName c).isSome := by
  refine MetBy.within (MetBy.mark (fun start => ?_) fun c => ?_) _
  · refine (metBy_read procedureName).andThen fun name => Resolves.andThen ?_ fun found => ?_
    · refine Resolves.second ((resolves_opt _).andThen fun _ => ?_) _
      exact resolves_here.andThen fun _ => resolves_requireTerminator.andThen
        fun _ => resolves_pure _
    · exact resolves_pure _
  · rw [procedureName_isSome_iff, procedureName_isSome_iff, Cursor.skipBlanks_skipBlanks]

theorem label_eq_unmatched (h : c.identifier = none) : label inside c = .unmatched := by
  have hname : identifier (.label :: inside) c.skipBlanks = .unmatched :=
    read_eq_unmatched (by rw [Cursor.identifier_skipBlanks, h])
  simp only [label, within, spanned, mark, bind_apply, hname]

/-- A reference starts as the name of a procedure does. -/
theorem reference_eq_none (h : (procedureName c).isSome = false) :
    reference expression c = none := by
  cases href : reference expression c with
  | none => rfl
  | some found =>
    obtain ⟨name, hname⟩ := atName_of_reference (d := found.2) href
    have hsome : (procedureName c).isSome = true := by
      rw [procedureName_isSome_iff, hname]
      rfl
    rw [hsome] at h
    contradiction

theorem identifier_eq_none (h : (procedureName c).isSome = false) : c.identifier = none := by
  rw [procedureName_isSome_eq] at h
  rw [← Option.not_isSome_iff_eq_none, Cursor.identifier_isSome_iff]
  rintro ⟨word, hword, hreserved⟩
  simp [hword, hreserved] at h

theorem assignment_eq_unmatched (hset : c.peekKeyword ≠ some .Set)
    (hlet : c.peekKeyword ≠ some .Let) (h : (procedureName c).isSome = false) :
    assignment inside c = .unmatched := by
  refine sentence_eq_unmatched ?_
  have htarget : anyReference (.assignment :: inside) c.skipBlanks = .unmatched :=
    read_eq_unmatched (by rw [reference_skipBlanks, reference_eq_none h])
  rw [bind_apply, opt_oneOf_eq_none (by simp [hset, hlet])]
  exact bind_eq_unmatched htarget _

theorem assignment_ne_unmatched (h : c.peekKeyword = some .Set ∨ c.peekKeyword = some .Let) :
    assignment inside c ≠ .unmatched := by
  refine sentence_ne_unmatched ?_
  obtain ⟨kind, after, hkind⟩ := opt_oneOf_eq_some (c := c.skipBlanks)
    [(Keyword.Set, AssignmentKind.Set), (.Let, .Let)] (by simpa using h) (.assignment :: inside)
  refine bind_ne_unmatched hkind ?_
  refine (resolves_require _ _).andThen fun target => (resolves_require _ _).andThen fun _ => ?_
  exact (resolves_require _ _).andThen fun _ => resolves_pure _

/-- A statement that no keyword introduces: an assignment, a label or a call. -/
theorem plain_eq_unmatched_iff (hset : c.peekKeyword ≠ some .Set)
    (hlet : c.peekKeyword ≠ some .Let) :
    firstOf [assignment, label, implicitCall] inside c = .unmatched ↔
      (procedureName c).isSome = false := by
  constructor
  · intro h
    rw [Bool.eq_false_iff]
    intro hname
    have hcall : implicitCall inside c ≠ .unmatched := metBy_implicitCall.ne_unmatched hname
    exact firstOf_ne_unmatched (by simp) hcall h
  · intro h
    have hcall : implicitCall inside c = .unmatched := metBy_implicitCall.unmatched (by simp [h])
    change assignment.orElse (label.orElse (implicitCall.orElse unmatched)) inside c = .unmatched
    rw [orElse_of_unmatched (assignment_eq_unmatched hset hlet h),
      orElse_of_unmatched (label_eq_unmatched (identifier_eq_none h)), orElse_of_unmatched hcall]
    rfl

/-! ## Statements -/

theorem codeStatement_ne_unmatched {block : Parse (List Statement)} (hb : Resolves block)
    {k : Keyword} (hk : k.isStatementWord = true) (h : c.peekKeyword = some k) :
    codeStatement block (some k) inside c ≠ .unmatched := by
  simp only [Keyword.isStatementWord, List.contains_eq_mem, decide_eq_true_eq, List.mem_cons,
    List.not_mem_nil, or_false] at hk
  rcases hk with rfl | rfl | rfl | rfl | rfl | rfl | rfl | rfl | rfl | rfl | rfl | rfl | rfl | rfl |
    rfl | rfl | rfl | rfl
  · exact assignment_ne_unmatched (.inl h)
  · exact assignment_ne_unmatched (.inr h)
  · exact metBy_localVariables.ne_unmatched (.inl h)
  · exact metBy_localVariables.ne_unmatched (.inr h)
  · exact metBy_redim.ne_unmatched h
  · exact metBy_exit.ne_unmatched h
  · exact metBy_jump.ne_unmatched (.inl h)
  · exact metBy_jump.ne_unmatched (.inr h)
  · exact metBy_onError.ne_unmatched h
  · exact metBy_resume.ne_unmatched h
  · exact metBy_explicitCall.ne_unmatched h
  · exact metBy_raiseEvent.ne_unmatched h
  · exact (metBy_whileLoop hb).ne_unmatched h
  · exact (metBy_doLoop hb).ne_unmatched h
  · exact (metBy_forLoop hb).ne_unmatched h
  · exact (metBy_conditional hb).ne_unmatched h
  · exact (metBy_withBlock hb).ne_unmatched h
  · exact metBy_select.ne_unmatched h

/-- The first word tells whether a statement with code is met. -/
theorem metBy_codeStatement {block : Parse (List Statement)} (hb : Resolves block) :
    MetBy (fun inside c => codeStatement block c.peekKeyword inside c)
      fun c => c.beginsStatement = true := by
  intro inside c
  dsimp only
  cases hword : c.peekKeyword.any Keyword.isStatementWord with
  | true =>
    obtain ⟨k, hk, hstarts⟩ := (Option.any_eq_true _ _).mp hword
    have hbegins : c.beginsStatement = true := by
      obtain ⟨word, hpeek, hlookup⟩ := Option.bind_eq_some_iff.mp hk
      simp [Cursor.beginsStatement, hpeek, hlookup, hstarts]
    rw [hk]
    simpa [hbegins] using codeStatement_ne_unmatched hb hstarts hk
  | false =>
    have hplain : c.beginsStatement = (procedureName c).isSome := by
      rw [procedureName_isSome_eq, Cursor.beginsStatement]
      cases hpeek : c.peekWord with
      | none => rfl
      | some word =>
        have hnot : (Keyword.lookup word).any Keyword.isStatementWord = false := by
          simpa [Cursor.peekKeyword, hpeek] using hword
        simp [hnot]
    have hne (k : Keyword) (hk : k.isStatementWord = true) : c.peekKeyword ≠ some k := by
      intro h
      simp [h, hk] at hword
    rw [codeStatement_eq_firstOf block hword, plain_eq_unmatched_iff (hne .Set rfl) (hne .Let rfl),
      hplain, Bool.not_eq_true]

/-- A statement is a comment, an empty line or code. -/
theorem statement_eq_orElse : statement = (Statement.comment <$> read comment).orElse
    ((Statement.emptyLine <$> read emptyLine).orElse
      fun inside c => codeStatement (many statement) c.peekKeyword inside c) := by
  rw [← firstOf_singleton fun inside c => codeStatement (many statement) c.peekKeyword inside c]
  exact statement_eq

theorem statement_eq_unmatched_iff (inside : List Construct) (c : Cursor) :
    statement inside c = .unmatched ↔ c.EndsBlock := by
  have hall := (metBy_comment.map Statement.comment).orElse
    ((metBy_emptyLine.map Statement.emptyLine).orElse
      (metBy_codeStatement (many_ne_unmatched statement)))
  rw [statement_eq_orElse, hall inside c]
  rw [not_or, not_or, Option.not_isSome_iff_eq_none, Option.not_isSome_iff_eq_none,
    Bool.not_eq_true]
  exact ⟨fun ⟨hmark, hblank, hcode⟩ => ⟨hmark, hblank, hcode⟩,
    fun ⟨hmark, hblank, hcode⟩ => ⟨hmark, hblank, hcode⟩⟩

theorem statement_eq_codeStatement (hmark : c.commentMark = none) (hline : c.blankLine = none) :
    statement inside c = codeStatement (many statement) c.peekKeyword inside c := by
  have hcomment : (Statement.comment <$> read comment) inside c = .unmatched :=
    (metBy_comment.map Statement.comment).unmatched (by simp [hmark])
  have hempty : (Statement.emptyLine <$> read emptyLine) inside c = .unmatched :=
    (metBy_emptyLine.map Statement.emptyLine).unmatched (by simp [hline])
  refine (congrFun (congrFun statement_eq_orElse inside) c).trans ?_
  exact (orElse_of_unmatched hcomment _).trans (orElse_of_unmatched hempty _)

theorem block_eq_matched_iff (inside : List Construct) (c : Cursor) (body : List Statement)
    (d : Cursor) :
    block inside c = .matched body d ↔ Runs statement inside c body d ∧ d.EndsBlock ∧
      ∀ n < body.length, ∃ e, Runs statement inside c (body.take n) e ∧ ¬ e.EndsBlock := by
  refine ⟨fun h => ?_, fun h => ?_⟩
  · have hruns := runs_of_many h
    refine ⟨hruns, ?_, fun n hn => ?_⟩
    · obtain ⟨values, last, _, _, ⟨hstop, hmany⟩ | ⟨failure, _, hmany⟩⟩ :=
        finishes_of_moves yields_statement.moves inside c
      · cases h.symm.trans hmany
        exact (statement_eq_unmatched_iff inside d).mp hstop
      · cases h.symm.trans hmany
    · obtain ⟨e, value, after, hbefore, hnext⟩ := hruns.exists_take hn
      refine ⟨e, hbefore, fun hend => ?_⟩
      rw [(statement_eq_unmatched_iff inside e).mpr hend] at hnext
      contradiction
  · exact h.1.many_eq yields_statement.moves ((statement_eq_unmatched_iff inside d).mpr h.2.1)

end Grammar

namespace Routine

/-- Matches of a routine one after the other, each from where the one before it ends. -/
inductive Runs {α : Type} (m : Routine α) : Session → List α → Cursor → Prop
  | nil (s : Session) : Runs m s [] s.cursor
  | cons {s : Session} {value : α} {values : List α} {c d : Cursor} (first : m.Matches s value c)
    (rest : Runs m { s with cursor := c } values d) : Runs m s (value :: values) d

theorem runs_iff {α : Type} {m : Routine α} {p : Parse α} {s : Session} {values : List α}
    {d : Cursor} (h : Guide.same.Tracks .kept m p Eq) :
    m.Runs s values d ↔ p.Runs s.inside s.cursor values d := by
  constructor
  · intro hruns
    induction hruns with
    | nil s => exact .nil s.cursor
    | cons first _ ih => exact .cons (h.matches_iff.mp first) ih
  · intro hruns
    generalize hinside : s.inside = inside at hruns
    generalize hc : s.cursor = c at hruns
    induction hruns generalizing s with
    | nil c =>
      subst hc
      exact .nil s
    | cons first _ ih =>
      subst hinside hc
      exact .cons (h.matches_iff.mpr first) (ih rfl rfl)

/-- A statement is left unmatched exactly where none is told, and a block ends at the first such
place of those where its statements start. -/
theorem block_matches_iff (s : Session) :
    ((statement.run s).step = .unmatched ↔ s.cursor.EndsBlock) ∧
      ∀ body c, block.Matches s body c ↔ statement.Runs s body c ∧ c.EndsBlock ∧
        ∀ n < body.length, ∃ d, statement.Runs s (body.take n) d ∧ ¬ d.EndsBlock := by
  have hblock : Guide.same.Tracks .kept block Grammar.block Eq :=
    (Guide.tracks_block.exact relabelBlock_same).anyhow .kept
  constructor
  · rw [Guide.tracks_statement_exactly.step_eq_unmatched_iff]
    exact Grammar.statement_eq_unmatched_iff s.inside s.cursor
  · intro body c
    simp only [hblock.matches_iff, runs_iff Guide.tracks_statement_exactly]
    exact Grammar.block_eq_matched_iff s.inside s.cursor body c

end Routine

end VisualBasic
