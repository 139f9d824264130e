import VisualBasic.Proofs.Correspondence.Staying
import VisualBasic.Proofs.Parse.Runs
import VisualBasic.Proofs.Parse.Unrolling

/-!
# Repetitions and recursion of the grammar

Every round of a repetition passes over some text, so no repetition goes on for ever; and a rule
that uses itself does so only where less text is left.
-/

set_option autoImplicit false

namespace VisualBasic

namespace Grammar

open Cursor (Reaches Ahead)
open Parse

/-! ## Repetitions of parsers -/

/-- A parser that passes over a token first passes over some text. -/
theorem moves_ahead_andThen {α β : Type} {p : Parse α} {f : α → Parse β}
    (hp : Moves p Ahead) (hf : ∀ value, Advances (f value)) : Moves (p >>= f) Ahead := by
  intro inside c value after hm
  obtain ⟨first, middle, hfirst, hm⟩ := matched_bind hm
  obtain ⟨hreach, hlt⟩ := hp _ _ _ _ hfirst
  have hrest := hf _ _ _ _ _ hm
  exact ⟨hreach.trans hrest, Nat.lt_of_le_of_lt hrest.length_le hlt⟩

theorem moves_memberLine {α : Type} {member : Parse α} (h : Moves member Cursor.Token) :
    Moves (memberLine member) Ahead :=
  moves_ahead_andThen (h.weaken Cursor.Token.ahead)
    fun _ => advances_bind moves_requireTerminator.advances fun _ =>
    advances_bind moves_skipTrivia.advances fun _ => advances_pure _

theorem moves_branch (k : Keyword) : Moves (branch block k) Ahead :=
  (yields_branch yields_block k).moves.weaken Cursor.Opened.ahead

theorem moves_caseBlock : Moves (caseBlock block) Ahead :=
  (yields_caseBlock yields_block).moves.weaken Cursor.Opened.ahead

/-- A comma and what follows it. -/
theorem moves_comma_seqRight {α : Type} {p : Parse α} (h : Advances p) :
    Moves (symbol ',' *> p) Ahead :=
  moves_ahead_andThen ((begins_symbol (by decide)).weaken Cursor.Begun.ahead) fun _ => h

/-! ## Repetitions of readers -/

theorem read_eq_matched_iff {α : Type} {reader : Reader α} {inside : List Construct} {c d : Cursor}
    {value : α} : Parse.read reader inside c = .matched value d ↔ reader c = some (value, d) := by
  unfold Parse.read
  cases reader c with
  | none => simp
  | some found => simp [Prod.ext_iff]

theorem moves_segment : Moves (Parse.read (segment expression)) Ahead :=
  moves_read fun h => (segment_lays expression_lays h).1.ahead

/-- The segments of a qualifier are a repetition of one segment. -/
theorem many_segment (inside : List Construct) (c : Cursor) :
    many (Parse.read (segment expression)) inside c =
      .matched (segments expression c).1 (segments expression c).2 := by
  fun_induction segments expression c with
  | case1 c hstop => rw [many, Parse.read, hstop]
  | case2 c head d hhead _ tail e htail ih =>
    rw [many_eq_of_matched moves_segment (read_eq_matched_iff.mpr hhead), bind_apply, ih, htail]
    rfl
  | case3 c head d hhead hge =>
    exact absurd (moves_segment inside c head d (read_eq_matched_iff.mpr hhead)).2 hge

theorem moves_member : Moves (Parse.read Cursor.member) Ahead := by
  refine moves_read fun h => ?_
  obtain ⟨e, he, h⟩ := Option.bind_eq_some_iff.mp h
  split at h
  · have hdot := Cursor.begun_of_adjacent (by decide) he
    exact (hdot.token (Cursor.token_of_word h)).ahead
  · contradiction

/-- An argument that another one must follow: a round of the repetition that goes on. -/
def argumentRound (expression : Reader Expression) : Reader Expression := fun c =>
  (expression c).bind fun found =>
    if (found.2.symbol ')').isSome then none
    else (found.2.symbol ',').map fun next => (found.1, next)

/-- The argument that is the last one if a parenthesis follows it. -/
def lastArgument (expression : Reader Expression) (c : Cursor) :
    Except Cursor (List Expression × Cursor) :=
  match expression c with
  | none => .error c
  | some (argument, d) =>
    match d.symbol ')' with
    | some closed => .ok ([argument], closed)
    | none => .error d

theorem moves_argumentRound : Moves (Parse.read (argumentRound expression)) Ahead := by
  refine moves_read fun h => ?_
  obtain ⟨found, hfound, h⟩ := Option.bind_eq_some_iff.mp h
  split at h
  · contradiction
  · obtain ⟨next, hnext, h⟩ := Option.map_eq_some_iff.mp h
    cases h
    have hargument := (expression_lays _ _ _ hfound).1
    exact (hargument.begun.trans (Cursor.begun_of_symbol (by decide) hnext)).ahead

/-- Arguments are a repetition of rounds and a last argument. -/
theorem moreArguments_eq_of_runs {inside : List Construct} {c d : Cursor}
    {values : List Expression}
    (h : Runs (Parse.read (argumentRound expression)) inside c values d)
    (hstop : argumentRound expression d = none) :
    moreArguments expression c =
      (lastArgument expression d).map fun found => (values ++ found.1, found.2) := by
  induction h with
  | nil c =>
    rw [moreArguments, lastArgument]
    cases hargument : expression c with
    | none => rfl
    | some found =>
      obtain ⟨argument, e⟩ := found
      dsimp only
      cases hclose : e.symbol ')' with
      | some closed => rfl
      | none =>
        have hcomma : e.symbol ',' = none := by
          simpa [argumentRound, hargument, hclose] using hstop
        rw [hcomma]
        rfl
  | @cons c next d argument rest hfirst _ ih =>
    have hround := read_eq_matched_iff.mp hfirst
    obtain ⟨found, hfound, hround⟩ := Option.bind_eq_some_iff.mp hround
    split at hround
    · contradiction
    · rename_i hopen
      obtain ⟨_, hcomma, hround⟩ := Option.map_eq_some_iff.mp hround
      cases hround
      rw [moreArguments, hfound]
      have hlt := (moves_argumentRound _ _ _ _ hfirst).2
      simp only [Option.not_isSome_iff_eq_none.mp hopen, hcomma, if_pos hlt, ih hstop]
      cases lastArgument expression d <;> rfl

end Grammar

open Parse Grammar in
/-- The repetitions of the grammar come to an end, wherever they start. Those of segments and of
arguments are written as recursive readers, which do what the repetition of their rounds does. -/
structure RepetitionsFinish : Prop where
  items : Finishes item
  statements : Finishes statement
  trivia : Finishes triviaLine
  recordMembers : Finishes (memberLine declaredVariable)
  enumItems : Finishes (memberLine enumItem)
  branches : Finishes (branch block .ElseIf)
  caseBlocks : Finishes (caseBlock block)
  segments : Finishes (Parse.read (segment expression))
  segments_eq (inside : List Construct) (c : Cursor) :
    many (Parse.read (segment expression)) inside c =
      .matched (Grammar.segments expression c).1 (Grammar.segments expression c).2
  arguments : Finishes (Parse.read (argumentRound expression))
  arguments_eq {inside : List Construct} {c d : Cursor} {values : List Expression}
    (h : Runs (Parse.read (argumentRound expression)) inside c values d)
    (hstop : argumentRound expression d = none) :
    moreArguments expression c =
      (lastArgument expression d).map fun found => (values ++ found.1, found.2)
  members : Finishes (Parse.read Cursor.member)
  afterComma {α : Type} {p : Parse α} (h : Advances p) : Finishes (symbol ',' *> p)

open Parse Grammar in
/-- A rule that uses itself asks only for what it comes to where less text is left. -/
structure RecursionDescends : Prop where
  expression (reader : Reader Expression) (c : Cursor)
    (h : ∀ d, d.rest.length < c.rest.length → reader d = Grammar.expression d) :
    expressionWith reader c = Grammar.expression c
  statement (inner : Parse Statement) (inside : List Construct) (c : Cursor)
    (h : ∀ inside d, d.rest.length < c.rest.length → inner inside d = Grammar.statement inside d) :
    statementWith inner inside c = Grammar.statement inside c

namespace Grammar

open Parse

theorem repetitionsFinish : RepetitionsFinish where
  items := finishes_of_moves yields_item.moves
  statements := finishes_of_moves yields_statement.moves
  trivia := finishes_of_moves moves_triviaLine
  recordMembers := finishes_of_moves (moves_memberLine yields_declaredVariable.moves)
  enumItems := finishes_of_moves (moves_memberLine moves_enumItem)
  branches := finishes_of_moves (moves_branch .ElseIf)
  caseBlocks := finishes_of_moves moves_caseBlock
  segments := finishes_of_moves moves_segment
  segments_eq := many_segment
  arguments := finishes_of_moves moves_argumentRound
  arguments_eq := moreArguments_eq_of_runs
  members := finishes_of_moves moves_member
  afterComma h := finishes_of_moves (moves_comma_seqRight h)

theorem recursionDescends : RecursionDescends where
  expression reader c h := by
    rw [expression_eq]
    exact expressionWith_congr fun d hd =>
      h d (Nat.lt_of_lt_of_le hd (Cursor.reaches_skipBlanks c).length_le)
  statement inner inside c h := by
    rw [statement_eq]
    exact statementWith_congr fun inside d hd =>
      h inside d (Nat.lt_of_lt_of_le hd (Cursor.reaches_skipBlanks c).length_le)

end Grammar

end VisualBasic
