import Mathlib.Logic.Function.Iterate
import VisualBasic.Proofs.Progress.Repetition
import VisualBasic.Proofs.Routine.Agreement

/-!
# Loops and recursion of routines

The loops of scanners and routines are guarded, so that a turn which does not move on would be the
last one, and a routine that uses itself is guarded in the same way. No guard ever acts. A turn that
asks for another one has passed over some text, so a loop comes to what its turns come to, one after
the other, until one of them is the last. And a routine uses itself no deeper than its text is long.
-/

set_option autoImplicit false

namespace VisualBasic

namespace Scanner

variable {σ : Type}

/-- What the turns of a loop come to, one after the other until one is the last. -/
inductive Takes (turn : σ → Scanner (ForInStep σ)) : σ → Cursor → Scanned σ → Prop
  | done {state last : σ} {c d : Cursor} {notes : List Nat}
    (h : (turn state).run c = ⟨.done last, d, notes⟩) : Takes turn state c ⟨last, d, notes⟩
  | yield {state next : σ} {c d : Cursor} {notes : List Nat} {last : Scanned σ}
    (h : (turn state).run c = ⟨.yield next, d, notes⟩) (rest : Takes turn next d last) :
    Takes turn state c (last.after notes)

/-- From every place the loop comes to what its turns come to. -/
def LoopFinishes (turn : σ → Scanner (ForInStep σ)) : Prop :=
  ∀ state c, Takes turn state c ((loop turn state).run c)

/-- Every turn that asks for another one moves on. -/
def MovesOn (turn : σ → Scanner (ForInStep σ)) : Prop :=
  ∀ state c next d notes, (turn state).run c = ⟨.yield next, d, notes⟩ →
    d.rest.length < c.rest.length

theorem MovesOn.finishes {turn : σ → Scanner (ForInStep σ)} (h : MovesOn turn) :
    LoopFinishes turn := by
  intro state c
  change Takes turn state c (loopFrom turn state c)
  induction hn : c.rest.length using Nat.strongRecOn generalizing state c with
  | _ n ih =>
    rw [loopFrom]
    cases hturn : (turn state).run c with
    | mk value d notes =>
      cases value with
      | done last =>
        rw [Scanned.mk_andThen, Scanned.after]
        exact .done (by rw [hturn, List.append_nil])
      | yield next =>
        have hlt := h _ _ _ _ _ hturn
        rw [Scanned.mk_andThen]
        dsimp only
        rw [if_pos hlt]
        exact .yield hturn (ih _ (by omega) next d rfl)

theorem movesOn_skipTurn (p : Char → Bool) : MovesOn (skipTurn p) := by
  intro state c next d notes h
  rw [run_skipTurn] at h
  cases hrest : c.rest with
  | nil => simp [hrest] at h
  | cons char rest =>
    split at h
    · cases h
      simp [Cursor.rest_next, hrest]
    · cases h

theorem movesOn_blanksTurn : MovesOn blanksTurn := by
  intro state c next d notes h
  have hblanks := (Cursor.reaches_skip (c.rest.takeWhile isBlank).length c).length_le
  rw [run_blanksTurn] at h
  generalize c.skip (c.rest.takeWhile isBlank).length = e at h hblanks
  rw [run_lineContinuation] at h
  generalize continuationWidth (e.rest.drop 1) = width at h
  split at h
  · rename_i hmark
    cases width with
    | none => cases h
    | some n =>
      cases h
      have hne : e.rest ≠ [] := by
        intro hnil
        simp [hnil] at hmark
      have hpos := List.length_pos_iff.mpr hne
      change (e.skip (n + 1)).rest.length < c.rest.length
      rw [Cursor.rest_skip, List.length_drop]
      omega
  · cases h

theorem movesOn_quotedTurn : MovesOn quotedTurn := by
  intro value c next d notes h
  cases hrest : c.rest with
  | nil => simp [quotedTurn, hrest] at h
  | cons char rest =>
    have hnext : c.next.rest = rest := by rw [Cursor.rest_next, hrest]; rfl
    have hlt : c.next.rest.length < (char :: rest).length := by
      rw [hnext, List.length_cons]
      omega
    simp only [quotedTurn, run_bind, run_peekChar, hrest, List.head?_cons, Scanned.mk_andThen,
      Scanned.after_nil] at h
    split at h
    · simp only [run_bind, run_bump, run_peekChar, hnext, Scanned.mk_andThen, Scanned.after_nil,
        run_if] at h
      split at h
      · cases h
        rw [Cursor.rest_next, List.length_drop]
        omega
      · cases h
    · cases h
    · cases h
    · cases h
    · cases h
      exact hlt

theorem movesOn_memberTurn : MovesOn memberTurn := by
  intro names c next d notes h
  rw [run_memberTurn] at h
  cases hmember : c.member with
  | none =>
    rw [hmember] at h
    cases h
  | some found =>
    rw [hmember] at h
    cases h
    exact (Grammar.token_of_member hmember).length_lt

end Scanner

namespace Routine

variable {α σ : Type}

/-! ## Loops of routines -/

/-- What the turns of a loop come to, one after the other until one is the last, or does not match,
or fails. -/
inductive Takes (turn : σ → Routine (ForInStep σ)) : σ → Session → Parsed σ → Prop
  | done {state last : σ} {s t : Session} {notes : List Nat}
    (h : (turn state).run s = ⟨.matched (.done last), t, notes⟩) :
    Takes turn state s ⟨.matched last, t, notes⟩
  | yield {state next : σ} {s t : Session} {notes : List Nat} {last : Parsed σ}
    (h : (turn state).run s = ⟨.matched (.yield next), t, notes⟩) (rest : Takes turn next t last) :
    Takes turn state s (last.after notes)
  | unmatched {state : σ} {s t : Session} {notes : List Nat}
    (h : (turn state).run s = ⟨.unmatched, t, notes⟩) : Takes turn state s ⟨.unmatched, t, notes⟩
  | failed {state : σ} {s t : Session} {diagnostic : Diagnostic} {notes : List Nat}
    (h : (turn state).run s = ⟨.failed diagnostic, t, notes⟩) :
    Takes turn state s ⟨.failed diagnostic, t, notes⟩

/-- From every session the loop comes to what its turns come to. -/
def LoopFinishes (turn : σ → Routine (ForInStep σ)) : Prop :=
  ∀ state s, Takes turn state s ((loop turn state).run s)

/-- Every turn that asks for another one moves on. -/
def MovesOn (turn : σ → Routine (ForInStep σ)) : Prop :=
  ∀ state s next t notes, (turn state).run s = ⟨.matched (.yield next), t, notes⟩ →
    t.cursor.rest.length < s.cursor.rest.length

theorem MovesOn.finishes {turn : σ → Routine (ForInStep σ)} (h : MovesOn turn) :
    LoopFinishes turn := by
  intro state s
  change Takes turn state s (loopFrom turn state s)
  induction hn : s.cursor.rest.length using Nat.strongRecOn generalizing state s with
  | _ n ih =>
    rw [loopFrom]
    cases hturn : (turn state).run s with
    | mk step t notes =>
      cases step with
      | unmatched => exact .unmatched hturn
      | failed diagnostic => exact .failed hturn
      | matched outcome =>
        rw [Parsed.matched_andThen]
        cases outcome with
        | done last => exact .done (by rw [hturn, List.append_nil])
        | yield next =>
          have hlt := h _ _ _ _ _ hturn
          dsimp only
          rw [if_pos hlt]
          exact .yield hturn (ih _ (by omega) next t rfl)

/-- A turn that comes to what a turn of parsers comes to moves on with it. -/
theorem movesOn_of_tracks {turn : σ → Routine (ForInStep σ)} {turn' : σ → Parse (ForInStep σ)}
    {V : σ → σ → Prop} (hahead : Parse.TurnsAhead turn')
    (h : ∀ state, Guide.same.Tracks .never (turn state) (turn' state) (Guide.Turned V)) :
    MovesOn turn := by
  intro state s next t notes hrun
  obtain ⟨found, hmatch, hturned⟩ := (h state).exists_matched (congrArg Parsed.step hrun)
  rw [hrun] at hmatch
  cases hturned with
  | yield => exact hahead _ _ _ _ _ hmatch

theorem movesOn_collectTurn {part : Routine (Option α)}
    (h : ∀ s value, (part.run s).step = .matched (some value) →
      (part.run s).session.cursor.rest.length < s.cursor.rest.length) :
    MovesOn (collectTurn part) := by
  intro before s next t notes hrun
  have hpart := h s
  rw [collectTurn, run_bind] at hrun
  generalize part.run s = run at hrun hpart
  obtain ⟨step, u, _⟩ := run
  cases step with
  | unmatched => cases hrun
  | failed => cases hrun
  | matched found =>
    cases found with
    | none => cases hrun
    | some value =>
      cases hrun
      exact hpart value rfl

theorem matched_of_attempt {m : Routine α} {s : Session} {value : α}
    (h : ((attempt m).run s).step = .matched (some value)) :
    (m.run s).step = .matched value ∧ ((attempt m).run s).session = (m.run s).session := by
  simp only [attempt] at h ⊢
  generalize m.run s = run at h ⊢
  obtain ⟨step, t, _⟩ := run
  cases step with
  | unmatched => cases h
  | failed => cases h
  | matched found =>
    cases h
    exact ⟨rfl, rfl⟩

/-- Parts that are told by a parser which passes over some text. -/
theorem movesOn_collectTurn_attempt {m : Routine α} {p : Parse α} {V : α → α → Prop}
    (hp : Parse.Moves p Cursor.Ahead) (h : Guide.same.Tracks .kept m p V) :
    MovesOn (collectTurn (attempt m)) := by
  apply movesOn_collectTurn
  intro s value hstep
  obtain ⟨hmatched, hsession⟩ := matched_of_attempt hstep
  obtain ⟨found, hmatch, _⟩ := h.exists_matched hmatched
  rw [hsession]
  exact (hp _ _ _ _ hmatch).2

/-- A routine that never ends before the place where it starts. -/
def StaysAhead (m : Routine α) : Prop :=
  ∀ s value, (m.run s).step = .matched value →
    (m.run s).session.cursor.rest.length ≤ s.cursor.rest.length

theorem staysAhead_of_tracks {m : Routine α} {p : Parse α} {V : α → α → Prop} {miss : Miss}
    (hp : Parse.Advances p) (h : Guide.same.Tracks miss m p V) : StaysAhead m := by
  intro s value hstep
  obtain ⟨found, hmatch, _⟩ := h.exists_matched hstep
  exact (hp _ _ _ _ hmatch).length_le

/-- Parts with a token before each of them. -/
theorem movesOn_collectTurn_optional {token : Scanner Bool} {next : Cursor → Option Cursor}
    {part : Routine α} (htoken : ∀ c, token.run c = .passed (next c) c)
    (hlt : ∀ c d, next c = some d → d.rest.length < c.rest.length) (hpart : StaysAhead part) :
    MovesOn (collectTurn (optional token part)) := by
  apply movesOn_collectTurn
  intro s value hstep
  have hlt := hlt s.cursor
  simp only [optional, run_bind, run_scan, htoken, Scanned.passed, Parsed.matched_andThen,
    Parsed.after_nil, run_if] at hstep ⊢
  cases hnext : next s.cursor with
  | none =>
    rw [hnext] at hstep
    cases hstep
  | some d =>
    rw [hnext] at hstep
    have hle := hpart { s with cursor := d }
    simp only [Option.isSome_some, if_true, Option.getD_some] at hstep hle ⊢
    generalize part.run { s with cursor := d } = run at hstep hle ⊢
    obtain ⟨step, t, _⟩ := run
    cases step with
    | unmatched => cases hstep
    | failed => cases hstep
    | matched found => exact Nat.lt_of_le_of_lt (hle found rfl) (hlt d hnext)

theorem movesOn_argumentTurn : MovesOn (argumentTurn expression) := by
  intro before s next t notes hrun
  rw [run_argumentTurn reads_expression] at hrun
  cases hread : Grammar.expression s.cursor with
  | none =>
    rw [hread] at hrun
    cases hrun
  | some found =>
    obtain ⟨argument, d⟩ := found
    rw [hread] at hrun
    dsimp only at hrun
    split at hrun
    · cases hrun
    · split at hrun
      · rename_i hcomma
        cases hrun
        exact Nat.lt_of_lt_of_le (Cursor.length_lt_of_symbol hcomma)
          (Grammar.expression_lays.length_le _ _ _ hread)
      · cases hrun

theorem movesOn_segmentTurn : MovesOn (segmentTurn expression) := by
  intro before s next t notes hrun
  rw [run_segmentTurn reads_expression Grammar.expression_lays.length_le] at hrun
  cases hsegment : Grammar.segment Grammar.expression s.cursor with
  | none =>
    rw [hsegment] at hrun
    cases hrun
  | some found =>
    rw [hsegment] at hrun
    cases hrun
    exact (Grammar.segment_lays Grammar.expression_lays hsegment).1.ahead.2

/-! ## Recursion of routines -/

theorem reads_iterate_expressionWith (n : Nat) :
    Reads (expressionWith^[n] unmatched) (Grammar.expressionWith^[n] fun _ => none) ∧
      Grammar.Lays (Grammar.expressionWith^[n] fun _ => none) Expression.regions := by
  induction n with
  | zero => exact ⟨reads_unmatched, fun _ _ _ h => by cases h⟩
  | succ n ih =>
    rw [Function.iterate_succ_apply', Function.iterate_succ_apply']
    exact ⟨reads_expressionWith ih.1 ih.2.length_le, Grammar.expressionWith_lays ih.2⟩

theorem iterate_expressionWith (n : Nat) (c : Cursor) (h : c.rest.length < n) :
    (Grammar.expressionWith^[n] fun _ => none) c = Grammar.expression c := by
  induction n generalizing c with
  | zero => contradiction
  | succ n ih =>
    rw [Function.iterate_succ_apply']
    exact Grammar.recursionDescends.expression _ c fun d hd => ih d (by omega)

theorem tracks_iterate_statementWith (n : Nat) :
    Guide.same.Tracks .kept (statementWith^[n] unmatched)
        (Grammar.statementWith^[n] Parse.unmatched) (Guide.same.On Statement.relabel) ∧
      Parse.Yields (Grammar.statementWith^[n] Parse.unmatched) Cursor.Ahead Statement.regions := by
  induction n with
  | zero => exact ⟨Guide.tracks_unmatched, fun _ _ _ _ h => by cases h⟩
  | succ n ih =>
    rw [Function.iterate_succ_apply', Function.iterate_succ_apply']
    exact ⟨Guide.tracks_statementWith ih.1 ih.2, Grammar.yields_statementWith ih.2⟩

theorem iterate_statementWith (n : Nat) (inside : List Construct) (c : Cursor)
    (h : c.rest.length < n) :
    (Grammar.statementWith^[n] Parse.unmatched) inside c = Grammar.statement inside c := by
  induction n generalizing inside c with
  | zero => contradiction
  | succ n ih =>
    rw [Function.iterate_succ_apply']
    exact Grammar.recursionDescends.statement _ inside c fun inside d hd => ih inside d (by omega)

end Routine

open Routine in
/-- The loops of scanners and routines come to what their turns come to, from wherever they
start. -/
structure LoopsFinish : Prop where
  characters (p : Char → Bool) : Scanner.LoopFinishes (Scanner.skipTurn p)
  blanks : Scanner.LoopFinishes Scanner.blanksTurn
  strings : Scanner.LoopFinishes Scanner.quotedTurn
  names : Scanner.LoopFinishes Scanner.memberTurn
  items : LoopFinishes (collectTurn (attempt item))
  statements : LoopFinishes (collectTurn (attempt statement))
  trivia : LoopFinishes (collectTurn (attempt triviaLine))
  recordMembers : LoopFinishes (memberTurn declaredVariable)
  enumItems : LoopFinishes (memberTurn enumItem)
  branches : LoopFinishes (branchTurn block)
  cases : LoopFinishes (caseTurn block)
  segments : LoopFinishes (segmentTurn expression)
  arguments : LoopFinishes (argumentTurn expression)
  bounds : LoopFinishes boundTurn
  attributeNames : LoopFinishes
    (collectTurn (optional (Scanner.adjacent '.') (expectName "attribute name")))
  afterComma {α : Type} {part : Routine α} (h : StaysAhead part) :
    LoopFinishes (collectTurn (optional (Scanner.symbol ',') part))

open Routine in
/-- A routine that uses itself does so no deeper than its text is long. -/
structure RecursionUnfolds : Prop where
  expression (n : Nat) (s : Session) (h : s.cursor.rest.length < n) :
    (expressionWith^[n] unmatched).run s = expression.run s
  statement (n : Nat) (s : Session) (h : s.cursor.rest.length < n) :
    Alike (statementWith^[n] unmatched) statement s

namespace Routine

theorem loopsFinish : LoopsFinish where
  characters p := (Scanner.movesOn_skipTurn p).finishes
  blanks := Scanner.movesOn_blanksTurn.finishes
  strings := Scanner.movesOn_quotedTurn.finishes
  names := Scanner.movesOn_memberTurn.finishes
  items := (movesOn_collectTurn_attempt Grammar.yields_item.moves Guide.tracks_item).finishes
  statements := (movesOn_collectTurn_attempt Grammar.yields_statement.moves
    Guide.tracks_statement).finishes
  trivia := (movesOn_collectTurn_attempt Grammar.moves_triviaLine
    Guide.tracks_triviaLine).finishes
  recordMembers :=
    (movesOn_of_tracks (Grammar.turnsAhead_memberTurn Grammar.yields_declaredVariable) fun _ =>
      Guide.tracks_memberTurn Guide.tracks_declaredVariable rfl).finishes
  enumItems := (movesOn_of_tracks (Grammar.turnsAhead_memberTurn Grammar.moves_enumItem.yields)
    fun _ => Guide.tracks_memberTurn Guide.tracks_enumItem rfl).finishes
  branches := (movesOn_of_tracks (Grammar.turnsAhead_branchTurn Grammar.yields_block)
    fun _ => Guide.tracks_branchTurn Guide.tracks_block rfl).finishes
  cases := (movesOn_of_tracks (Grammar.turnsAhead_caseTurn Grammar.yields_block)
    fun _ => Guide.tracks_caseTurn Guide.tracks_block rfl).finishes
  segments := movesOn_segmentTurn.finishes
  arguments := movesOn_argumentTurn.finishes
  bounds := (movesOn_of_tracks Grammar.turnsAhead_boundTurn Guide.tracks_boundTurn).finishes
  attributeNames := (movesOn_collectTurn_optional (Scanner.run_adjacent '.')
    (fun _ _ h => (Cursor.begun_of_adjacent (by decide) h).ahead.2)
    (staysAhead_of_tracks (Parse.moves_requireName _).advances
      (Guide.tracks_expectName "attribute name"))).finishes
  afterComma h := (movesOn_collectTurn_optional (Scanner.run_symbol ',')
    (fun _ _ => Cursor.length_lt_of_symbol) h).finishes

theorem recursionUnfolds : RecursionUnfolds where
  expression n s h := by
    rw [(reads_iterate_expressionWith n).1 s, reads_expression s,
      iterate_expressionWith n s.cursor h]
  statement n s h :=
    ((tracks_iterate_statementWith n).1.exact Statement.relabel_same).alike
      Guide.tracks_statement_exactly (iterate_statementWith n s.inside s.cursor h)

end Routine

end VisualBasic
