import VisualBasic.Proofs.Routine.Token

/-!
# What routines for expressions come to

A routine for an expression or a part of one takes what its reader meets. Where it does not match,
the session is as it was, whatever calls, dots and names were tried on the way; only a list of
arguments that is not well formed leaves the session where that was found.
-/

set_option autoImplicit false

namespace VisualBasic

namespace Routine

variable {α β σ : Type}

/-! ## Turns -/

theorem loopFrom_of_done {turn : σ → Routine (ForInStep σ)} {state last : σ} {s t : Session}
    (h : (turn state).run s = ⟨.matched (.done last), t, []⟩) :
    loopFrom turn state s = ⟨.matched last, t, []⟩ := by
  rw [loopFrom, h, Parsed.matched_andThen, Parsed.after_nil]

theorem loopFrom_of_unmatched {turn : σ → Routine (ForInStep σ)} {state : σ} {s t : Session}
    (h : (turn state).run s = ⟨.unmatched, t, []⟩) :
    loopFrom turn state s = ⟨.unmatched, t, []⟩ := by
  rw [loopFrom, h, Parsed.unmatched_andThen]

theorem loopFrom_of_yield {turn : σ → Routine (ForInStep σ)} {state : σ} {s : Session} (next : σ)
    (t : Session) (h : (turn state).run s = ⟨.matched (.yield next), t, []⟩) :
    loopFrom turn state s =
      if t.cursor.rest.length < s.cursor.rest.length then loopFrom turn next t
      else ⟨.matched next, t, []⟩ := by
  rw [loopFrom, h, Parsed.matched_andThen, Parsed.after_nil]

theorem Reads.mapSpan {m : Routine α} {reader : Reader α} (h : Reads m reader) (start : Cursor)
    (f : α → Span → β) :
    Reads (m >>= fun value => spanFrom start >>= fun span => pure (f value span)) fun c =>
      (reader c).map fun (value, d) => (f value (start.spanTo d), d) := by
  intro s
  rw [run_bind, h s]
  dsimp only
  cases reader s.cursor <;> simp

/-! ## Literals -/

theorem reads_literal : Reads literal Grammar.literal := by
  have hnumber := reads_found Scanner.run_number
  have hquoted := (reads_found Scanner.run_quoted).map Literal.string
  have hconstant (k : Keyword) (value : Literal) :=
    (reads_met (Scanner.run_keyword k)).map fun _ => value
  have hall := hnumber.orElse <| hquoted.orElse <| (hconstant .True (.boolean true)).orElse <|
    (hconstant .False (.boolean false)).orElse <| (hconstant .Nothing .nothing).orElse
      reads_unmatched
  intro s
  refine (hall s).trans ?_
  simp only [Grammar.literal, Option.or_assoc, Option.map_map, Option.or_none]
  rfl

/-! ## Routines that may stop anywhere -/

/-- The value of what a reader meets, or no match at any place. -/
inductive Tried (s : Session) : Option (α × Cursor) → Parsed α → Prop
  | taken (value : α) (c : Cursor) :
    Tried s (some (value, c)) ⟨.matched value, { s with cursor := c }, []⟩
  | stopped (c : Cursor) : Tried s none ⟨.unmatched, { s with cursor := c }, []⟩

theorem Tried.back {s : Session} {c : Cursor} {found : Option (α × Cursor)} {run : Parsed α}
    (h : Tried { s with cursor := c } found run) : Tried s found run := by
  cases h with
  | taken value d => exact .taken value d
  | stopped d => exact .stopped d

/-- A routine that takes what a reader meets, and otherwise stops somewhere without a match. -/
def Tries (m : Routine α) (reader : Reader α) : Prop := ∀ s, Tried s (reader s.cursor) (m.run s)

theorem Reads.tries {m : Routine α} {reader : Reader α} (h : Reads m reader) : Tries m reader := by
  intro s
  rw [h s]
  cases reader s.cursor with
  | none => exact .stopped s.cursor
  | some found => exact .taken found.1 found.2

theorem Reads.congr {m : Routine α} {reader other : Reader α} (h : Reads m reader)
    (hsame : ∀ c, reader c = other c) : Reads m other := fun s => (h s).trans (by rw [hsame])

theorem tries_pure (value : α) : Tries (pure value) fun c => some (value, c) :=
  fun s => .taken value s.cursor

theorem tries_mark : Tries mark fun c => some (c.skipBlanks, c.skipBlanks) := by
  intro s
  rw [run_mark]
  exact .taken _ _

theorem tries_spanFrom (start : Cursor) :
    Tries (spanFrom start) fun c => some (start.spanTo c, c) :=
  fun s => .taken (start.spanTo s.cursor) s.cursor

theorem Tries.andThen {m : Routine α} {f : α → Routine β} {reader : Reader α}
    {next : α → Reader β} (h : Tries m reader) (hf : ∀ value, Tries (f value) (next value)) :
    Tries (m >>= f) fun c => (reader c).bind fun found => next found.1 found.2 := by
  intro s
  have hm := h s
  dsimp only
  rw [run_bind]
  generalize reader s.cursor = found at hm ⊢
  generalize m.run s = run at hm ⊢
  cases hm with
  | taken value c => exact (hf value { s with cursor := c }).back
  | stopped c => exact .stopped c

/-- A rule takes back what a routine has passed over without a match. -/
theorem Tries.rule {m : Routine α} {reader : Reader α} (h : Tries m reader)
    (construct : Construct) :
    Reads (rule construct m) reader := by
  intro s
  have hm := h { s with inside := construct :: s.inside }
  simp only [Routine.rule]
  generalize reader s.cursor = found at hm ⊢
  generalize m.run { s with inside := construct :: s.inside } = run at hm ⊢
  cases hm with
  | taken value c => rfl
  | stopped c => rfl

/-! ## Calls and references -/

/-- The outcome of a list of arguments, after some that were read before. -/
def argumentsTaken (before : List Expression) (s : Session) :
    Except Cursor (List Expression × Cursor) → Parsed (List Expression)
  | .ok (values, c) => ⟨.matched (before ++ values), { s with cursor := c }, []⟩
  | .error c => ⟨.unmatched, { s with cursor := c }, []⟩

section Knot

variable {expression : Routine Expression} {reader : Reader Expression}
    (hr : Reads expression reader)
    (hle : ∀ c value d, reader c = some (value, d) → d.rest.length ≤ c.rest.length)
include hr hle

omit hle in
/-- An argument is the last one where a parenthesis follows it, and another one must follow a
comma. -/
theorem run_argumentTurn (before : List Expression) (s : Session) :
    (argumentTurn expression before).run s = match reader s.cursor with
      | none => ⟨.unmatched, s, []⟩
      | some (argument, d) => match d.symbol ')' with
        | some closed =>
          ⟨.matched (.done (before ++ [argument])), { s with cursor := closed }, []⟩
        | none => match d.symbol ',' with
          | some next => ⟨.matched (.yield (before ++ [argument])), { s with cursor := next }, []⟩
          | none => ⟨.unmatched, { s with cursor := d }, []⟩ := by
  have hfirst := hr s
  cases hread : reader s.cursor with
  | none => simp [argumentTurn, hfirst, hread]
  | some found =>
    obtain ⟨argument, d⟩ := found
    cases hclose : d.symbol ')' with
    | some closed => simp [argumentTurn, hfirst, hread, run_scan, Scanned.passed, hclose]
    | none =>
      cases hcomma : d.symbol ',' <;>
        simp [argumentTurn, hfirst, hread, run_scan, Scanned.passed, hclose, hcomma]

theorem loopFrom_argumentTurn (before : List Expression) (s : Session) :
    loopFrom (argumentTurn expression) before s =
      argumentsTaken before s (Grammar.moreArguments reader s.cursor) := by
  obtain ⟨n, hn⟩ : ∃ n, s.cursor.rest.length = n := ⟨_, rfl⟩
  induction n using Nat.strongRecOn generalizing before s with
  | ind n ih =>
    have hturn := run_argumentTurn hr before s
    rw [Grammar.moreArguments]
    cases hread : reader s.cursor with
    | none =>
      rw [hread] at hturn
      exact loopFrom_of_unmatched hturn
    | some found =>
      obtain ⟨argument, d⟩ := found
      have hd := hle _ _ _ hread
      rw [hread] at hturn
      dsimp only at hturn ⊢
      cases hclose : d.symbol ')' with
      | some closed =>
        rw [hclose] at hturn
        exact loopFrom_of_done hturn
      | none =>
        rw [hclose] at hturn
        cases hcomma : d.symbol ',' with
        | none =>
          rw [hcomma] at hturn
          exact loopFrom_of_unmatched hturn
        | some next =>
          rw [hcomma] at hturn
          have hnext := Cursor.length_lt_of_symbol hcomma
          have hlt : next.rest.length < s.cursor.rest.length := by omega
          rw [loopFrom_of_yield _ _ hturn, if_pos hlt,
            ih next.rest.length (by omega) _ { s with cursor := next } rfl]
          dsimp only
          rw [if_pos hlt]
          cases Grammar.moreArguments reader next with
          | ok rest => simp [argumentsTaken, Except.map]
          | error stopped => rfl

theorem run_arguments (s : Session) :
    (arguments expression).run s = argumentsTaken [] s (Grammar.arguments reader s.cursor) := by
  simp only [arguments, run_bind, run_scan, Scanner.run_symbol, Scanned.passed,
    Parsed.matched_andThen, Parsed.after_nil, run_if, Grammar.arguments]
  cases s.cursor.symbol ')' with
  | some closed => rfl
  | none => exact loopFrom_argumentTurn hr hle [] s

theorem tries_arguments :
    Tries (arguments expression) fun c => (Grammar.arguments reader c).toOption := by
  intro s
  rw [run_arguments hr hle]
  dsimp only
  cases Grammar.arguments reader s.cursor with
  | ok found => exact .taken found.1 found.2
  | error stopped => exact .stopped stopped

theorem reads_call :
    Reads (call expression) (Grammar.call reader) := by
  have hbody := tries_mark.andThen fun start => (reads_found Scanner.run_identifier).tries.andThen
    fun name => (reads_met (Scanner.run_symbol '(')).tries.andThen fun _ =>
    (tries_arguments hr hle).andThen fun values => (tries_spanFrom start).andThen fun span =>
    tries_pure (Call.mk name values span)
  refine (hbody.rule .functionCall).congr fun c => ?_
  simp only [Grammar.call, Option.bind_some, Option.bind_map]
  rfl

theorem reads_segmentBody :
    Reads (segmentBody expression) fun c =>
      ((Grammar.call reader c).map fun (call, d) => (Segment.call call, d)).or
        (c.identifier.map fun (name, d) => (Segment.name name, d)) :=
  ((reads_call hr hle).map Segment.call).orElse
    ((reads_found Scanner.run_identifier).map Segment.name)

/-- A segment is taken with the dot after it, or the session goes back to where the segment
starts. -/
theorem run_segmentTurn (before : List Segment) (s : Session) :
    (segmentTurn expression before).run s = match Grammar.segment reader s.cursor with
      | none => ⟨.matched (.done before), s, []⟩
      | some (found, d) => ⟨.matched (.yield (before ++ [found])), { s with cursor := d }, []⟩ := by
  have hbody := reads_segmentBody hr hle s
  simp only [segmentTurn, Grammar.segment, run_bind, run_place, attempt, hbody,
    Parsed.matched_andThen, Parsed.after_nil]
  generalize ((Grammar.call reader s.cursor).map _).or _ = found
  cases found with
  | none => rfl
  | some found =>
    cases hdot : found.2.adjacent '.' <;>
      simp [run_scan, Scanned.passed, hdot]

theorem loopFrom_segmentTurn (before : List Segment) (s : Session) :
    loopFrom (segmentTurn expression) before s =
      ⟨.matched (before ++ (Grammar.segments reader s.cursor).1),
        { s with cursor := (Grammar.segments reader s.cursor).2 }, []⟩ := by
  obtain ⟨n, hn⟩ : ∃ n, s.cursor.rest.length = n := ⟨_, rfl⟩
  induction n using Nat.strongRecOn generalizing before s with
  | ind n ih =>
    have hturn := run_segmentTurn hr hle before s
    rw [Grammar.segments]
    cases hsegment : Grammar.segment reader s.cursor with
    | none =>
      rw [hsegment] at hturn
      rw [loopFrom_of_done hturn, List.append_nil]
    | some found =>
      obtain ⟨head, d⟩ := found
      rw [hsegment] at hturn
      rw [loopFrom_of_yield _ _ hturn]
      dsimp only
      by_cases hlt : d.rest.length < s.cursor.rest.length
      · rw [if_pos hlt, if_pos hlt, ih d.rest.length (by omega) _ { s with cursor := d } rfl]
        simp
      · rw [if_neg hlt, if_neg hlt]

theorem run_qualifier (s : Session) :
    (qualifier expression).run s = ⟨.matched (Grammar.qualifier reader s.cursor).1,
      { s with cursor := (Grammar.qualifier reader s.cursor).2 }, []⟩ := by
  simp only [qualifier, Grammar.qualifier, run_bind, run_place, run_mark, run_scan,
    Scanner.run_adjacent, Scanned.passed, loop, loopFrom_segmentTurn hr hle, List.nil_append,
    Parsed.matched_andThen, Parsed.after_nil, run_if, run_moveTo, run_spanFrom, run_pure,
    Option.not_isSome]
  split <;> rfl

theorem reads_reference :
    Reads (reference expression) (Grammar.reference reader) := by
  have hcontext : Tries (qualifier expression) fun c => some (Grammar.qualifier reader c) := by
    intro s
    rw [run_qualifier hr hle]
    exact .taken _ _
  have hbody := tries_mark.andThen fun start => hcontext.andThen fun context =>
    (reads_found Scanner.run_identifier).tries.andThen fun name =>
    (tries_spanFrom start).andThen fun span => tries_pure (Reference.mk context name span)
  refine (hbody.rule .variableReference).congr fun c => ?_
  simp only [Grammar.reference, Option.bind_some]
  rfl

theorem reads_expressionAt (start : Cursor) :
    Reads (expressionAt expression start) fun c =>
      ((Grammar.literal c).map fun (value, d) => (Expression.literal value (start.spanTo d), d))
        |>.or ((Grammar.call reader c).map fun (call, d) => (.call call, d))
        |>.or ((Grammar.reference reader c).map fun (target, d) => (.reference target, d)) := by
  have hall := (reads_literal.mapSpan start Expression.literal).orElse <|
    ((reads_call hr hle).map Expression.call).orElse <|
    ((reads_reference hr hle).map Expression.reference).orElse reads_unmatched
  refine hall.congr fun c => ?_
  rw [Option.or_none, Option.or_assoc]

theorem reads_expressionWith :
    Reads (expressionWith expression) (Grammar.expressionWith reader) := by
  intro s
  have hbody :=
    reads_expressionAt hr hle s.cursor.skipBlanks { s with cursor := s.cursor.skipBlanks }
  simp only [expressionWith, Grammar.expressionWith, run_bind, run_place, run_mark, attempt, hbody,
    Parsed.matched_andThen, Parsed.after_nil]
  generalize Option.or _ _ = found
  cases found <;> rfl

end Knot

theorem reads_expression : Reads expression Grammar.expression := by
  have main (n : Nat) (s : Session) (hn : s.cursor.rest.length = n) :
      recurseFrom expressionWith s = .taken (Grammar.expression s.cursor) s := by
    induction n using Nat.strongRecOn generalizing s with
    | ind n ih =>
      rw [recurseFrom, Grammar.expression]
      refine reads_expressionWith (fun t => ?_) (fun c value d h => ?_) s
      · dsimp only
        split
        · exact ih _ (by omega) t rfl
        · rfl
      · split at h
        · exact Grammar.expression_lays.length_le c value d h
        · contradiction
  exact fun s => main _ s rfl

theorem reads_anyReference : Reads anyReference (Grammar.reference Grammar.expression) :=
  reads_reference reads_expression Grammar.expression_lays.length_le

end Routine

end VisualBasic
