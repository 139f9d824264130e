import VisualBasic.Proofs.Correspondence.Statement
import VisualBasic.Proofs.Scanner.Number
import VisualBasic.Routine.Module

/-!
# What routines for tokens come to

A routine reads a token when it takes what the reader of that token meets and otherwise leaves the
session as it was. An error tells what was expected and where, as the failure of a parser does.
-/

set_option autoImplicit false

namespace VisualBasic

/-! ## Scanning for the table of a word, the next token and names with members -/

namespace Scanner

variable {α σ : Type}

@[simp] theorem run_probe (m : Scanner α) (c : Cursor) :
    (probe m).run c = ⟨(m.run c).value, c, (m.run c).comments⟩ := by
  simp [probe, Scanned.andThen]

@[simp] theorem run_nextToken (c : Cursor) : nextToken.run c = ⟨c.skipBlanks, c, []⟩ := by
  simp [nextToken]

@[simp] theorem run_isFinished (c : Cursor) : isFinished.run c = ⟨Grammar.isFinished c, c, []⟩ := by
  simp [isFinished, Grammar.isFinished]

/-- The value of the first keyword of a table that comes next. -/
def tableReader (table : List (Keyword × α)) : Reader α := fun c =>
  table.findSome? fun entry => (c.keyword entry.1).map (entry.2, ·)

@[simp] theorem run_oneOf (table : List (Keyword × α)) (c : Cursor) :
    (oneOf table).run c = .taken (tableReader table c) c := by
  induction table with
  | nil => rfl
  | cons entry rest ih =>
    rw [tableReader, List.findSome?_cons]
    simp only [oneOf, run_bind, run_keyword, Scanned.passed, Scanned.mk_andThen, Scanned.after_nil,
      run_if]
    cases c.keyword entry.1 with
    | none => exact ih
    | some after => rfl

theorem oneOf_eq_read (table : List (Keyword × α)) :
    Parse.oneOf table = Parse.read (tableReader table) := by
  funext inside c
  simp only [Parse.read]
  induction table with
  | nil => rfl
  | cons entry rest ih =>
    rw [tableReader, List.findSome?_cons]
    change Parse.orElse _ (Parse.oneOf rest) inside c = _
    simp only [Parse.orElse, seqRight_eq_bind, Parse.bind_apply, Parse.keyword, Parse.pass]
    cases c.keyword entry.1 with
    | none => exact ih
    | some after => rfl

theorem isAtOperator_eq (c : Cursor) :
    c.isAtOperator = match c.peekOperator with
      | none => false
      | some operator =>
        if operator = .minus ∨ operator = .plus then c.number.isNone else true := by
  unfold Cursor.isAtOperator
  split <;> simp_all

@[simp] theorem run_noteAt (token c : Cursor) :
    (noteAt token).run c = ⟨if token.isAtOperator then some operatorNote else none, c, []⟩ := by
  have hoperator := isAtOperator_eq token
  simp only [noteAt, run_probe, run_bind, run_moveTo, run_peekOperator, Scanned.mk_andThen,
    Scanned.after_nil]
  cases hpeek : token.peekOperator with
  | none =>
    rw [hpeek] at hoperator
    simp [hoperator]
  | some operator =>
    rw [hpeek] at hoperator
    by_cases hsign : operator = .minus ∨ operator = .plus
    · simp only [if_pos hsign] at hoperator
      cases hnumber : token.number <;> simp [hsign, hoperator, hnumber, Scanned.taken]
    · simp only [if_neg hsign] at hoperator
      simp [hsign, hoperator]

/-! ## Names with members -/

/-- A cursor that keeps its offset has not moved. -/
theorem skip_eq_self_of_offset {c : Cursor} {n : Nat} (h : (c.skip n).offset = c.offset) :
    c.skip n = c := by
  rw [Cursor.offset_skip] at h
  cases n with
  | zero => rfl
  | succ n =>
    cases hrest : c.rest with
    | nil => exact Cursor.skip_of_rest_eq_nil hrest _
    | cons char rest =>
      have hpos := char.utf8Size_pos
      simp only [hrest, List.take_succ_cons, byteLength_cons] at h
      omega

/-- A word ends as far behind the next token as it is long. -/
theorem offset_of_word {c d : Cursor} {name : String} (h : c.word = some (name, d)) :
    d.offset = c.skipBlanks.offset + byteLength name.toList := by
  simp only [Cursor.word] at h
  split at h
  · cases h
    rw [Cursor.offset_skip, String.toList_ofList, take_length_takeWhile]
  · contradiction

/-- After a dot a word starts at once, or blanks come first. -/
theorem skipBlanks_of_dot {c d : Cursor} (h : c.adjacent '.' = some d) :
    d.offset = c.offset + 1 ∧ (d.rest.head?.any isWordStart = true → d.skipBlanks = d) := by
  obtain ⟨hhead, rfl⟩ := Cursor.adjacent_eq_some_iff.mp h
  obtain ⟨rest, hrest⟩ := List.head?_eq_some_iff.mp hhead
  have hsize : byteLength ['.'] = 1 := by decide
  refine ⟨by rw [Cursor.offset_skip, hrest, List.take_succ_cons, List.take_zero, hsize],
    fun hstart => ?_⟩
  cases rest with
  | nil => simp [hrest] at hstart
  | cons char rest =>
    have hnext : (c.skip 1).rest = char :: rest := by rw [Cursor.rest_skip, hrest]; rfl
    have hafter : (c.skip 1).afterBlank = false := by
      rw [Cursor.afterBlank_skip, hrest]
      rfl
    have hchar : isBlank char = false := by
      have hword : isWordStart char = true := by rwa [hnext] at hstart
      exact isBlank_eq_false_of_isInk (isInk_of_isWordChar (isWordChar_of_isWordStart hword))
    rw [Cursor.skipBlanks, hnext, hafter, blankWidth_cons_eq_zero hchar fun h => by contradiction,
      Cursor.skip_zero]

theorem run_memberTurn (names : String) (c : Cursor) :
    (memberTurn names).run c = match c.member with
      | none => ⟨.done names, c, []⟩
      | some (name, d) => ⟨.yield (names ++ "." ++ name), d, []⟩ := by
  simp only [memberTurn, Cursor.member, run_bind, run_place, run_adjacent, Scanned.passed,
    Scanned.mk_andThen, Scanned.after_nil, run_if]
  cases hdot : c.adjacent '.' with
  | none => rfl
  | some d =>
    obtain ⟨hoffset, hstart⟩ := skipBlanks_of_dot hdot
    simp only [Option.isSome_some, if_true, Option.getD_some, run_word, Scanned.taken,
      Scanned.mk_andThen, Scanned.after_nil, Option.bind_some]
    cases hword : d.word with
    | none => by_cases h : d.rest.head?.any isWordStart = true <;> simp [h]
    | some found =>
      obtain ⟨name, e⟩ := found
      have hend := offset_of_word hword
      have htoken : d.skipBlanks.rest.head?.any isWordStart = true := by
        simp only [Cursor.word] at hword
        split at hword
        · assumption
        · contradiction
      by_cases h : d.rest.head?.any isWordStart = true
      · have hplace : e.offset - byteLength name.toList = c.offset + 1 := by
          rw [hend, hstart h, hoffset]
          omega
        simp [h, hplace]
      · have hplace : e.offset - byteLength name.toList ≠ c.offset + 1 := by
          intro hplace
          have hsame : d.skipBlanks.offset = d.offset := by omega
          rw [Cursor.skipBlanks, skip_eq_self_of_offset hsame] at htoken
          exact h htoken
        simp [h, hplace]

theorem loopFrom_memberTurn (names : String) (c : Cursor) :
    loopFrom memberTurn names c =
      ⟨names ++ (Grammar.memberNames c).1, (Grammar.memberNames c).2, []⟩ := by
  obtain ⟨n, hn⟩ : ∃ n, c.rest.length = n := ⟨_, rfl⟩
  induction n using Nat.strongRecOn generalizing names c with
  | ind n ih =>
    have hturn := run_memberTurn names c
    rw [Grammar.memberNames_eq]
    cases hmember : c.member with
    | none =>
      rw [hmember] at hturn
      rw [loopFrom_of_done hturn, String.append_empty]
    | some found =>
      rw [hmember] at hturn
      have hlt := (Grammar.token_of_member hmember).length_lt
      rw [loopFrom_of_yield _ _ hturn hlt, ih _ (by omega) _ _ rfl]
      simp only [if_pos hlt, String.append_assoc]

/-- The name of a procedure is found, or the cursor is left at the next token. -/
theorem run_procedureName (c : Cursor) :
    procedureName.run c = .taken (Grammar.procedureName c) c.skipBlanks := by
  simp only [procedureName, Grammar.procedureName, run_bind, run_skipBlanks,
    run_place, run_adjacent, Scanned.passed, run_identifier, Scanned.mk_andThen,
    Scanned.after_nil, Scanned.taken]
  cases ((c.skipBlanks.adjacent '.').getD c.skipBlanks).identifier with
  | none => rfl
  | some found =>
    have hloop := loopFrom_memberTurn "" found.2
    simp [loop, hloop]

end Scanner

/-! ## Steps of a routine -/

namespace Parsed

variable {α β : Type}

/-- What a routine comes to that takes the value of a token, if it is there. -/
def taken (found : Option (α × Cursor)) (s : Session) : Parsed α :=
  match found with
  | some (value, c) => ⟨.matched value, { s with cursor := c }, []⟩
  | none => ⟨.unmatched, s, []⟩

/-- An outcome after comments that were begun before. -/
def after (notes : List Nat) (last : Parsed α) : Parsed α :=
  ⟨last.step, last.session, notes ++ last.comments⟩

@[simp] theorem after_nil (last : Parsed α) : last.after [] = last := rfl

@[simp] theorem taken_none (s : Session) :
    taken (none : Option (α × Cursor)) s = ⟨.unmatched, s, []⟩ := rfl

@[simp] theorem taken_some (found : α × Cursor) (s : Session) :
    taken (some found) s = ⟨.matched found.1, { s with cursor := found.2 }, []⟩ := rfl

@[simp] theorem matched_andThen (value : α) (s : Session) (notes : List Nat)
    (next : α → Session → Parsed β) :
    (Parsed.mk (.matched value) s notes).andThen next = (next value s).after notes := rfl

@[simp] theorem unmatched_andThen (s : Session) (notes : List Nat) (next : α → Session → Parsed β) :
    (Parsed.mk .unmatched s notes).andThen next = ⟨.unmatched, s, notes⟩ := rfl

@[simp] theorem failed_andThen (diagnostic : Diagnostic) (s : Session) (notes : List Nat)
    (next : α → Session → Parsed β) :
    (Parsed.mk (.failed diagnostic) s notes).andThen next = ⟨.failed diagnostic, s, notes⟩ := rfl

end Parsed

/-- The diagnostic of a failure in the source of a session. -/
def Session.diagnose (s : Session) (failure : Failure) : Diagnostic :=
  Diagnostic.ofFailure s.source s.settings.snippetWidth failure

namespace Routine

variable {α β σ : Type}

@[simp] theorem run_pure (value : α) (s : Session) :
    (pure value : Routine α).run s = ⟨.matched value, s, []⟩ := rfl

@[simp] theorem run_bind (m : Routine α) (f : α → Routine β) (s : Session) :
    (m >>= f).run s = (m.run s).andThen fun value t => (f value).run t := rfl

@[simp] theorem run_map (f : α → β) (m : Routine α) (s : Session) :
    (f <$> m).run s = (m.run s).andThen fun value t => ⟨.matched (f value), t, []⟩ := rfl

@[simp] theorem run_if (p : Prop) [Decidable p] (m m' : Routine α) (s : Session) :
    (if p then m else m').run s = if p then m.run s else m'.run s := by
  split <;> rfl

@[simp] theorem run_unmatched (s : Session) : (unmatched : Routine α).run s = ⟨.unmatched, s, []⟩ :=
  rfl

@[simp] theorem run_raise (diagnostic : Diagnostic) (s : Session) :
    (raise diagnostic : Routine α).run s = ⟨.failed diagnostic, s, []⟩ := rfl

theorem run_scan (m : Scanner α) (s : Session) :
    (scan m).run s = ⟨.matched (m.run s.cursor).value, { s with cursor := (m.run s.cursor).cursor },
      (m.run s.cursor).comments⟩ := rfl

@[simp] theorem run_place (s : Session) : place.run s = ⟨.matched s.cursor, s, []⟩ := rfl

@[simp] theorem run_moveTo (start : Cursor) (s : Session) :
    (moveTo start).run s = ⟨.matched (), { s with cursor := start }, []⟩ := rfl

@[simp] theorem run_mark (s : Session) :
    mark.run s = ⟨.matched s.cursor.skipBlanks, { s with cursor := s.cursor.skipBlanks }, []⟩ := by
  simp [mark, run_scan]

@[simp] theorem run_spanFrom (start : Cursor) (s : Session) :
    (spanFrom start).run s = ⟨.matched (start.spanTo s.cursor), s, []⟩ := rfl

@[simp] theorem run_session (s : Session) : session.run s = ⟨.matched s, s, []⟩ := rfl

/-- An error is the diagnostic of a failure in the innermost construct that is open. -/
@[simp] theorem run_errorAt (expected : Expected) (token : Cursor) (s : Session) :
    (errorAt expected token).run s =
      ⟨.matched (s.diagnose ⟨s.inside.headD .module, expected, token, none, none, s.cursor⟩), s,
        []⟩ := by
  simp only [errorAt, run_bind, run_session, run_scan, Scanner.run_noteAt, Parsed.matched_andThen,
    Parsed.after_nil]
  rfl

@[simp] theorem run_error (expected : Expected) (s : Session) :
    (error expected).run s =
      ⟨.matched (s.diagnose ⟨s.inside.headD .module, expected, s.cursor.skipBlanks, none, none,
        s.cursor⟩), s, []⟩ := by
  simp [error, run_scan]

/-! ## Taking tokens -/

/-- A routine that takes what a reader meets, and otherwise leaves the session as it is. -/
def Reads (m : Routine α) (reader : Reader α) : Prop := ∀ s, m.run s = .taken (reader s.cursor) s

theorem run_found {m : Scanner (Option α)} {found : Option (α × Cursor)} {notes : List Nat}
    {s : Session} (h : m.run s.cursor = (Scanned.taken found s.cursor).after notes) :
    (Routine.found m).run s = (Parsed.taken found s).after notes := by
  simp only [Routine.found, run_bind, run_scan, h]
  cases found <;> simp [Scanned.taken, Scanned.after, Parsed.after]

theorem run_met {token : Scanner Bool} {found : Option Cursor} {notes : List Nat} {s : Session}
    (h : token.run s.cursor = (Scanned.passed found s.cursor).after notes) :
    (met token).run s = (Parsed.taken (found.map ((), ·)) s).after notes := by
  simp only [met, run_bind, run_scan, h]
  cases found <;> simp [Scanned.passed, Scanned.after, Parsed.after]

theorem reads_found {m : Scanner (Option α)} {reader : Reader α}
    (h : ∀ c, m.run c = .taken (reader c) c) : Reads (found m) reader := fun s =>
  run_found ((h s.cursor).trans (Scanned.after_nil _).symm)

theorem reads_met {token : Scanner Bool} {next : Cursor → Option Cursor}
    (h : ∀ c, token.run c = .passed (next c) c) :
    Reads (met token) fun c => (next c).map ((), ·) := fun s =>
  run_met ((h s.cursor).trans (Scanned.after_nil _).symm)

theorem Reads.orElse {m m' : Routine α} {reader other : Reader α} (h : Reads m reader)
    (h' : Reads m' other) : Reads (orElse m m') fun c => (reader c).or (other c) := by
  intro s
  simp only [Routine.orElse, run_bind, attempt, h s]
  cases reader s.cursor with
  | some found => rfl
  | none => simpa using h' s

theorem reads_unmatched : Reads (unmatched : Routine α) fun _ => none := fun _ => rfl

theorem Reads.map {m : Routine α} {reader : Reader α} (h : Reads m reader) (f : α → β) :
    Reads (m >>= fun value => pure (f value)) fun c =>
      (reader c).map fun (value, d) => (f value, d) := by
  intro s
  rw [run_bind, h s]
  dsimp only
  cases reader s.cursor <;> simp

end Routine

end VisualBasic
