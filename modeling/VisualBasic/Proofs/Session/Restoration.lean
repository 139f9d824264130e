import VisualBasic.Cursor.Scan
import VisualBasic.Proofs.Routine.Agreement
import VisualBasic.Proofs.Scanner.Number

/-!
# What a missing token or an unmatched rule leaves behind

A recogniser that misses its token puts the cursor back where it was, and so does a look. A rule
that does not match puts the whole session back. Whatever a rule comes to, the constructs open
around it are open after it, and the rules for expressions never come to a failure.
-/

set_option autoImplicit false

namespace VisualBasic

/-- Whether a step found that its token is not there. -/
def Finding.isMiss : Finding → Bool
  | .moved => false
  | .truth value => ! value
  | .text value => value.isNone
  | .literal value => value.isNone
  | .operator value => value.isNone
  | .relation value => value.isNone

namespace ScanStep

/-- The steps that look at what comes next and stay. -/
def isLook : ScanStep → Bool
  | .peekChar => true
  | .peekWord => true
  | .peekKeyword _ => true
  | .peekOperator => true
  | .isAtEnd => true
  | .rest => true
  | .source => true
  | _ => false

/-- A token that is passed over only if it is there. -/
theorem cursor_of_passed {scanned : Scanned Bool} {token : Option Cursor} {c : Cursor}
    (notes : List Nat) (hrun : scanned = (Scanned.passed token c).after notes)
    (h : (! scanned.value) = true) : scanned.cursor = c := by
  subst hrun
  cases token with
  | none => rfl
  | some after => contradiction

theorem cursor_of_taken {α : Type} {scanned : Scanned (Option α)} {found : Option (α × Cursor)}
    {c : Cursor} (notes : List Nat) (hrun : scanned = (Scanned.taken found c).after notes)
    (h : scanned.value.isNone = true) : scanned.cursor = c := by
  subst hrun
  cases found with
  | none => rfl
  | some found => contradiction

/-- A look comes back to the cursor by a reset, or never leaves it. -/
theorem run_of_isLook (source : String) {step : ScanStep} (h : step.isLook = true) (c : Cursor) :
    (step.run source c).2 = c := by
  cases step with
  | peekChar => rfl
  | peekWord => exact congrArg Scanned.cursor (Scanner.run_peekWord c)
  | peekKeyword k => exact congrArg Scanned.cursor (Scanner.run_peekKeyword k c)
  | peekOperator => exact congrArg Scanned.cursor (Scanner.run_peekOperator c)
  | isAtEnd => rfl
  | rest => rfl
  | source => rfl
  | _ => contradiction

/-- A step that misses its token leaves the cursor where it is. -/
theorem run_of_miss (source : String) (step : ScanStep) (c : Cursor)
    (h : (step.run source c).1.isMiss = true) : (step.run source c).2 = c := by
  cases step with
  | symbol char => exact cursor_of_passed [] (Scanner.run_symbol char c) h
  | adjacent char => exact cursor_of_passed [] (Scanner.run_adjacent char c) h
  | exactly text => exact cursor_of_passed [] (Scanner.run_exactly text.toList c) h
  | keyword k => exact cursor_of_passed [] (Scanner.run_keyword k c) h
  | word => exact cursor_of_taken [] (Scanner.run_word c) h
  | identifier => exact cursor_of_taken [] (Scanner.run_identifier c) h
  | quoted => exact cursor_of_taken [] (Scanner.run_quoted c) h
  | number => exact cursor_of_taken [] (Scanner.run_number c) h
  | comment => exact cursor_of_taken _ (Scanner.run_comment c) h
  | relation => exact cursor_of_taken [] (Scanner.run_relation c) h
  | lineBreak => exact cursor_of_passed [] (Scanner.run_lineBreak c) h
  | blankLine => exact cursor_of_passed [] (Scanner.run_blankLine c) h
  | lineEnd => exact cursor_of_passed _ (Scanner.run_lineEnd c) h
  | terminator => exact cursor_of_passed _ (Scanner.run_terminator c) h
  | skipBlanks => contradiction
  | moveTo offset => contradiction
  | _ => exact run_of_isLook source rfl c

end ScanStep

namespace Parse

variable {α β : Type}

/-- Matches or does not, but never fails for good. -/
def NeverFails (p : Parse α) : Prop := ∀ inside c failure, p inside c ≠ .failed failure

theorem neverFails_read (reader : Reader α) : NeverFails (read reader) := by
  intro inside c failure h
  unfold read at h
  split at h <;> contradiction

theorem NeverFails.map {p : Parse α} (hp : NeverFails p) (f : α → β) : NeverFails (f <$> p) := by
  intro inside c failure h
  rw [← bind_pure_comp, bind_apply] at h
  split at h
  · contradiction
  · contradiction
  · exact hp _ _ _ ‹_›

end Parse

namespace Rule

/-- The rules for expressions and their parts. -/
def isExpressive : Rule → Bool
  | .expression => true
  | .literal => true
  | .call => true
  | .qualifier => true
  | .reference => true
  | _ => false

theorem neverFails_of_isExpressive {rule : Rule} (h : rule.isExpressive = true) :
    rule.parse.NeverFails := by
  cases rule with
  | expression => exact (Parse.neverFails_read _).map _
  | literal => exact (Parse.neverFails_read _).map _
  | call => exact (Parse.neverFails_read _).map _
  | qualifier => exact (Parse.neverFails_read _).map _
  | reference => exact (Parse.neverFails_read _).map _
  | _ => contradiction

end Rule

namespace Session

/-- Runs rules one after the other, whatever each comes to. -/
def runAll (rules : List Rule) (session : Session) : Session :=
  rules.foldl (fun reached rule => (reached.run rule).2) session

theorem run_of_unmatched {session : Session} {rule : Rule}
    (h : (session.run rule).1 = .unmatched) : (session.run rule).2 = session := by
  rw [run_eq] at h ⊢
  split
  · simp_all
  · rfl
  · rename_i hfailed
    simp only [hfailed] at h
    split at h <;> contradiction

theorem inside_run (session : Session) (rule : Rule) :
    (session.run rule).2.inside = session.inside := by
  rw [run_eq]
  split
  · rfl
  · rfl
  · dsimp only
    split <;> rfl

theorem inside_runAll (rules : List Rule) (session : Session) :
    (session.runAll rules).inside = session.inside := by
  induction rules generalizing session with
  | nil => rfl
  | cons rule rest ih => exact (ih (session.run rule).2).trans (inside_run session rule)

/-- A rule runs into a failure only where its parser does. -/
theorem exists_failed_of_run {session : Session} {rule : Rule} {diagnostic : Diagnostic}
    (h : (session.run rule).1 = .failed diagnostic) :
    ∃ failure, rule.parse session.inside session.cursor = .failed failure := by
  rw [run_eq] at h
  split at h
  · contradiction
  · contradiction
  · exact ⟨_, ‹_›⟩

end Session

/-- A step without its token and a rule without a match change nothing; a look never moves the
cursor; no run of rules changes the open constructs; and an expression never fails for good. -/
theorem missing_changes_nothing :
    (∀ (source : String) (step : ScanStep) (c : Cursor),
      (step.run source c).1.isMiss = true ∨ step.isLook = true → (step.run source c).2 = c) ∧
    (∀ (session : Session) (rule : Rule),
      (session.run rule).1 = .unmatched → (session.run rule).2 = session) ∧
    (∀ (session : Session) (rules : List Rule), (session.runAll rules).inside = session.inside) ∧
    ∀ (session : Session) (rule : Rule) (diagnostic : Diagnostic),
      rule.isExpressive = true → (session.run rule).1 ≠ .failed diagnostic := by
  refine ⟨?_, fun _ _ => Session.run_of_unmatched, fun session rules =>
    Session.inside_runAll rules session, ?_⟩
  · rintro source step c (h | h)
    · exact ScanStep.run_of_miss source step c h
    · exact ScanStep.run_of_isLook source h c
  · intro session rule diagnostic h hfailed
    obtain ⟨failure, hp⟩ := Session.exists_failed_of_run hfailed
    exact Rule.neverFails_of_isExpressive h _ _ failure hp

/-- A word that only starts with a keyword, and a call that is not closed. -/
theorem missing_word_and_call_change_nothing :
    let c := Cursor.start "  EndValue".toList
    let session := Session.start "  f(1" Settings.standard
    ((ScanStep.keyword .End).run "  EndValue" c).1.isMiss = true ∧
      ((ScanStep.keyword .End).run "  EndValue" c).2 = c ∧
      (session.run .call).1 = .unmatched ∧ (session.run .call).2 = session ∧
      ∀ diagnostic, (session.run .call).1 ≠ .failed diagnostic := by
  intro c session
  have hmiss : ((ScanStep.keyword .End).run "  EndValue" c).1.isMiss = true := by decide +kernel
  have hcall : (Grammar.call Grammar.expression session.cursor).isNone = true := by decide +kernel
  have hrun : (session.run .call).1 = .unmatched := by
    rw [Session.run_eq]
    simp only [Rule.parse, ← bind_pure_comp, Parse.bind_apply, Parse.read,
      Option.isNone_iff_eq_none.mp hcall]
  exact ⟨hmiss, missing_changes_nothing.1 _ _ _ (.inl hmiss), hrun,
    missing_changes_nothing.2.1 _ _ hrun,
    fun diagnostic => missing_changes_nothing.2.2.2 _ _ diagnostic rfl⟩

end VisualBasic
