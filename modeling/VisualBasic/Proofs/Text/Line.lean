import VisualBasic.Proofs.Span.Region
import VisualBasic.Proofs.Text.Gap

/-!
# What stands before on the line

A statement ends with its line or at a colon. From there on only blanks stand before the next one,
on the same line or, after line continuations, on a later one.
-/

set_option autoImplicit false

namespace VisualBasic

/-- A character that ends a line, or a statement on the line. -/
def isStop (char : Char) : Bool := isBreak char || char = ':'

/-- Only blanks lie between an offset of a source and a character of a class before it, or the start
of the source. -/
def BlankSince (ends : Char → Bool) (source : String) (offset : Nat) : Prop :=
  ((splitBytes offset source.toList).1.reverse.dropWhile isBlank).head?.all ends = true

theorem isBlank_eq_false_of_isStop {char : Char} (h : isStop char = true) :
    isBlank char = false := by
  rcases (Bool.or_eq_true _ _).mp h with hbreak | hcolon
  · exact Cursor.isBlank_eq_false_of_isBreak hbreak
  · rw [of_decide_eq_true hcolon]
    rfl

theorem blankSince_of_append {source : String} {before blanks following : List Char}
    (hsource : source.toList = before ++ blanks ++ following)
    (hblanks : ∀ c ∈ blanks, isBlank c = true) (hbefore : before.getLast?.all isStop = true) :
    BlankSince isStop source (byteLength (before ++ blanks)) := by
  have hdrop : before.reverse.dropWhile isBlank = before.reverse := by
    rw [List.getLast?_eq_head?_reverse] at hbefore
    cases hlast : before.reverse with
    | nil => rfl
    | cons char rest =>
      have hstop : isStop char = true := by simpa [hlast] using hbefore
      simp [isBlank_eq_false_of_isStop hstop]
  rw [BlankSince, hsource, splitBytes_byteLength, List.reverse_append,
    List.dropWhile_append_of_pos (by simpa using hblanks), hdrop, ← List.getLast?_eq_head?_reverse]
  exact hbefore

theorem all_getLast?_append {p : Char → Bool} {s t : List Char} (hs : s.getLast?.all p = true)
    (ht : t.getLast?.all p = true) : (s ++ t).getLast?.all p = true := by
  rw [List.getLast?_append]
  cases hlast : t.getLast? with
  | none => simpa using hs
  | some char => simpa [hlast] using ht

/-- Blanks and line continuations end with the blanks of one line. -/
theorem IsBlanks.exists_line {text : List Char} (h : IsBlanks text) :
    ∃ before blanks, text = before ++ blanks ∧ (∀ c ∈ blanks, isBlank c = true) ∧
      before.getLast?.all isBreak = true := by
  induction h with
  | nil => exact ⟨[], [], rfl, by simp, rfl⟩
  | @blank c text hc _ ih =>
    obtain ⟨before, blanks, rfl, hblanks, hbefore⟩ := ih
    cases before with
    | nil => exact ⟨[], c :: blanks, rfl, by simpa using ⟨hc, hblanks⟩, rfl⟩
    | cons d before => exact ⟨c :: d :: before, blanks, rfl, hblanks, by simpa using hbefore⟩
  | @continuation c gap lineBreak text hc _ hbreak _ ih =>
    obtain ⟨before, blanks, rfl, hblanks, hbefore⟩ := ih
    refine ⟨c :: '_' :: gap ++ lineBreak ++ before, blanks, by simp, hblanks, ?_⟩
    refine all_getLast?_append ?_ hbefore
    rw [List.getLast?_append]
    rcases hbreak with rfl | rfl | rfl <;> rfl

namespace Cursor

variable {origin c d : Cursor}

/-- Right after a stop that is reached, or reached at the end of the text. -/
def Stopped (origin d : Cursor) : Prop :=
  (Reaches origin d ∧ d.rest = []) ∨
    ∃ e, Reaches origin e ∧ Over (fun text => text.getLast?.any isStop = true) e d

theorem Stopped.reaches (h : Stopped origin d) : Reaches origin d := by
  rcases h with ⟨h, _⟩ | ⟨e, he, hd⟩
  · exact h
  · exact he.trans hd.reaches

theorem stopped_of_lineBreak (hc : Reaches origin c) (h : c.lineBreak = some d) :
    Stopped origin d := by
  refine .inr ⟨c, hc, (over_of_lineBreak h).1.mono fun text hbreak => ?_⟩
  rcases hbreak with rfl | rfl | rfl <;> rfl

theorem stopped_of_breakOrEnd (hc : Reaches origin c) (h : c.breakOrEnd = some d) :
    Stopped origin d := by
  rcases Option.or_eq_some_iff.mp h with h | ⟨_, h⟩
  · exact stopped_of_lineBreak hc h
  · split at h
    · rename_i hend
      cases h
      exact .inl ⟨hc, List.isEmpty_iff.mp hend⟩
    · contradiction

theorem stopped_of_blankLine (hc : Reaches origin c) (h : c.blankLine = some d) :
    Stopped origin d := stopped_of_lineBreak (hc.trans (reaches_skip _ c)) h

theorem stopped_of_lineEnd (hc : Reaches origin c) (h : c.lineEnd = some d) : Stopped origin d := by
  refine stopped_of_breakOrEnd (hc.trans ((reaches_skipBlanks c).trans ?_)) h
  cases hcomment : c.skipBlanks.comment with
  | none => exact Reaches.refl _
  | some found => exact reaches_of_comment hcomment

theorem stopped_of_colon (hc : Reaches origin c) (h : c.adjacent ':' = some d) :
    Stopped origin d := by
  obtain ⟨hhead, rfl⟩ := adjacent_eq_some_iff.mp h
  obtain ⟨rest, hrest⟩ := List.head?_eq_some_iff.mp hhead
  refine .inr ⟨c, hc, over_skip (n := 1) ?_⟩
  rw [hrest]
  rfl

theorem stopped_of_terminator (hc : Reaches origin c) (h : c.terminator = some d) :
    Stopped origin d := by
  rcases Option.or_eq_some_iff.mp h with h | ⟨_, h⟩
  · exact stopped_of_colon (hc.trans (reaches_skipBlanks c)) h
  · exact stopped_of_lineEnd hc h

theorem Stopped.fresh (h : Stopped origin d) : d.Fresh := by
  rcases h with ⟨_, hrest⟩ | ⟨e, _, text, hrest, rfl, hstop⟩
  · exact fun _ => hrest
  · obtain ⟨char, hlast, hchar⟩ := (Option.any_eq_true _ _).mp hstop
    refine fresh_of_take_getLast? ?_ (isBlank_eq_false_of_isStop hchar)
    rw [hrest, List.take_left]
    exact hlast

/-- The text before a place after a stop ends with the stop. -/
theorem Stopped.exists_text {source : String} (h : Stopped (start source.toList) c)
    (hrest : c.rest ≠ []) :
    ∃ before, source.toList = before ++ c.rest ∧ c.offset = byteLength before ∧
      before.getLast?.all isStop = true := by
  rcases h with ⟨_, hend⟩ | ⟨e, he, text, htext, hc, hstop⟩
  · exact absurd hend hrest
  · obtain ⟨before, hsource, hoffset⟩ := he.eq_append
    refine ⟨before ++ text, by rw [hsource, htext, List.append_assoc], ?_, ?_⟩
    · rw [hc, offset_skip, hoffset, htext, List.take_left, byteLength_append]
    · obtain ⟨char, hlast, hchar⟩ := (Option.any_eq_true _ _).mp hstop
      rw [List.getLast?_append, hlast]
      simpa using hchar

/-- At the start of the source, or after a stop. -/
def Opens (source : String) (c : Cursor) : Prop :=
  c = start source.toList ∨ Stopped (start source.toList) c

/-- From where a construct may start, only blanks and line continuations lie before it. -/
theorem Opens.blankSince {source : String} (h : Opens source c) (hrest : c.rest ≠ []) :
    BlankSince isStop source c.offset ∧ BlankSince isStop source c.skipBlanks.offset := by
  have hbefore : ∃ before, source.toList = before ++ c.rest ∧ c.offset = byteLength before ∧
      before.getLast?.all isStop = true := by
    rcases h with rfl | h
    · exact ⟨[], rfl, rfl, rfl⟩
    · exact h.exists_text hrest
  have hfresh : c.Fresh := by
    rcases h with rfl | h
    · exact fun h => by contradiction
    · exact h.fresh
  obtain ⟨before, hsource, hoffset, hlast⟩ := hbefore
  constructor
  · have hplace : c.offset = byteLength (before ++ []) := by rw [List.append_nil, hoffset]
    rw [hplace]
    exact blankSince_of_append (by simpa using hsource) (by simp) hlast
  · obtain ⟨text, htext, hskip, hblanks⟩ := over_skipBlanks hfresh
    obtain ⟨lines, blanks, rfl, hall, hbreak⟩ := hblanks.exists_line
    have hoffset' : c.skipBlanks.offset = byteLength (before ++ lines ++ blanks) := by
      rw [hskip, offset_skip, htext, List.take_left, hoffset, List.append_assoc,
        byteLength_append before]
    have hstop : lines.getLast?.all isStop = true := by
      cases hline : lines.getLast? with
      | none => rfl
      | some char =>
        have hchar : isBreak char = true := by simpa [hline] using hbreak
        simp [isStop, hchar]
    have hwhole : source.toList = before ++ lines ++ blanks ++ c.skipBlanks.rest := by
      rw [hsource, htext]
      simp
    rw [hoffset']
    exact blankSince_of_append hwhole hall (all_getLast?_append hlast hstop)

end Cursor

end VisualBasic
