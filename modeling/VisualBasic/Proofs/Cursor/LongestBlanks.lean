import VisualBasic.Proofs.Cursor.Place
import VisualBasic.Proofs.Scanner.Token
import VisualBasic.Proofs.Span.Region
import VisualBasic.Proofs.Text.Breaks
import VisualBasic.Proofs.Text.Gap

/-!
# How far the blanks reach

Blanks and line continuations come one after the other; whether an underscore continues its line is
told from the character before it, which may lie before the place where the passage starts. What is
passed over is the longest text of this kind. That a line break is taken whole, and only at the end
of a continuation, follows from there.
-/

set_option autoImplicit false

namespace VisualBasic

/-- A line continuation that comes after a text: an underscore after a blank, then blanks and a line
break. -/
def IsContinuation (before piece : List Char) : Prop :=
  before.getLast?.any isBlank = true ∧
    ∃ blanks lineBreak, piece = '_' :: (blanks ++ lineBreak) ∧
      (∀ b ∈ blanks, isBlank b = true) ∧ IsLineBreak lineBreak

/-- Blanks and line continuations that come after a text. -/
inductive Passable : List Char → List Char → Prop
  | nil {before : List Char} : Passable before []
  | blank {before text : List Char} {c : Char} (hc : isBlank c = true)
    (more : Passable (before ++ [c]) text) : Passable before (c :: text)
  | continuation {before piece text : List Char} (hpiece : IsContinuation before piece)
    (more : Passable (before ++ piece) text) : Passable before (piece ++ text)

/-- The longest of the passable texts with which what comes after a text starts. -/
structure IsLongestPassable (before text after : List Char) : Prop where
  passable : Passable before text
  starts : text <+: after
  longest : ∀ other, Passable before other → other <+: after → other.length ≤ text.length

/-- The character after a part of a text ends the break of a continuation in the text, or is its CR
with the LF coming next. -/
def EndsContinuation (before text lead : List Char) (c : Char) : Prop :=
  ∃ start piece, start ++ piece <+: text ∧ IsContinuation (before ++ start) piece ∧
    (start ++ piece = lead ++ [c] ∨ start ++ piece = lead ++ [c, '\n'])

variable {before piece text blanks lead tail rest : List Char} {c : Char}

/-! ## Line breaks -/

/-- A line break is passed over as it stands, unless it is a CR that an LF follows. -/
theorem IsLineBreak.breakWidth_append (h : IsLineBreak text) (more : List Char) :
    breakWidth (text ++ more) = text.length ∨
      more.head? = some '\n' ∧ text.length < breakWidth (text ++ more) := by
  rcases h with rfl | rfl | rfl
  · exact .inl rfl
  · by_cases hmore : more.head? = some '\n'
    · obtain ⟨rest, rfl⟩ := List.head?_eq_some_iff.mp hmore
      exact .inr ⟨rfl, Nat.one_lt_two⟩
    · exact .inl (VisualBasic.breakWidth_append (by simp) hmore)
  · exact .inl rfl

theorem IsLineBreak.length_pos (h : IsLineBreak text) : 0 < text.length := by
  rcases h with rfl | rfl | rfl <;> decide

theorem IsLineBreak.continuationWidth_append (h : IsLineBreak text)
    (hblanks : ∀ b ∈ blanks, isBlank b = true) (more : List Char) :
    continuationWidth (blanks ++ (text ++ more)) =
      some (blanks.length + breakWidth (text ++ more)) := by
  have hhead : (text ++ more).head?.any isBlank = false := by
    rcases h with rfl | rfl | rfl <;> rfl
  have hpos : breakWidth (text ++ more) ≠ 0 := by
    have hlength := h.length_pos
    rcases h.breakWidth_append more with hwidth | ⟨-, hwidth⟩ <;> omega
  obtain ⟨n, hn⟩ := Nat.exists_eq_succ_of_ne_zero hpos
  rw [VisualBasic.continuationWidth_append hblanks hhead, hn]
  rfl

/-- After a break character of a line break an LF comes at most. -/
theorem IsLineBreak.eq_of_append (h : IsLineBreak (lead ++ c :: tail)) :
    tail = [] ∨ tail = ['\n'] := by
  cases lead with
  | nil =>
    rcases h with h | h | h
    · exact .inr (List.cons.inj h).2
    · exact .inl (List.cons.inj h).2
    · exact .inl (List.cons.inj h).2
  | cons d lead =>
    have hlength : (d :: lead ++ c :: tail).length ≤ 2 := by
      rcases h with h | h | h <;> rw [h] <;> decide
    refine .inl (List.length_eq_zero_iff.mp ?_)
    simp only [List.length_append, List.length_cons] at hlength
    omega

namespace IsContinuation

theorem any_getLast? (h : IsContinuation before piece) :
    (before ++ piece).getLast?.any isBlank = false := by
  obtain ⟨-, blanks, lineBreak, rfl, -, hbreak⟩ := h
  rw [List.getLast?_append, ← List.cons_append, List.getLast?_append]
  rcases hbreak with rfl | rfl | rfl <;> rfl

/-- The break of a continuation is at its end. -/
theorem eq_of_append (h : IsContinuation before (lead ++ c :: tail)) (hc : isBreak c = true) :
    tail = [] ∨ tail = ['\n'] := by
  obtain ⟨-, blanks, lineBreak, heq, hblanks, hbreak⟩ := h
  have hopening : c ∉ '_' :: blanks := by
    intro hmem
    rcases List.mem_cons.mp hmem with rfl | hmem
    · contradiction
    · rw [isBreak_eq_false_of_isBlank (hblanks c hmem)] at hc
      contradiction
  rw [← List.cons_append] at heq
  rcases List.append_eq_append_iff.mp heq with ⟨more, hmore, hrest⟩ | ⟨more, -, hrest⟩
  · cases more with
    | nil =>
      have hwhole : IsLineBreak ([] ++ c :: tail) := hrest ▸ hbreak
      exact hwhole.eq_of_append
    | cons d more =>
      obtain ⟨rfl, -⟩ := List.cons.inj hrest
      exact absurd (hmore ▸ List.mem_append_right lead List.mem_cons_self) hopening
  · rw [hrest] at hbreak
    exact hbreak.eq_of_append

/-- The CR at the end of a continuation may go on to a CR LF. -/
theorem lineFeed (h : IsContinuation before piece) (hlast : piece.getLast? = some '\r') :
    IsContinuation before (piece ++ ['\n']) := by
  obtain ⟨hblank, blanks, lineBreak, rfl, hblanks, hbreak⟩ := h
  obtain rfl : lineBreak = ['\r'] := by
    rw [← List.cons_append, List.getLast?_append] at hlast
    rcases hbreak with rfl | rfl | rfl
    · exact absurd (Option.some.inj hlast) (by decide)
    · rfl
    · exact absurd (Option.some.inj hlast) (by decide)
  exact ⟨hblank, blanks, ['\r', '\n'], by simp, hblanks, .inl rfl⟩

end IsContinuation

theorem EndsContinuation.append (h : EndsContinuation (before ++ piece) text lead c) :
    EndsContinuation before (piece ++ text) (piece ++ lead) c := by
  obtain ⟨start, last, hstarts, hlast, hend⟩ := h
  refine ⟨piece ++ start, last, ?_, ?_, ?_⟩
  · simpa using hstarts
  · rwa [← List.append_assoc]
  · simpa using hend

/-! ## Passable texts -/

namespace Passable

theorem head?_ne_lineFeed (h : Passable before text) : text.head? ≠ some '\n' := by
  cases h with
  | nil => simp
  | blank hc =>
    intro hhead
    rw [Option.some.inj hhead] at hc
    contradiction
  | continuation hpiece =>
    obtain ⟨-, blanks, lineBreak, rfl, -⟩ := hpiece
    simp

/-- A passable text is passed over, however the source goes on. -/
theorem length_le_blankWidth (h : Passable before text) (more : List Char) :
    text.length ≤ blankWidth (before.getLast?.any isBlank) (text ++ more) := by
  induction h with
  | nil => exact Nat.zero_le _
  | @blank before text c hc rest ih =>
    have hlast : (before ++ [c]).getLast?.any isBlank = true := by simpa using hc
    rw [hlast] at ih
    rw [List.cons_append, blankWidth_blank hc]
    exact Nat.succ_le_succ ih
  | @continuation before piece text hpiece rest ih =>
    rw [hpiece.any_getLast?] at ih
    obtain ⟨hblank, blanks, lineBreak, rfl, hblanks, hbreak⟩ := hpiece
    have hsplit : '_' :: (blanks ++ lineBreak) ++ text ++ more =
        '_' :: (blanks ++ (lineBreak ++ (text ++ more))) := by simp
    have hlength : ('_' :: (blanks ++ lineBreak) ++ text).length =
        blanks.length + lineBreak.length + text.length + 1 := by
      simp only [List.length_append, List.length_cons]
      omega
    rw [hblank, hsplit, hlength,
      blankWidth_continuation (hbreak.continuationWidth_append hblanks _)]
    rcases hbreak.breakWidth_append (text ++ more) with hwidth | ⟨hfeed, hwidth⟩
    · have hdrop : (blanks ++ (lineBreak ++ (text ++ more))).drop
        (blanks.length + lineBreak.length) =
          text ++ more := by
        rw [← List.append_assoc, ← List.length_append, List.drop_left]
      rw [hwidth, hdrop]
      omega
    · -- the LF goes with the CR before it, and no passable text starts with one
      have hnil : text.length = 0 := by
        cases text with
        | nil => rfl
        | cons d text => exact absurd hfeed rest.head?_ne_lineFeed
      omega

/-- A break character is found at the end of a continuation only. -/
theorem endsContinuation (h : Passable before text) (htext : text = lead ++ c :: tail)
    (hc : isBreak c = true) : EndsContinuation before text lead c := by
  induction h generalizing lead with
  | nil => simp at htext
  | @blank before text d hd rest ih =>
    cases lead with
    | nil =>
      obtain ⟨rfl, -⟩ := List.cons.inj htext
      rw [isBreak_eq_false_of_isBlank hd] at hc
      contradiction
    | cons e lead =>
      obtain ⟨rfl, hmore⟩ := List.cons.inj htext
      exact (ih hmore).append
  | @continuation before piece text hpiece rest ih =>
    rcases List.append_eq_append_iff.mp htext with ⟨more, rfl, hmore⟩ | ⟨more, hmore, htail⟩
    · exact (ih hmore).append
    · cases more with
      | nil =>
        obtain rfl : piece = lead := by simpa using hmore
        have hends : EndsContinuation (before ++ piece) text [] c := ih htail.symm
        simpa using hends.append
      | cons d more =>
        obtain ⟨rfl, -⟩ := List.cons.inj htail
        refine ⟨[], piece, by simp, by simpa using hpiece, ?_⟩
        rw [hmore] at hpiece
        rw [List.nil_append, hmore]
        exact (hpiece.eq_of_append hc).imp (by rintro rfl; rfl) (by rintro rfl; rfl)

theorem lineFeed (h : Passable before text) (hlast : text.getLast? = some '\r') :
    Passable before (text ++ ['\n']) := by
  induction h with
  | nil => contradiction
  | @blank before text d hd rest ih =>
    cases text with
    | nil =>
      obtain rfl : d = '\r' := by simpa using hlast
      contradiction
    | cons e text => exact .blank hd (ih hlast)
  | @continuation before piece text hpiece rest ih =>
    rw [List.getLast?_append] at hlast
    rw [List.append_assoc]
    cases hmore : text.getLast? with
    | none =>
      obtain rfl := List.getLast?_eq_none_iff.mp hmore
      simpa using Passable.continuation (hpiece.lineFeed hlast) .nil
    | some e =>
      rw [hmore] at hlast
      exact .continuation hpiece (ih (hmore.trans hlast))

end Passable

/-- The longest passable text takes a break whole. -/
theorem IsLongestPassable.undivided (h : IsLongestPassable before text (text ++ rest))
    (hne : text ≠ []) :
    Undivided (before ++ text) rest := by
  rw [undivided_append_iff hne]
  intro hlast hhead
  obtain ⟨more, rfl⟩ := List.head?_eq_some_iff.mp hhead
  have hlonger := h.longest _ (h.passable.lineFeed hlast) ⟨more, by simp⟩
  rw [List.length_append, List.length_singleton] at hlonger
  omega

/-! ## The passage over blanks -/

theorem IsBlanks.passable (h : IsBlanks text) (before : List Char) : Passable before text := by
  induction h generalizing before with
  | nil => exact .nil
  | blank hc _ ih => exact .blank hc (ih _)
  | @continuation c blanks lineBreak text hc hblanks hbreak _ ih =>
    exact .blank hc
      (.continuation ⟨by simpa using hc, blanks, lineBreak, rfl, hblanks, hbreak⟩ (ih _))

theorem Passable.pastBlank (h : Passable before (c :: text)) (hc : isBlank c = true) :
    Passable (before ++ [c]) text := by
  generalize htext : c :: text = whole at h
  cases h with
  | nil => contradiction
  | blank _ more =>
    obtain ⟨rfl, rfl⟩ := List.cons.inj htext
    exact more
  | continuation hpiece =>
    obtain ⟨-, blanks, lineBreak, rfl, -⟩ := hpiece
    obtain ⟨rfl, -⟩ := List.cons.inj htext
    contradiction

/-- Whether a blank comes before the place or not, what is passed over is passable. -/
theorem passable_take_blankWidth (before after : List Char) :
    Passable before (after.take (blankWidth (before.getLast?.any isBlank) after)) := by
  obtain ⟨hafterBlank, hplain⟩ := isBlanks_take_blankWidth (before.getLast?.any isBlank) after
  cases hlast : before.getLast?.any isBlank with
  | false => exact hlast ▸ (hplain hlast).passable before
  | true =>
    obtain ⟨c, hc, hblank⟩ := (Option.any_eq_true _ _).mp hlast
    obtain ⟨init, rfl⟩ := List.getLast?_eq_some_iff.mp hc
    exact hlast ▸ ((hafterBlank c hblank).passable init).pastBlank hblank

theorem length_take_blankWidth (afterBlank : Bool) (text : List Char) :
    (text.take (blankWidth afterBlank text)).length = blankWidth afterBlank text :=
  List.length_take_of_le (blankWidth_le afterBlank text)

theorem isLongestPassable_take_blankWidth (before after : List Char) :
    IsLongestPassable before (after.take (blankWidth (before.getLast?.any isBlank) after))
      after := by
  refine ⟨passable_take_blankWidth before after, List.take_prefix _ _,
    fun other hother hstarts => ?_⟩
  obtain ⟨more, rfl⟩ := hstarts
  rw [length_take_blankWidth]
  exact hother.length_le_blankWidth more

namespace Cursor

theorem skipBlanks_between (before after : List Char) :
    ∃ passed rest, after = passed ++ rest ∧ IsLongestPassable before passed after ∧
      (between before after).skipBlanks = between (before ++ passed) rest := by
  have hlongest := isLongestPassable_take_blankWidth before after
  have hsplit := List.take_append_drop (blankWidth (before.getLast?.any isBlank) after) after
  refine ⟨_, _, hsplit.symm, hlongest, ?_⟩
  rw [← skip_between, length_take_blankWidth, hsplit]
  rfl

end Cursor

namespace Scanner

open Cursor (between ofOffset)

/-- From a place of a source exactly the longest text of blanks and line continuations is passed
over. The place reached lies between two characters, and nothing is passed over from there. A break
is passed over only as the end of a continuation, and no CR LF is divided unless nothing is passed
over at all. -/
theorem skipBlanks_passes_longest (before after : List Char) :
    ∃ passed rest, after = passed ++ rest ∧ IsLongestPassable before passed after ∧
      skipBlanks.run (ofOffset (before ++ after) (byteLength before)) =
        ⟨(), between (before ++ passed) rest, []⟩ ∧
      IsBoundary (before ++ after) (between (before ++ passed) rest).offset ∧
      skipBlanks.run (between (before ++ passed) rest) =
        ⟨(), between (before ++ passed) rest, []⟩ ∧
      (∀ lead c tail, passed = lead ++ c :: tail → isBreak c = true →
        EndsContinuation before passed lead c) ∧
      (¬ Undivided (before ++ passed) rest → passed = []) := by
  obtain ⟨passed, rest, rfl, hlongest, hreached⟩ := Cursor.skipBlanks_between before after
  refine ⟨passed, rest, rfl, hlongest, ?_, ?_, ?_, ?_, ?_⟩
  · rw [run_skipBlanks, Cursor.ofOffset_append, hreached]
  · exact ⟨before ++ passed, rest, (List.append_assoc _ _ _).symm, rfl⟩
  · rw [run_skipBlanks, ← hreached, Cursor.skipBlanks_skipBlanks]
  · intro lead c tail hpassed hc
    exact hlongest.passable.endsContinuation hpassed hc
  · intro hdivided
    by_contra hne
    exact hdivided (hlongest.undivided hne)

/-- The blank before the first underscore lies before the place, and none comes before the last
one. -/
example : (skipBlanks.run (between "x ".toList "_ \r\n\t _\n_y".toList)).cursor.rest =
    "_y".toList := by
  decide +kernel

end Scanner

end VisualBasic
