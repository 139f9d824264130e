import VisualBasic.Proofs.Cursor.Place
import VisualBasic.Proofs.Routine.Agreement
import VisualBasic.Proofs.WellFormed.Expression
import VisualBasic.Proofs.Writing.Expression

/-!
# References as values

A reference is read in two ways: for itself where a value is assigned to it, and among expressions
where its value is meant. Before it an expression tries a literal and a call. No literal starts like
a reference, the three words of literals apart, but a call does. So what may be assigned to may also
be read, unless it begins with a call: then the expression ends with that call.
-/

set_option autoImplicit false

namespace VisualBasic

namespace Grammar

open Parse

variable {c d : Cursor}

/-! ## How a reference starts -/

/-- A name comes next, on this line or the one it goes on with. -/
def AtName (c : Cursor) : Prop := ∃ found, c.identifier = some found

theorem AtName.isWordStart_head? (h : AtName c) :
    c.skipBlanks.rest.head?.any isWordStart = true := by
  obtain ⟨⟨name, after⟩, hname⟩ := h
  have hword := (Cursor.identifier_eq_some_iff.mp hname).1
  simp only [Cursor.word] at hword
  split at hword
  · assumption
  · contradiction

theorem AtName.isDigit_head? (h : AtName c) : c.rest.head?.any Char.isDigit = false := by
  have hstart := h.isWordStart_head?
  cases hrest : c.rest with
  | nil => rfl
  | cons char rest =>
    cases hdigit : char.isDigit with
    | false => simpa using hdigit
    | true =>
      have hink := isInk_of_isDigit hdigit
      have hunderscore : char ≠ '_' := by
        rintro rfl
        contradiction
      have hsolid := solid_cons rest (isBlank_eq_false_of_isInk hink) hunderscore
      rw [Cursor.rest_skipBlanks hsolid.here hrest, List.head?_cons, Option.any_some] at hstart
      rw [not_isDigit_of_isWordStart hstart] at hdigit
      contradiction

theorem atName_of_call {r : Reader Expression} {found : Call × Cursor} (h : call r c = some found) :
    AtName c := by
  simp only [call, Option.bind_eq_bind, Option.bind_eq_some_iff, Cursor.identifier_skipBlanks] at h
  obtain ⟨name, hname, _⟩ := h
  exact ⟨name, hname⟩

theorem atName_of_segment {found : Segment × Cursor} (h : segment expression c = some found) :
    AtName c := by
  simp only [segment, Option.bind_eq_bind, Option.bind_eq_some_iff, Option.or_eq_some_iff,
    Option.map_eq_some_iff] at h
  obtain ⟨_, h, _⟩ := h
  rcases h with ⟨found, hcall, _⟩ | ⟨_, found, hname, _⟩
  · exact atName_of_call hcall
  · exact ⟨found, hname⟩

/-- The segments of a reference, or else its name, start at once. -/
theorem atName_of_segments (h : AtName (segments expression c).2) : AtName c := by
  cases hsegment : segment expression c with
  | none => rwa [segments_nil hsegment] at h
  | some found => exact atName_of_segment hsegment

@[simp] theorem reference_skipBlanks (c : Cursor) :
    reference expression c.skipBlanks = reference expression c := by
  simp only [reference, Cursor.skipBlanks_skipBlanks]

variable {target : Reference}

theorem atName_of_reference (h : reference expression c = some (target, d)) :
    AtName ((c.skipBlanks.adjacent '.').getD c.skipBlanks) := by
  simp only [reference, Option.bind_eq_bind, Option.bind_eq_some_iff] at h
  obtain ⟨found, hname, _⟩ := h
  simp only [qualifier, Cursor.skipBlanks_skipBlanks] at hname
  split at hname
  · rename_i hempty
    rw [Bool.and_eq_true, Option.isNone_iff_eq_none] at hempty
    rw [hempty.1, Option.getD_none]
    exact ⟨found, hname⟩
  · exact atName_of_segments ⟨found, hname⟩

/-- A reference starts with a dot or with a name, and what follows the dot is no digit. -/
theorem start_of_reference (h : reference expression c = some (target, d)) :
    readNumber c.skipBlanks.rest = none ∧ c.skipBlanks.rest.head? ≠ some '"' := by
  have hname := atName_of_reference h
  cases hdot : c.skipBlanks.adjacent '.' with
  | none =>
    rw [hdot, Option.getD_none] at hname
    have hletter := hname.isWordStart_head?
    rw [Cursor.skipBlanks_skipBlanks] at hletter
    cases hrest : c.skipBlanks.rest with
    | nil => simp [hrest] at hletter
    | cons char rest =>
      rw [hrest, List.head?_cons, Option.any_some] at hletter
      have hne {other : Char} (ho : isWordStart other = false) := ne_of_isWordStart hletter ho
      constructor
      · exact readNumber_eq_none (isNumberStart_eq_false_of_isWordStart hletter) fun hpoint =>
          absurd hpoint (hne rfl)
      · have hquote : char ≠ '"' := hne rfl
        simpa using hquote
  | some after =>
    rw [hdot, Option.getD_some] at hname
    obtain ⟨hhead, rfl⟩ := Cursor.adjacent_eq_some_iff.mp hdot
    obtain ⟨rest, hrest⟩ := List.head?_eq_some_iff.mp hhead
    have hdigit := hname.isDigit_head?
    rw [Cursor.rest_skip, hrest, List.drop_one, List.tail_cons] at hdigit
    rw [hrest]
    exact ⟨readNumber_eq_none rfl fun _ => hdigit, by simp⟩

/-- The words that are literals. -/
def literalWords : List Keyword := [.True, .False, .Nothing]

theorem literal_eq_none_of_reference (h : reference expression c = some (target, d))
    (hwords : ∀ k ∈ literalWords, spells k c.skipBlanks.rest = false) :
    literal c.skipBlanks = none := by
  have hblanks := Cursor.skipBlanks_skipBlanks c
  obtain ⟨hstart, hquote⟩ := start_of_reference h
  have hword {k : Keyword} (hk : k ∈ literalWords) : c.skipBlanks.keyword k = none := by
    rw [Cursor.keyword_eq, hblanks, hwords k hk]
    rfl
  have hnumber : c.skipBlanks.number = none := by
    rw [Cursor.number, hblanks, hstart, Option.bind_none]
  have hquoted := Cursor.quoted_eq_none hblanks hquote
  simp [literal, hnumber, hquoted, hword (k := .True) (by decide),
    hword (k := .False) (by decide), hword (k := .Nothing) (by decide)]

/-! ## The call at the start of a reference -/

theorem segment_of_segments {head : Segment} {tail : List Segment}
    (h : (segments expression c).1 = head :: tail) :
    ∃ after, segment expression c = some (head, after) := by
  cases hsegment : segment expression c with
  | none =>
    rw [segments_nil hsegment] at h
    contradiction
  | some found =>
    obtain ⟨first, after⟩ := found
    rw [segments, hsegment] at h
    dsimp only at h
    split at h
    all_goals
      cases h
      exact ⟨after, rfl⟩

/-- A segment is a call where a call can be read. -/
theorem call_of_segment {head : Segment} {after : Cursor}
    (h : segment expression c = some (head, after)) :
    match head with
    | .name _ => call expression c = none
    | .call found => ∃ e, call expression c = some (found, e) ∧ e.adjacent '.' = some after := by
  simp only [segment, Option.bind_eq_bind, Option.bind_eq_some_iff] at h
  obtain ⟨⟨first, e⟩, hread, f, hdot, h⟩ := h
  cases h
  simp only [Option.or_eq_some_iff, Option.map_eq_some_iff, Option.map_eq_none_iff] at hread
  rcases hread with ⟨found, hcall, hfirst⟩ | ⟨hcall, found, _, hfirst⟩
  · cases hfirst
    exact ⟨_, hcall, hdot⟩
  · cases hfirst
    exact hcall

/-- A call ends where its span does. -/
theorem offset_of_call {found : Call} (h : call expression c = some (found, d)) :
    d.offset = found.span.stop := by
  simp only [call, Option.bind_eq_bind, Option.bind_eq_some_iff] at h
  obtain ⟨_, _, _, _, _, _, h⟩ := h
  cases h
  rfl

/-- Where a reference begins with a call, that call can be read, and the text goes on after it. -/
theorem call_of_firstCall {found : Call} (h : reference expression c = some (target, d))
    (hfirst : target.qualifier.firstCall = some found) :
    ∃ e, call expression c.skipBlanks = some (found, e) ∧ e.rest ≠ [] := by
  simp only [reference, Option.bind_eq_bind, Option.bind_eq_some_iff] at h
  obtain ⟨_, _, h⟩ := h
  cases h
  simp only [qualifier, Cursor.skipBlanks_skipBlanks] at hfirst
  cases hdot : c.skipBlanks.adjacent '.' with
  | some after => simp [hdot, Qualifier.firstCall] at hfirst
  | none =>
    simp only [hdot, Option.getD_none, Option.isNone_none, Bool.true_and] at hfirst
    split at hfirst
    · simp [Qualifier.none, Qualifier.firstCall] at hfirst
    · cases hsegments : (segments expression c.skipBlanks).1 with
      | nil => simp [hsegments, Qualifier.firstCall] at hfirst
      | cons head tail =>
        rw [hsegments] at hfirst
        cases head with
        | name text => contradiction
        | call other =>
          obtain rfl := Option.some.inj hfirst
          obtain ⟨after, hsegment⟩ := segment_of_segments hsegments
          obtain ⟨e, hcall, hend⟩ := call_of_segment hsegment
          refine ⟨e, hcall, fun hnil => ?_⟩
          simp [Cursor.adjacent, hnil] at hend

/-- Where a reference begins with no call, none can be read, if no parenthesis follows the
reference. -/
theorem call_eq_none_of_firstCall (h : reference expression c = some (target, d))
    (hfirst : target.qualifier.firstCall = none) (hopen : d.symbol '(' = none) :
    call expression c.skipBlanks = none := by
  simp only [reference, Option.bind_eq_bind, Option.bind_eq_some_iff] at h
  obtain ⟨⟨name, after⟩, hname, h⟩ := h
  cases h
  simp only [qualifier, Cursor.skipBlanks_skipBlanks] at hfirst hname
  cases hdot : c.skipBlanks.adjacent '.' with
  | some after =>
    obtain ⟨hhead, _⟩ := Cursor.adjacent_eq_some_iff.mp hdot
    cases hcall : call expression c.skipBlanks with
    | none => rfl
    | some found =>
      have hletter := (atName_of_call hcall).isWordStart_head?
      rw [Cursor.skipBlanks_skipBlanks, hhead] at hletter
      contradiction
  | none =>
    simp only [hdot, Option.getD_none, Option.isNone_none, Bool.true_and] at hfirst hname
    split at hname
    · rename_i hempty
      simp [call, hname, hopen]
    · rename_i hne
      rw [if_neg hne] at hfirst
      cases hsegments : (segments expression c.skipBlanks).1 with
      | nil => simp [hsegments] at hne
      | cons head tail =>
        obtain ⟨after, hsegment⟩ := segment_of_segments hsegments
        have hcall := call_of_segment hsegment
        rw [hsegments] at hfirst
        cases head with
        | name text => exact hcall
        | call other => contradiction

/-! ## References among expressions -/

theorem expression_eq_of_reference (h : reference expression c = some (target, d))
    (hend : d.rest = []) (hwords : ∀ k ∈ literalWords, spells k c.skipBlanks.rest = false) :
    match target.qualifier.firstCall with
    | none => expression c = some (.reference target, d)
    | some found => ∃ e, expression c = some (.call found, e) ∧ e.offset = found.span.stop ∧
        e.rest ≠ [] := by
  have hliteral := literal_eq_none_of_reference h hwords
  rw [expression_eq, expressionWith]
  simp only [hliteral, Option.map_none, Option.none_or]
  cases hfirst : target.qualifier.firstCall with
  | none =>
    have hopen : d.symbol '(' = none := by
      rw [Cursor.symbol, Cursor.skipBlanks_of_nil hend, Cursor.adjacent, hend]
      rfl
    have hcall := call_eq_none_of_firstCall h hfirst hopen
    simp [hcall, h]
  | some found =>
    obtain ⟨e, hcall, hrest⟩ := call_of_firstCall h hfirst
    exact ⟨e, by simp [hcall], offset_of_call hcall, hrest⟩

end Grammar

namespace Routine

open Grammar (literalWords)

/-- A text that is a reference is also an expression, which is that reference unless it begins with
a call; in this case the expression is the call alone and text is left. -/
theorem expression_of_reference {s : Session} {target : Reference} {c : Cursor}
    (h : anyReference.Matches s target c) (hend : c.rest = [])
    (hwords : ∀ k ∈ literalWords, spells k s.cursor.skipBlanks.rest = false) :
    match target.qualifier.firstCall with
    | none => expression.Matches s (.reference target) c
    | some found => ∃ d, expression.Matches s (.call found) d ∧ d.offset = found.span.stop ∧
        d.rest ≠ [] := by
  have hreference := reads_anyReference.matches_iff.mp h
  have hexpression := Grammar.expression_eq_of_reference hreference hend hwords
  simp only [reads_expression.matches_iff]
  exact hexpression

/-- A call inside a reference does not end the expression. -/
theorem expression_of_reference_inner_call :
    let s := Session.start "a.b(1).c" Settings.standard
    ∃ target c, anyReference.Matches s target c ∧ c.rest = [] ∧
      target.qualifier.firstCall = none ∧ expression.Matches s (.reference target) c := by
  intro s
  have hread : (Grammar.reference Grammar.expression s.cursor).map (fun found =>
      (found.2.rest, found.1.qualifier.firstCall.isNone)) = some ([], true) := by
    decide +kernel
  obtain ⟨⟨target, c⟩, h, hfound⟩ := Option.map_eq_some_iff.mp hread
  obtain ⟨hend, hnone⟩ := Prod.mk.inj hfound
  have hfirst : target.qualifier.firstCall = none := Option.isNone_iff_eq_none.mp hnone
  have hmatches : anyReference.Matches s target c := reads_anyReference.matches_iff.mpr h
  have hexpression := expression_of_reference hmatches hend (by decide +kernel)
  rw [hfirst] at hexpression
  exact ⟨target, c, hmatches, hend, hfirst, hexpression⟩

/-- A call at the start of a reference ends the expression, before the dot. -/
theorem not_expression_of_reference_outer_call :
    ¬ ∀ (source : String) (target : Reference) (c : Cursor),
      anyReference.Matches (Session.start source Settings.standard) target c → c.rest = [] →
      (∀ k ∈ literalWords, spells k (Cursor.start source.toList).skipBlanks.rest = false) →
      expression.Matches (Session.start source Settings.standard) (.reference target) c := by
  intro hreference
  have hread : (Grammar.reference Grammar.expression (Cursor.start "f(1).y".toList)).map
      (fun found => found.2.rest) = some [] := by decide +kernel
  have hrefused : ((Grammar.expression (Cursor.start "f(1).y".toList)).bind fun found =>
      found.1.reference?).isNone = true := by decide +kernel
  obtain ⟨⟨target, c⟩, h, hend⟩ := Option.map_eq_some_iff.mp hread
  have hmatches := hreference "f(1).y" target c (reads_anyReference.matches_iff.mpr h) hend
    (by decide +kernel)
  have hexpression : Grammar.expression (Cursor.start "f(1).y".toList) =
      some (.reference target, c) := reads_expression.matches_iff.mp hmatches
  rw [hexpression] at hrefused
  contradiction

end Routine

end VisualBasic
