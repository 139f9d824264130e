import Mathlib.Data.Prod.Lex
import Mathlib.Order.Bounds.Basic
import VisualBasic.Proofs.Span.Region
import VisualBasic.Proofs.Text.Joining

/-!
# Places of byte offsets

The line of an offset counts the line breaks that end up to it and its column the characters since
the last of them; an offset inside a character counts as the character's start. Offsets between
characters and their places are in the same order.
-/

set_option autoImplicit false

namespace VisualBasic

/-- The offsets at which the line breaks of a text end, in order, for a text that starts at an
offset. -/
def breakEnds (start : Nat) : List Char → List Nat
  | [] => []
  | '\r' :: '\n' :: rest => (start + 2) :: breakEnds (start + 2) rest
  | '\r' :: rest => (start + 1) :: breakEnds (start + 1) rest
  | '\n' :: rest => (start + 1) :: breakEnds (start + 1) rest
  | c :: rest => breakEnds (start + c.utf8Size) rest

/-- The breaks of a text that end up to an offset. -/
def breakEndsUpTo (offset : Nat) (source : List Char) : List Nat :=
  (breakEnds 0 source).filter (· ≤ offset)

/-- A place is that of an offset between two characters: the breaks that end up to the offset are
counted, and the characters since the last of them, or since the start of the source. -/
structure Position.IsAt (place : Position) (source : List Char) (offset : Nat) : Prop where
  line : place.line = 1 + (breakEndsUpTo offset source).length
  column : ∃ before line after, source = before ++ line ++ after ∧
    byteLength before = (breakEndsUpTo offset source).getLast?.getD 0 ∧
      byteLength (before ++ line) = offset ∧ place.column = 1 + line.length

/-- Offsets between characters, up to a given one. -/
def boundariesUpTo (offset : Nat) (source : List Char) : Set Nat :=
  { boundary | IsBoundary source boundary ∧ boundary ≤ offset }

variable {source text : List Char} {start offset : Nat}

/-! ## The ends of breaks -/

theorem breakEnds_cons (start : Nat) (c : Char) (rest : List Char) :
    breakEnds start (c :: rest) =
      if endsLine c rest then (start + c.utf8Size) :: breakEnds (start + c.utf8Size) rest
      else breakEnds (start + c.utf8Size) rest := by
  by_cases hn : c = '\n'
  · subst hn
    rfl
  · by_cases hr : c = '\r'
    · subst hr
      cases rest with
      | nil => rfl
      | cons d rest =>
        by_cases hd : d = '\n'
        · subst hd
          rfl
        · rw [breakEnds, if_pos (by simp [endsLine, hd])]
          · rfl
          · simpa using hd
    · rw [breakEnds, if_neg (by simp [endsLine, hn, hr])]
      all_goals simp_all

theorem lt_of_mem_breakEnds {stop : Nat} (h : stop ∈ breakEnds start text) : start < stop := by
  induction text generalizing start with
  | nil => contradiction
  | cons c rest ih =>
    have hsize := c.utf8Size_pos
    have hrest (h : stop ∈ breakEnds (start + c.utf8Size) rest) : start < stop := by
      have hlater := ih h
      omega
    rw [breakEnds_cons] at h
    split at h
    · rcases List.mem_cons.mp h with rfl | h
      · omega
      · exact hrest h
    · exact hrest h

theorem filter_breakEnds_self (start : Nat) (text : List Char) :
    (breakEnds start text).filter (· ≤ start) = [] := by
  refine List.filter_eq_nil_iff.mpr fun stop hstop => ?_
  have hlater := lt_of_mem_breakEnds hstop
  simpa using hlater

/-! ## Advancing to an offset -/

theorem advance_zero (place : Position) (text : List Char) :
    Position.advance place 0 text = place := by
  cases text <;> simp [Position.advance, Char.utf8Size_pos]

/-- Past a character the next line or the next column is reached. -/
theorem advance_cons (place : Position) (c : Char) (n : Nat) (rest : List Char) :
    Position.advance place (c.utf8Size + n) (c :: rest) =
      Position.advance (if endsLine c rest then ⟨place.line + 1, 1⟩
      else ⟨place.line, place.column + 1⟩)
        n rest := by
  have hlt : ¬ c.utf8Size + n < c.utf8Size := by omega
  rw [Position.advance, if_neg hlt, Nat.add_sub_cancel_left]
  split <;> rfl

theorem advance_splitBytes (place : Position) (offset : Nat) (text : List Char) :
    Position.advance place offset text =
      Position.advance place (byteLength (splitBytes offset text).1) text := by
  induction text generalizing place offset with
  | nil => rfl
  | cons c rest ih =>
    rw [splitBytes]
    by_cases hlt : offset < c.utf8Size
    · rw [Position.advance, if_pos hlt, if_pos hlt, byteLength_nil, advance_zero]
    · obtain ⟨more, rfl⟩ := Nat.exists_eq_add_of_le (Nat.not_lt.mp hlt)
      rw [if_neg hlt, byteLength_cons, advance_cons, advance_cons, Nat.add_sub_cancel_left, ih]

variable {before after : List Char} {bound : Nat}

/-- Every break passed over is a line further. -/
theorem line_advance (place : Position) (hbound : start + byteLength before = bound) :
    (Position.advance place (byteLength before) (before ++ after)).line =
      place.line + ((breakEnds start (before ++ after)).filter (· ≤ bound)).length := by
  induction before generalizing place start with
  | nil =>
    obtain rfl : start = bound := hbound
    rw [filter_breakEnds_self, byteLength_nil, advance_zero]
    rfl
  | cons c before ih =>
    have hnext : start + c.utf8Size + byteLength before = bound := by
      rw [← hbound, byteLength_cons, Nat.add_assoc]
    have hkept : start + c.utf8Size ≤ bound := by omega
    rw [List.cons_append, byteLength_cons, advance_cons, ih _ hnext, breakEnds_cons]
    split
    · rw [List.filter_cons_of_pos (by simpa using hkept), List.length_cons]
      exact Nat.add_right_comm _ _ _
    · rfl

/-- Past a break the characters after the last one are counted, and else all of them from the first
place. -/
theorem column_advance (after : List Char) (place : Position)
    (hbound : start + byteLength before = bound) :
    ((breakEnds start (before ++ after)).filter (· ≤ bound) = [] ∧
      (Position.advance place (byteLength before) (before ++ after)).column =
        place.column + before.length) ∨
    ∃ earlier line, before = earlier ++ line ∧
      ((breakEnds start (before ++ after)).filter (· ≤ bound)).getLast? =
        some (start + byteLength earlier) ∧
      (Position.advance place (byteLength before) (before ++ after)).column = 1 + line.length := by
  induction before generalizing place start with
  | nil =>
    obtain rfl : start = bound := hbound
    rw [filter_breakEnds_self, byteLength_nil, advance_zero]
    exact .inl ⟨rfl, rfl⟩
  | cons c before ih =>
    have hnext : start + c.utf8Size + byteLength before = bound := by
      rw [← hbound, byteLength_cons, Nat.add_assoc]
    have hkept : start + c.utf8Size ≤ bound := by omega
    rw [List.cons_append, byteLength_cons, advance_cons, breakEnds_cons]
    split
    · rw [List.filter_cons_of_pos (by simpa using hkept)]
      refine .inr ?_
      rcases ih ⟨place.line + 1, 1⟩ hnext
        with ⟨hnone, hcolumn⟩ | ⟨earlier, line, rfl, hlast, hcolumn⟩
      · exact ⟨[c], before, rfl, by simp [hnone], hcolumn⟩
      · refine ⟨c :: earlier, line, rfl, ?_, hcolumn⟩
        rw [List.getLast?_cons, hlast, byteLength_cons, ← Nat.add_assoc]
        rfl
    · rcases ih ⟨place.line, place.column + 1⟩ hnext with
        ⟨hnone, hcolumn⟩ | ⟨earlier, line, rfl, hlast, hcolumn⟩
      · refine .inl ⟨hnone, ?_⟩
        rw [hcolumn, List.length_cons, Nat.add_right_comm, Nat.add_assoc]
      · refine .inr ⟨c :: earlier, line, rfl, ?_, hcolumn⟩
        rw [hlast, byteLength_cons, ← Nat.add_assoc]

/-- An offset is reached in two steps. -/
theorem advance_add (place : Position) (before after : List Char) (n : Nat) :
    Position.advance place (byteLength before + n) (before ++ after) =
      Position.advance (Position.advance place (byteLength before) (before ++ after)) n after := by
  induction before generalizing place with
  | nil => rw [List.nil_append, byteLength_nil, Nat.zero_add, advance_zero]
  | cons c before ih =>
    rw [List.cons_append, byteLength_cons, Nat.add_assoc, advance_cons, advance_cons, ih]

theorem isAt_byteLength (before after : List Char) :
    (Position.ofOffset (before ++ after) (byteLength before)).IsAt (before ++ after)
      (byteLength before) where
  line := line_advance ⟨1, 1⟩ (Nat.zero_add _)
  column := by
    rcases column_advance after ⟨1, 1⟩ (Nat.zero_add (byteLength before)) with
      ⟨hnone, hcolumn⟩ | ⟨earlier, line, rfl, hlast, hcolumn⟩
    · refine ⟨[], before, after, rfl, ?_, rfl, hcolumn⟩
      rw [breakEndsUpTo, hnone]
      rfl
    · refine ⟨earlier, line, after, rfl, ?_, rfl, hcolumn⟩
      rw [breakEndsUpTo, hlast, Nat.zero_add]
      rfl

/-! ## Offsets between characters -/

theorem isGreatest_splitBytes (offset : Nat) (source : List Char) :
    IsGreatest (boundariesUpTo offset source) (byteLength (splitBytes offset source).1) := by
  constructor
  · exact ⟨⟨_, _, (splitBytes_append offset source).symm, rfl⟩,
      byteLength_splitBytes_le offset source⟩
  · rintro boundary ⟨⟨before, after, rfl, rfl⟩, hle⟩
    obtain ⟨more, rfl⟩ := Nat.exists_eq_add_of_le hle
    rw [splitBytes_append_byteLength, byteLength_append]
    exact Nat.le_add_right _ _

/-- Two texts that start the same source and end at the same offset are one. -/
theorem eq_of_byteLength_eq {before after before' after' : List Char}
    (h : before ++ after = before' ++ after') (hlength : byteLength before = byteLength before') :
    before = before' := by
  have hsplit := splitBytes_byteLength before after
  rw [h, hlength, splitBytes_byteLength] at hsplit
  exact (Prod.ext_iff.mp hsplit).1.symm

/-- Of two texts that start the same source the one with more bytes has more characters. -/
theorem length_lt_of_byteLength_lt {before after before' after' : List Char}
    (h : before ++ after = before' ++ after') (hlt : byteLength before < byteLength before') :
    before.length < before'.length := by
  by_contra hle
  obtain ⟨more, rfl, _⟩ | ⟨more, rfl, _⟩ := List.append_eq_append_iff.mp h
  · rw [List.length_append] at hle
    obtain rfl : more = [] := List.eq_nil_of_length_eq_zero (by omega)
    simp at hlt
  · rw [byteLength_append] at hlt
    omega

theorem sublist_breakEndsUpTo {a b : Nat} (h : a ≤ b) (source : List Char) :
    (breakEndsUpTo a source).Sublist (breakEndsUpTo b source) := by
  have hfilter : breakEndsUpTo a source = (breakEndsUpTo b source).filter (· ≤ a) := by
    rw [breakEndsUpTo, breakEndsUpTo, List.filter_filter]
    refine List.filter_congr fun stop _ => ?_
    have hle : stop ≤ a ↔ stop ≤ a ∧ stop ≤ b := by omega
    rw [← Bool.decide_and]
    exact decide_eq_decide.mpr hle
  rw [hfilter]
  exact List.filter_sublist

/-- Places are in the order of their offsets. -/
theorem Position.IsAt.lt {place place' : Position} {a b : Nat} (h : place.IsAt source a)
    (h' : place'.IsAt source b) (hlt : a < b) :
    toLex (place.line, place.column) < toLex (place'.line, place'.column) := by
  have hsublist := sublist_breakEndsUpTo (Nat.le_of_lt hlt) source
  rw [Prod.Lex.toLex_lt_toLex, h.line, h'.line]
  rcases Nat.lt_or_eq_of_le hsublist.length_le with hbreaks | hbreaks
  · exact .inl (by dsimp only; omega)
  · refine .inr ⟨by dsimp only; omega, ?_⟩
    -- Both places lie after the same break, so the line of the first starts the line of the second.
    obtain ⟨before, line, after, hsource, hstart, hstop, hcolumn⟩ := h.column
    obtain ⟨before', line', after', hsource', hstart', hstop', hcolumn'⟩ := h'.column
    rw [← hsublist.eq_of_length hbreaks, ← hstart] at hstart'
    rw [hsource, List.append_assoc, List.append_assoc] at hsource'
    obtain rfl := eq_of_byteLength_eq hsource' hstart'.symm
    rw [byteLength_append] at hstop hstop'
    have hlength := length_lt_of_byteLength_lt (List.append_cancel_left hsource') (by omega)
    dsimp only
    omega

/-- The place of an offset counts the breaks that end up to it, moved back to the start of a
character, and the characters since the last of them. Of two offsets between characters the smaller
has the earlier place. -/
theorem ofOffset_orders_offsets (source : List Char) :
    (∀ offset, ∃ clamped, IsGreatest (boundariesUpTo offset source) clamped ∧
      (Position.ofOffset source offset).IsAt source clamped) ∧
    ∀ a b, IsBoundary source a → IsBoundary source b → a < b →
      toLex ((Position.ofOffset source a).line, (Position.ofOffset source a).column) <
        toLex ((Position.ofOffset source b).line, (Position.ofOffset source b).column) := by
  constructor
  · intro offset
    refine ⟨_, isGreatest_splitBytes offset source, ?_⟩
    have hplace := isAt_byteLength (splitBytes offset source).1 (splitBytes offset source).2
    rw [splitBytes_append] at hplace
    rwa [Position.ofOffset, advance_splitBytes]
  · rintro a b ⟨before, after, hsource, rfl⟩ ⟨before', after', hsource', rfl⟩ hlt
    have hplace := isAt_byteLength before after
    have hplace' := isAt_byteLength before' after'
    rw [← hsource] at hplace
    rw [← hsource'] at hplace'
    exact hplace.lt hplace' hlt

/-- The offsets before and after the second character of a CR LF. -/
theorem ofOffset_orders_offsets_of_break :
    IsBoundary "é\r\nx".toList 3 ∧ IsBoundary "é\r\nx".toList 4 ∧ 3 < 4 ∧
      toLex ((Position.ofOffset "é\r\nx".toList 3).line,
        (Position.ofOffset "é\r\nx".toList 3).column) <
        toLex ((Position.ofOffset "é\r\nx".toList 4).line,
          (Position.ofOffset "é\r\nx".toList 4).column) := by
  have hinside : IsBoundary "é\r\nx".toList 3 := ⟨['é', '\r'], ['\n', 'x'], rfl, by decide⟩
  have hafter : IsBoundary "é\r\nx".toList 4 := ⟨['é', '\r', '\n'], ['x'], rfl, by decide⟩
  exact ⟨hinside, hafter, by decide, (ofOffset_orders_offsets _).2 3 4 hinside hafter (by decide)⟩

end VisualBasic
