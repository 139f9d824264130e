import VisualBasic.Cursor.Blank
import VisualBasic.Proofs.Cursor.Ink
import VisualBasic.Proofs.Text.Run

/-!
# Where the blanks end

Passing over blanks a second time moves nothing, and nothing is passed over before ink other than an
underscore.
-/

set_option autoImplicit false

namespace VisualBasic

/-- The last character passed over is the one before the place. -/
theorem Cursor.afterBlank_skip (n : Nat) (c : Cursor) :
    (c.skip n).afterBlank = ((c.rest.take n).getLast?.map isBlank).getD c.afterBlank := by
  induction n generalizing c with
  | zero => simp
  | succ n ih =>
    rw [Cursor.skip_succ, ih, Cursor.rest_next]
    obtain ⟨offset, afterBlank, rest⟩ := c
    cases rest with
    | nil => simp [Cursor.next]
    | cons char rest =>
      cases h : (rest.take n).getLast? <;>
        simp [Cursor.next, List.getLast?_cons, h]

/-- A line break ends with a break character. -/
theorem getLast?_take_breakWidth {text : List Char} (h : breakWidth text ≠ 0) :
    ∃ c, (text.take (breakWidth text)).getLast? = some c ∧ isBreak c = true := by
  unfold breakWidth at h ⊢
  split
  · exact ⟨'\n', rfl, rfl⟩
  · exact ⟨'\r', rfl, rfl⟩
  · exact ⟨'\n', rfl, rfl⟩
  · simp at h

/-- A continuation is blanks and a line break. -/
theorem continuationWidth_eq_some_iff {rest : List Char} {n : Nat} :
    continuationWidth rest = some n ↔
      breakWidth (rest.drop (rest.takeWhile isBlank).length) ≠ 0 ∧
        n = (rest.takeWhile isBlank).length +
          breakWidth (rest.drop (rest.takeWhile isBlank).length) := by
  unfold continuationWidth
  dsimp only
  split
  · rename_i h
    simp only [h, ne_eq, not_true_eq_false, false_and, reduceCtorEq]
  · rename_i w h
    simp only [Option.some.injEq, eq_comm (b := n)]
    exact ⟨fun hn => ⟨fun h0 => h h0, hn⟩, fun hn => hn.2⟩

/-- The blanks after the underscore of a continuation, and the break after them. -/
theorem continuationWidth_append {blanks rest : List Char}
    (hblanks : ∀ c ∈ blanks, isBlank c = true)
    (hrest : rest.head?.any isBlank = false) :
    continuationWidth (blanks ++ rest) =
      match breakWidth rest with
      | 0 => none
      | n => some (blanks.length + n) := by
  cases hwidth : breakWidth rest <;>
    simp only [continuationWidth, takeWhile_append_of_head hblanks hrest, List.drop_left, hwidth]

/-- The last character of a continuation is a break. -/
theorem any_isBlank_getLast?_take_continuationWidth {text : List Char} {n : Nat}
    (h : continuationWidth text = some n) (before : List Char) :
    (before ++ text.take n).getLast?.any isBlank = false := by
  obtain ⟨hne, rfl⟩ := continuationWidth_eq_some_iff.mp h
  obtain ⟨c, hl, hb⟩ := getLast?_take_breakWidth hne
  rw [List.take_add, ← List.append_assoc, List.getLast?_append, hl]
  cases hc : isBlank c with
  | false => simp [hc]
  | true => simp [isBreak_eq_false_of_isBlank hc] at hb

theorem Cursor.afterBlank_skip_continuationWidth {c : Cursor} {n : Nat}
    (h : continuationWidth c.rest = some n) : (c.skip n).afterBlank = false := by
  obtain ⟨hne, rfl⟩ := continuationWidth_eq_some_iff.mp h
  obtain ⟨char, hl, hb⟩ := getLast?_take_breakWidth hne
  rw [Cursor.skip_add, Cursor.afterBlank_skip, Cursor.rest_skip, hl]
  cases hc : isBlank char with
  | false => simp [hc]
  | true => simp [isBreak_eq_false_of_isBlank hc] at hb

theorem blankWidth_blank {afterBlank : Bool} {c : Char} {rest : List Char}
    (h : isBlank c = true) : blankWidth afterBlank (c :: rest) = blankWidth true rest + 1 := by
  rw [blankWidth, if_pos h, Nat.add_comm]

theorem blankWidth_continuation {rest : List Char} {n : Nat} (h : continuationWidth rest = some n) :
    blankWidth true ('_' :: rest) = n + blankWidth false (rest.drop n) + 1 := by
  rw [blankWidth, if_neg (by decide), if_pos (by decide), h]
  dsimp only
  omega

/-- Only a blank, or an underscore after a blank, is passed over. -/
theorem blankWidth_cons_eq_zero {afterBlank : Bool} {c : Char} {rest : List Char}
    (hb : isBlank c = false)
    (hc : afterBlank = true → c = '_' → continuationWidth rest = none) :
    blankWidth afterBlank (c :: rest) = 0 := by
  rw [blankWidth, if_neg (by simp [hb])]
  split
  · rename_i h
    simp only [Bool.and_eq_true, decide_eq_true_eq] at h
    rw [hc h.1 h.2]
  · rfl

theorem breakWidth_eq_zero {c : Char} (hc : isBreak c = false) (rest : List Char) :
    breakWidth (c :: rest) = 0 := by
  have hn : c ≠ '\n' := by rintro rfl; contradiction
  rw [breakWidth.eq_def]
  split <;> simp_all [isBreak]

/-- A break ends where its text does, unless an LF comes next. -/
theorem breakWidth_append {text more : List Char} (hne : text ≠ [])
    (hmore : more.head? ≠ some '\n') :
    breakWidth (text ++ more) = breakWidth text := by
  obtain ⟨c, rest, rfl⟩ := List.exists_cons_of_ne_nil hne
  by_cases hr : c = '\r'
  · subst hr
    have hreturn (text : List Char) (h : text.head? ≠ some '\n') :
        breakWidth ('\r' :: text) = 1 := by
      cases text with
      | nil => rfl
      | cons d text =>
        have hd : d ≠ '\n' := by simpa using h
        simp [breakWidth, hd]
    by_cases hrest : rest.head? = some '\n'
    · obtain ⟨tail, rfl⟩ := List.head?_eq_some_iff.mp hrest
      rfl
    · rw [List.cons_append, hreturn rest hrest, hreturn]
      cases rest with
      | nil => exact hmore
      | cons => exact hrest
  · by_cases hn : c = '\n'
    · subst hn
      rfl
    · simp [breakWidth, hr, hn]

theorem breakWidth_le (text : List Char) : breakWidth text ≤ text.length := by
  unfold breakWidth
  split <;> simp

/-- A break is told from its own characters. -/
theorem breakWidth_take (text : List Char) :
    breakWidth (text.take (breakWidth text)) = breakWidth text := by
  rw [breakWidth.eq_def text]
  split <;> rfl

theorem continuationWidth_take {text : List Char} {n : Nat} (h : continuationWidth text = some n) :
    continuationWidth (text.take n) = some n := by
  obtain ⟨hne, rfl⟩ := continuationWidth_eq_some_iff.mp h
  have hblanks : (text.take ((text.takeWhile isBlank).length +
      breakWidth (text.drop (text.takeWhile isBlank).length))).takeWhile isBlank =
      text.takeWhile isBlank := by
    rw [← List.take_takeWhile]
    exact List.take_of_length_le (Nat.le_add_right _ _)
  rw [continuationWidth_eq_some_iff, hblanks, List.drop_take, Nat.add_sub_cancel_left,
    breakWidth_take]
  exact ⟨hne, rfl⟩

/-- A line of blanks is what ends a line continuation. -/
theorem Cursor.blankLine_eq (c : Cursor) :
    c.blankLine = (continuationWidth c.rest).map fun n => c.skip n := by
  rw [blankLine, lineBreak, continuationWidth, rest_skip]
  generalize breakWidth (c.rest.drop (c.rest.takeWhile isBlank).length) = width
  cases width with
  | zero => rfl
  | succ width => exact congrArg some (skip_add _ _ c).symm

theorem blankWidth_le (afterBlank : Bool) (text : List Char) :
    blankWidth afterBlank text ≤ text.length := by
  fun_induction blankWidth afterBlank text with
  | case1 => exact Nat.le_refl 0
  | case2 afterBlank c rest hc ih =>
    rw [List.length_cons]
    omega
  | case3 afterBlank c rest hc hu n hn ih =>
    have hle : n ≤ rest.length := by
      obtain ⟨_, rfl⟩ := continuationWidth_eq_some_iff.mp hn
      have hblanks := (List.takeWhile_sublist (l := rest) isBlank).length_le
      have hbreak := breakWidth_le (rest.drop (rest.takeWhile isBlank).length)
      simp only [List.length_drop] at hbreak
      omega
    simp only [List.length_drop, List.length_cons] at ih ⊢
    omega
  | case4 => exact Nat.zero_le _
  | case5 => exact Nat.zero_le _

theorem Cursor.blankWidth_skipBlanks (c : Cursor) :
    blankWidth c.skipBlanks.afterBlank c.skipBlanks.rest = 0 := by
  have main (afterBlank : Bool) (rest : List Char) (offset : Nat) :
      blankWidth (skip (blankWidth afterBlank rest) ⟨offset, afterBlank, rest⟩).afterBlank
        (skip (blankWidth afterBlank rest) ⟨offset, afterBlank, rest⟩).rest = 0 := by
    fun_induction blankWidth afterBlank rest generalizing offset with
    | case1 => simp [blankWidth]
    | case2 afterBlank c rest hc ih =>
      rw [Nat.add_comm, Cursor.skip_succ]
      simpa [Cursor.next, hc] using ih (offset + c.utf8Size)
    | case3 afterBlank c rest hc h n hn ih =>
      rw [Nat.add_assoc, Nat.add_comm, Cursor.skip_succ, Cursor.skip_add]
      have hd := afterBlank_skip_continuationWidth
        (c := (⟨offset, afterBlank, c :: rest⟩ : Cursor).next) hn
      have hr := rest_skip n (⟨offset, afterBlank, c :: rest⟩ : Cursor).next
      generalize (⟨offset, afterBlank, c :: rest⟩ : Cursor).next.skip n = d at hd hr ⊢
      obtain ⟨place, afterBlank', rest'⟩ := d
      subst hd
      subst hr
      exact ih place
    | case4 afterBlank c rest hc h hn =>
      exact blankWidth_cons_eq_zero (by simpa using hc) fun _ _ => hn
    | case5 afterBlank c rest hc h =>
      refine blankWidth_cons_eq_zero (by simpa using hc) fun ha hu => ?_
      have ha : afterBlank = true := ha
      simp [ha, hu] at h
  exact main c.afterBlank c.rest c.offset

@[simp] theorem Cursor.skipBlanks_skipBlanks (c : Cursor) :
    c.skipBlanks.skipBlanks = c.skipBlanks := by
  rw [skipBlanks, blankWidth_skipBlanks, skip_zero]

@[simp] theorem Cursor.word_skipBlanks (c : Cursor) : c.skipBlanks.word = c.word := by
  simp only [word, skipBlanks_skipBlanks]

@[simp] theorem Cursor.peekWord_skipBlanks (c : Cursor) : c.skipBlanks.peekWord = c.peekWord := by
  simp only [peekWord, word_skipBlanks]

@[simp] theorem Cursor.identifier_skipBlanks (c : Cursor) :
    c.skipBlanks.identifier = c.identifier := by
  simp only [identifier, word_skipBlanks]

theorem Cursor.adjacent_eq_none_of_word {c : Cursor} {found : String × Cursor}
    (h : c.word = some found) {char : Char} (hchar : isWordStart char = false) :
    c.skipBlanks.adjacent char = none := by
  rw [adjacent, if_neg]
  intro hhead
  simp only [word, hhead, Option.any_some, hchar] at h
  contradiction

theorem Cursor.skipBlanks_eq_self {c : Cursor} {char : Char} {rest : List Char}
    (hr : c.rest = char :: rest) (hb : isBlank char = false)
    (hc : char = '_' → continuationWidth rest = none) : c.skipBlanks = c := by
  rw [skipBlanks, hr, blankWidth_cons_eq_zero hb fun _ => hc, skip_zero]

end VisualBasic
