import VisualBasic.Cursor.Comment
import VisualBasic.Proofs.Text.Lead

/-!
# What stands between two statements

Between statements there are blanks and line continuations, and at most one terminator: a colon, or
the end of a line with a comment or none before it. The end of the source ends its last line.
-/

set_option autoImplicit false

namespace VisualBasic

/-! ## Texts -/

def IsLineBreak (text : List Char) : Prop :=
  text = ['\r', '\n'] ∨ text = ['\r'] ∨ text = ['\n']

/-- Blanks and line continuations: an underscore after a blank, then blanks and a line break. -/
inductive IsBlanks : List Char → Prop
  | nil : IsBlanks []
  | blank {c : Char} {text : List Char} (hc : isBlank c = true) (more : IsBlanks text) :
    IsBlanks (c :: text)
  | continuation {c : Char} {blanks lineBreak text : List Char} (hc : isBlank c = true)
    (hblanks : ∀ b ∈ blanks, isBlank b = true) (hbreak : IsLineBreak lineBreak)
    (more : IsBlanks text) : IsBlanks (c :: '_' :: (blanks ++ lineBreak ++ text))

/-- A comment: an apostrophe or the word `Rem` in any case, and the rest of the line. -/
inductive IsRemark : List Char → Prop
  | apostrophe {body : List Char} (hbody : ∀ c ∈ body, isBreak c = false) :
    IsRemark ('\x27' :: body)
  | word {mark body : List Char} (hmark : sameLetters Keyword.Rem.letters mark = true)
    (hword : NoWord body) (hbody : ∀ c ∈ body, isBreak c = false) : IsRemark (mark ++ body)

/-- What ends a statement, given what follows it in the source. -/
inductive IsTerminator (following : List Char) : List Char → Prop
  | colon : IsTerminator following [':']
  | line {remark lineBreak : List Char} (hremark : remark = [] ∨ IsRemark remark)
    (hbreak : IsLineBreak lineBreak ∨ lineBreak = [] ∧ following = []) :
    IsTerminator following (remark ++ lineBreak)

/-- Blanks around at most one terminator. -/
def IsGap (following text : List Char) : Prop :=
  ∃ lead terminator trail, text = lead ++ terminator ++ trail ∧ IsBlanks lead ∧ IsBlanks trail ∧
    (terminator = [] ∨ IsTerminator (trail ++ following) terminator)

theorem isLineBreak_take_breakWidth {text : List Char} (h : breakWidth text ≠ 0) :
    IsLineBreak (text.take (breakWidth text)) := by
  unfold breakWidth at h ⊢
  split
  · exact .inl rfl
  · exact .inr (.inl rfl)
  · exact .inr (.inr rfl)
  · simp at h

theorem exists_of_continuationWidth {rest : List Char} {n : Nat}
    (h : continuationWidth rest = some n) :
    ∃ blanks lineBreak, rest.take n = blanks ++ lineBreak ∧ (∀ b ∈ blanks, isBlank b = true) ∧
      IsLineBreak lineBreak := by
  obtain ⟨hne, rfl⟩ := continuationWidth_eq_some_iff.mp h
  refine ⟨rest.takeWhile isBlank, _, ?_, fun b hb => of_mem_takeWhile hb,
    isLineBreak_take_breakWidth hne⟩
  rw [List.take_add, take_length_takeWhile]

/-- Blanks that come after a blank may start with the underscore of a continuation. -/
theorem isBlanks_take_blankWidth (afterBlank : Bool) (text : List Char) :
    (∀ c, isBlank c = true → IsBlanks (c :: text.take (blankWidth afterBlank text))) ∧
      (afterBlank = false → IsBlanks (text.take (blankWidth afterBlank text))) := by
  fun_induction blankWidth afterBlank text with
  | case1 =>
    constructor
    · intro c hc
      exact .blank hc .nil
    · intro _
      exact .nil
  | case2 afterBlank c rest hc ih =>
    rw [Nat.add_comm, List.take_succ_cons]
    constructor
    · intro d hd
      exact .blank hd (ih.1 c hc)
    · intro _
      exact ih.1 c hc
  | case3 afterBlank c rest _ hu n hn ih =>
    simp only [Bool.and_eq_true, decide_eq_true_eq] at hu
    obtain ⟨rfl, rfl⟩ := hu
    constructor
    · intro d hd
      obtain ⟨blanks, lineBreak, htext, hblanks, hbreak⟩ := exists_of_continuationWidth hn
      rw [Nat.add_assoc, Nat.add_comm 1, List.take_succ_cons, List.take_add, htext]
      exact .continuation hd hblanks hbreak (ih.2 rfl)
    · intro h
      contradiction
  | case4 =>
    constructor
    · intro c hc
      exact .blank hc .nil
    · intro _
      exact .nil
  | case5 =>
    constructor
    · intro c hc
      exact .blank hc .nil
    · intro _
      exact .nil

/-! ## Places -/

namespace Cursor

/-- From one place over a text to another. -/
def Over (P : List Char → Prop) (c d : Cursor) : Prop :=
  ∃ text, c.rest = text ++ d.rest ∧ d = c.skip text.length ∧ P text

/-- No blank comes before the place, unless it is the end of the text. -/
def Fresh (c : Cursor) : Prop := c.afterBlank = true → c.rest = []

variable {c d : Cursor} {P : List Char → Prop}

theorem Over.reaches (h : Over P c d) : Reaches c d := by
  obtain ⟨text, _, rfl, _⟩ := h
  exact reaches_skip _ _

theorem Over.mono {Q : List Char → Prop} (h : Over P c d) (hP : ∀ text, P text → Q text) :
    Over Q c d := by
  obtain ⟨text, hrest, hd, hp⟩ := h
  exact ⟨text, hrest, hd, hP text hp⟩

theorem over_skip {n : Nat} (h : P (c.rest.take n)) : Over P c (c.skip n) := by
  refine ⟨c.rest.take n, by rw [rest_skip, List.take_append_drop], ?_, h⟩
  rw [List.length_take]
  by_cases hn : n ≤ c.rest.length
  · rw [Nat.min_eq_left hn]
  · have hle : c.rest.length ≤ n := by omega
    rw [Nat.min_eq_right hle]
    obtain ⟨m, rfl⟩ := Nat.exists_eq_add_of_le hle
    rw [skip_add, skip_of_rest_eq_nil (by simp)]

theorem over_skipBlanks (h : c.Fresh) : Over IsBlanks c c.skipBlanks := by
  refine over_skip ?_
  cases hb : c.afterBlank with
  | false => exact (isBlanks_take_blankWidth false c.rest).2 rfl
  | true =>
    rw [h hb, blankWidth]
    exact .nil

theorem fresh_of_take_getLast? {n : Nat} {char : Char}
    (hlast : (c.rest.take n).getLast? = some char) (hchar : isBlank char = false) :
    (c.skip n).Fresh := by
  intro hblank
  rw [afterBlank_skip, hlast] at hblank
  simp [hchar] at hblank

theorem Begun.fresh (h : Begun c d) : d.Fresh := by
  obtain ⟨n, rfl, hink⟩ := h
  obtain ⟨char, hlast, hchar⟩ := (Option.any_eq_true _ _).mp hink.2
  exact fresh_of_take_getLast? hlast (isBlank_eq_false_of_isInk hchar)

/-! ## The ends of statements -/

theorem isBlank_eq_false_of_isBreak {char : Char} (h : isBreak char = true) :
    isBlank char = false := by
  cases hb : isBlank char with
  | false => rfl
  | true => rw [isBreak_eq_false_of_isBlank hb] at h; contradiction

theorem over_of_lineBreak (h : c.lineBreak = some d) : Over IsLineBreak c d ∧ d.Fresh := by
  unfold lineBreak at h
  split at h
  · contradiction
  · rename_i hne
    cases h
    obtain ⟨char, hlast, hchar⟩ := getLast?_take_breakWidth hne
    constructor
    · exact over_skip (isLineBreak_take_breakWidth hne)
    · exact fresh_of_take_getLast? hlast (isBlank_eq_false_of_isBreak hchar)

theorem over_of_breakOrEnd (h : c.breakOrEnd = some d) :
    Over (fun text => IsLineBreak text ∨ text = [] ∧ d.rest = []) c d ∧ d.Fresh := by
  rcases Option.or_eq_some_iff.mp h with h | ⟨_, h⟩
  · obtain ⟨hover, hfresh⟩ := over_of_lineBreak h
    exact ⟨hover.mono fun _ => .inl, hfresh⟩
  · split at h
    · rename_i hend
      cases h
      have hrest : c.rest = [] := List.isEmpty_iff.mp hend
      constructor
      · exact ⟨[], rfl, rfl, .inr ⟨rfl, hrest⟩⟩
      · intro _
        exact hrest
    · contradiction

theorem isBreak_eq_false_of_mem_toLineEnd {char : Char}
    (h : char ∈ c.rest.takeWhile (! isBreak ·)) : isBreak char = false := by
  have := of_mem_takeWhile h
  simpa using this

theorem over_of_comment {content : String} (hc : c.skipBlanks = c)
    (h : c.comment = some (content, d)) : Over IsRemark c d := by
  obtain ⟨body, hmark, hd⟩ := Option.map_eq_some_iff.mp h
  cases hd
  have hline (char : Char) (hchar : char ∈ body.rest.takeWhile (! isBreak ·)) :
      isBreak char = false := isBreak_eq_false_of_mem_toLineEnd hchar
  have hend : body.toLineEnd = body.skip (body.rest.takeWhile (! isBreak ·)).length := rfl
  simp only [commentMark, hc] at hmark
  rcases Option.or_eq_some_iff.mp hmark with hmark | ⟨_, hmark⟩
  · obtain ⟨hhead, rfl⟩ := adjacent_eq_some_iff.mp hmark
    obtain ⟨rest, hrest⟩ := List.head?_eq_some_iff.mp hhead
    rw [hend, ← skip_add]
    apply over_skip
    rw [List.take_add, hrest]
    rw [rest_skip, hrest] at hline ⊢
    rw [List.drop_succ_cons, List.drop_zero] at hline ⊢
    rw [take_length_takeWhile]
    exact .apostrophe hline
  · rw [keyword_eq, hc] at hmark
    split at hmark
    · rename_i hspells
      cases hmark
      obtain ⟨hstarts, hword⟩ := spells_iff.mp hspells
      obtain ⟨_, hsame⟩ := startsWithLetters_iff.mp hstarts
      rw [hend, ← skip_add]
      apply over_skip
      rw [List.take_add]
      rw [rest_skip] at hline ⊢
      rw [take_length_takeWhile]
      refine .word hsame ?_ hline
      -- the rest of the line starts as the text after the mark does, or is empty
      unfold NoWord at hword ⊢
      cases htext : c.rest.drop Keyword.Rem.letters.length with
      | nil => rfl
      | cons char text =>
        rw [htext] at hword
        rw [List.takeWhile_cons]
        split
        · exact hword
        · rfl
    · contradiction

/-- From the end of a construct over blanks and at most one terminator. -/
def Closes (c d : Cursor) : Prop :=
  d.Fresh ∧ ∃ place, Over IsBlanks c place ∧
    Over (fun text => text = [] ∨ IsTerminator d.rest text) place d

theorem Fresh.closes (h : c.Fresh) : Closes c c :=
  ⟨h, c, ⟨[], rfl, rfl, .nil⟩, ⟨[], rfl, rfl, .inl rfl⟩⟩

theorem closes_of_breakOrEnd (h : c.breakOrEnd = some d) : Closes c d := by
  obtain ⟨hover, hfresh⟩ := over_of_breakOrEnd h
  refine ⟨hfresh, c, ⟨[], rfl, rfl, .nil⟩, hover.mono fun text hbreak => .inr ?_⟩
  simpa using IsTerminator.line (.inl rfl) hbreak

theorem Fresh.closes_of_lineEnd (hc : c.Fresh) (h : c.lineEnd = some d) : Closes c d := by
  simp only [lineEnd] at h
  obtain ⟨hover, hfresh⟩ := over_of_breakOrEnd h
  refine ⟨hfresh, c.skipBlanks, over_skipBlanks hc, ?_⟩
  cases hcomment : c.skipBlanks.comment with
  | none =>
    rw [hcomment] at hover
    refine hover.mono fun text hbreak => .inr ?_
    simpa using IsTerminator.line (.inl rfl) hbreak
  | some found =>
    rw [hcomment] at hover
    obtain ⟨remark, hremark, hplace, hkind⟩ := over_of_comment (skipBlanks_skipBlanks c) hcomment
    obtain ⟨lineBreak, hlineBreak, hd, hbreak⟩ := hover
    change found.2.rest = lineBreak ++ d.rest at hlineBreak
    change d = found.2.skip lineBreak.length at hd
    refine ⟨remark ++ lineBreak, ?_, ?_, .inr (.line (.inr hkind) hbreak)⟩
    · rw [hremark, hlineBreak, List.append_assoc]
    · rw [hd, hplace, List.length_append, skip_add]

theorem Fresh.closes_of_terminator (hc : c.Fresh) (h : c.terminator = some d) : Closes c d := by
  rcases Option.or_eq_some_iff.mp h with h | ⟨_, h⟩
  · have hfresh := (begun_of_symbol (by decide) h).fresh
    obtain ⟨hhead, rfl⟩ := adjacent_eq_some_iff.mp h
    obtain ⟨rest, hrest⟩ := List.head?_eq_some_iff.mp hhead
    refine ⟨hfresh, c.skipBlanks, over_skipBlanks hc, over_skip (.inr ?_)⟩
    rw [hrest]
    exact .colon
  · exact hc.closes_of_lineEnd h

/-- What stands between the end of a construct and the start of the next one. -/
theorem Closes.over_skipBlanks (h : Closes c d) :
    Over (IsGap d.skipBlanks.rest) c d.skipBlanks := by
  obtain ⟨hfresh, place, ⟨lead, hlead, hplace, hblanks⟩, terminator, hterminator, hd, hend⟩ := h
  obtain ⟨trail, htrail, hnext, hmore⟩ := Cursor.over_skipBlanks hfresh
  refine ⟨lead ++ terminator ++ trail, ?_, ?_, lead, terminator, trail, rfl, hblanks, hmore, ?_⟩
  · rw [hlead, hterminator, htrail]
    simp
  · rw [hnext, hd, hplace, ← skip_add, ← skip_add]
    simp
  · rwa [← htrail]

theorem Closes.reaches (h : Closes c d) : Reaches c d := by
  obtain ⟨_, place, hblanks, hend⟩ := h
  exact hblanks.reaches.trans hend.reaches

theorem Closes.over (h : Closes c d) : Over (IsGap d.rest) c d := by
  obtain ⟨_, place, ⟨lead, hlead, hplace, hblanks⟩, terminator, hterminator, hd, hend⟩ := h
  refine ⟨lead ++ terminator, ?_, ?_, lead, terminator, [], by simp, hblanks, .nil, hend⟩
  · rw [hlead, hterminator, List.append_assoc]
  · rw [hd, hplace, ← skip_add, List.length_append]

end Cursor

end VisualBasic
