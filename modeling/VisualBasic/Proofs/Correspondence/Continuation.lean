import VisualBasic.Proofs.Correspondence.Joining
import VisualBasic.Proofs.Diagnostic.Reported

/-!
# Broken lines

A line may be broken at a blank of code that more of the line follows. The places of the source are
aligned with those of the source in which a line continuation stands for the blank: up to the blank
they are the same, and after it they lie a few bytes further on. Comments are those that the parser
begins, so after a name `Rem` a line may be broken too.
-/

set_option autoImplicit false

namespace VisualBasic

open Cursor (between)

/-- An underscore between blanks that ends its line. -/
def lineContinuation : List Char := [' ', '_', '\n', ' ']

/-- A blank of a source where the line may be broken, given the offsets at which comments begin and
the texts before and after the blank. -/
structure Breakable (comments : List Nat) (before : List Char) (blank : Char) (after : List Char) :
    Prop where
  isBlank_blank : isBlank blank = true
  /-- The blank lies neither in a string nor in a comment. -/
  code : Zone.reached comments before = .code
  /-- The blanks after it are not followed by a line break. -/
  inLine : (after.dropWhile isBlank).head?.any isBreak = false

/-- A place of a source and the same place of the source with its line broken. -/
inductive Broken (comments : List Nat) (before : List Char) (blank : Char) (after : List Char) :
    Cursor → Cursor → Prop
  | ahead {s rest : List Char} (split : before = s ++ rest)
    (code : Unbroken rest → Zone.reached comments s = .code) :
    Broken comments before blank after (between s (rest ++ blank :: after))
      (between s (rest ++ (lineContinuation ++ after)))
  | past {c : Cursor} (short : c.rest.length ≤ after.length) :
    Broken comments before blank after c (c.shift 3)

variable {comments : List Nat} {before after s rest text : List Char} {blank : Char} {c d : Cursor}

/-! ## After the blank -/

theorem Broken.past_map {x : Option Cursor} (h : ∀ e, x = some e → e.rest.length ≤ after.length) :
    Option.Rel (Broken comments before blank after) x (x.map (Cursor.shift 3)) := by
  cases x with
  | none => exact .none
  | some e => exact .some (.past (h e rfl))

theorem Broken.past_of_reaches {e : Cursor} (hc : c.rest.length ≤ after.length)
    (he : Cursor.Reaches c e) : e.rest.length ≤ after.length :=
  Nat.le_trans he.length_le hc

theorem Broken.past_skipBlanks (h : c.rest.length ≤ after.length) :
    Broken comments before blank after c.skipBlanks (c.shift 3).skipBlanks := by
  rw [Cursor.skipBlanks_shift]
  exact .past (past_of_reaches h c.reaches_skipBlanks)

theorem Breakable.between_blank (h : Breakable comments before blank after) (s : List Char) :
    between (s ++ lineContinuation) after = (between (s ++ [blank]) after).shift 3 := by
  have hsize : blank.utf8Size = 1 := by
    have hblank := h.isBlank_blank
    simp only [isBlank, Bool.or_eq_true, decide_eq_true_eq] at hblank
    rcases hblank with rfl | rfl <;> rfl
  have hbytes : byteLength lineContinuation = 4 := rfl
  have hlast : (s ++ lineContinuation).getLast? = some ' ' := by
    simp [lineContinuation, List.getLast?_append]
  simp only [between, Cursor.shift, byteLength_append, hbytes, hlast, List.getLast?_concat,
    Option.any_some, h.isBlank_blank, byteLength_cons, byteLength_nil, hsize]
  rfl

/-! ## Before the blank -/

namespace Breakable

theorem ahead_skip {n : Nat} (hn : n ≤ rest.length) (split : before = s ++ rest)
    (code : Unbroken (rest.drop n) → Zone.reached comments (s ++ rest.take n) = .code) :
    Broken comments before blank after ((between s (rest ++ blank :: after)).skip n)
      ((between s (rest ++ (lineContinuation ++ after))).skip n) := by
  have hlength : (rest.take n).length = n := by rw [List.length_take, Nat.min_eq_left hn]
  have hplace (more : List Char) : (between s (rest ++ more)).skip n =
      between (s ++ rest.take n) (rest.drop n ++ more) := by
    have hskip := Cursor.skip_between s (rest.take n) (rest.drop n ++ more)
    rwa [← List.append_assoc, List.take_append_drop, hlength] at hskip
  rw [hplace, hplace]
  exact .ahead (by rw [List.append_assoc, List.take_append_drop, split]) code

/-- Right after a break of the text before the blank. -/
theorem ahead_break {n : Nat} (hn : n ≤ rest.length) (split : before = s ++ rest)
    (hlast : (rest.take n).getLast?.any isBreak = true) :
    Broken comments before blank after ((between s (rest ++ blank :: after)).skip n)
      ((between s (rest ++ (lineContinuation ++ after))).skip n) := by
  refine ahead_skip hn split fun _ => Zone.scan_of_break ?_
  obtain ⟨c, hc, hb⟩ := (Option.any_eq_true _ _).mp hlast
  simpa [List.getLast?_append, hc] using hb

variable (h : Breakable comments before blank after)
include h

/-- The part of the blank's line from a place in code leads to code. -/
theorem scan_rest (split : before = s ++ rest) (code : Zone.reached comments s = .code) :
    Zone.code.scan comments (byteLength s) rest = .code := by
  have hend := h.code
  rwa [split, Zone.reached_append, code] at hend

/-- Along the line, as long as no string starts. -/
theorem ahead_line {n : Nat} (hn : n ≤ rest.length) (hline : Unbroken (rest.take n))
    (hquote : '"' ∉ rest.take n) (split : before = s ++ rest)
    (code : Unbroken rest → Zone.reached comments s = .code) :
    Broken comments before blank after ((between s (rest ++ blank :: after)).skip n)
      ((between s (rest ++ (lineContinuation ++ after))).skip n) := by
  refine ahead_skip hn split fun hmore => ?_
  have hrest : Unbroken rest := fun c hc => by
    rw [← List.take_append_drop n rest] at hc
    exact (List.mem_append.mp hc).elim (hline c) (hmore c)
  have hend := h.scan_rest split (code hrest)
  rw [← List.take_append_drop n rest] at hend
  rw [Zone.reached_append, code hrest]
  exact Zone.code_of_code hquote hmore hend

theorem isBreak_blank : isBreak blank = false := isBreak_eq_false_of_isBlank h.isBlank_blank

theorem blank_ne_newline : blank ≠ '\n' := by
  rintro rfl
  exact absurd h.isBlank_blank (by decide)

theorem blank_ne_quote : blank ≠ '"' := by
  rintro rfl
  exact absurd h.isBlank_blank (by decide)

theorem breakWidth_blank : breakWidth (blank :: after) = 0 :=
  breakWidth_eq_zero h.isBreak_blank after

/-- The blanks from the blank on are not followed by a break. -/
theorem breakWidth_dropWhile : breakWidth (after.dropWhile isBlank) = 0 := by
  have hinLine := h.inLine
  cases hrest : after.dropWhile isBlank with
  | nil => rfl
  | cons c rest => exact breakWidth_eq_zero (by simpa [hrest] using hinLine) rest

/-- A break in front of the blank is met on either side, or none is. -/
theorem lineBreak_ahead (split : before = s ++ rest) :
    Option.Rel (Broken comments before blank after) (between s (rest ++ blank :: after)).lineBreak
      (between s (rest ++ (lineContinuation ++ after))).lineBreak := by
  by_cases hne : rest = []
  · subst hne
    rw [Cursor.lineBreak_eq_none, Cursor.lineBreak_eq_none]
    · exact .none
    · rfl
    · exact h.breakWidth_blank
  · have hleft : breakWidth (rest ++ blank :: after) = breakWidth rest :=
      breakWidth_append hne (by simpa using h.blank_ne_newline)
    have hright : breakWidth (rest ++ (lineContinuation ++ after)) = breakWidth rest :=
      breakWidth_append hne (by simp [lineContinuation])
    by_cases hzero : breakWidth rest = 0
    · rw [Cursor.lineBreak_eq_none (hleft.trans hzero),
        Cursor.lineBreak_eq_none (hright.trans hzero)]
      exact .none
    · rw [Cursor.lineBreak_eq_some hleft hzero, Cursor.lineBreak_eq_some hright hzero]
      obtain ⟨c, hc, hb⟩ := getLast?_take_breakWidth hzero
      exact .some (ahead_break (breakWidth_le rest) split (by simpa [hc] using hb))

/-- A continuation in front of the blank is met on either side, or none is. -/
theorem continuationWidth_ahead (rest : List Char) :
    (continuationWidth (rest ++ blank :: after) = none ∧
      continuationWidth (rest ++ (lineContinuation ++ after)) = none) ∨
    ∃ n ≤ rest.length, (rest.take n).getLast?.any isBreak = true ∧
      continuationWidth (rest ++ blank :: after) = some n ∧
        continuationWidth (rest ++ (lineContinuation ++ after)) = some n := by
  have hsplit := (List.takeWhile_append_dropWhile (p := isBlank) (l := rest)).symm
  have hblanks : ∀ c ∈ rest.takeWhile isBlank, isBlank c = true := fun c hc => of_mem_takeWhile hc
  have hend := any_head?_dropWhile isBlank rest
  generalize rest.takeWhile isBlank = blanks at hsplit hblanks
  generalize rest.dropWhile isBlank = tail at hsplit hend
  subst hsplit
  cases tail with
  | nil =>
    have hleft : ∀ c ∈ blanks ++ blank :: after.takeWhile isBlank, isBlank c = true := by
      intro c hc
      simp only [List.mem_append, List.mem_cons] at hc
      rcases hc with hc | rfl | hc
      · exact hblanks c hc
      · exact h.isBlank_blank
      · exact of_mem_takeWhile hc
    have hright : ∀ c ∈ blanks ++ [' '], isBlank c = true := by
      intro c hc
      simp only [List.mem_append, List.mem_singleton] at hc
      rcases hc with hc | rfl
      · exact hblanks c hc
      · rfl
    have hafter : blanks ++ [] ++ blank :: after =
        (blanks ++ blank :: after.takeWhile isBlank) ++ after.dropWhile isBlank := by simp
    have hcontinued : blanks ++ [] ++ (lineContinuation ++ after) =
        (blanks ++ [' ']) ++ '_' :: '\n' :: ' ' :: after := by simp [lineContinuation]
    rw [hafter, continuationWidth_append hleft (any_head?_dropWhile isBlank after),
      h.breakWidth_dropWhile, hcontinued, continuationWidth_append hright rfl]
    exact .inl ⟨rfl, rfl⟩
  | cons c tail =>
    have hleft : breakWidth (c :: tail ++ blank :: after) = breakWidth (c :: tail) :=
      breakWidth_append (by simp) (by simpa using h.blank_ne_newline)
    have hright : breakWidth (c :: tail ++ (lineContinuation ++ after)) = breakWidth (c :: tail) :=
      breakWidth_append (by simp) (by simp [lineContinuation])
    rw [List.append_assoc, List.append_assoc,
      continuationWidth_append hblanks (by simpa using hend),
      continuationWidth_append hblanks (by simpa using hend), hleft, hright]
    by_cases hzero : breakWidth (c :: tail) = 0
    · rw [hzero]
      exact .inl ⟨rfl, rfl⟩
    · obtain ⟨last, hlast, hb⟩ := getLast?_take_breakWidth hzero
      have hle := breakWidth_le (c :: tail)
      generalize breakWidth (c :: tail) = n at hzero hlast hle
      obtain ⟨m, rfl⟩ := Nat.exists_eq_succ_of_ne_zero hzero
      refine .inr ⟨blanks.length + (m + 1), by simpa using hle, ?_, rfl, rfl⟩
      rw [List.take_length_add_append, List.getLast?_append, hlast]
      simpa using hb

/-- The continuation is passed over like the blank. -/
theorem skipBlanks_here (s : List Char) :
    Broken comments before blank after (between s (blank :: after)).skipBlanks
      (between s (lineContinuation ++ after)).skipBlanks := by
  have hleft : (between s (blank :: after)).skipBlanks =
      (between (s ++ [blank]) after).skipBlanks := by
    rw [Cursor.skipBlanks_of_blank rfl h.isBlank_blank]
    exact congrArg Cursor.skipBlanks (Cursor.skip_between s [blank] after)
  have hright : (between s (lineContinuation ++ after)).skipBlanks =
      (between (s ++ lineContinuation) after).skipBlanks := by
    have hfirst := Cursor.skip_between s [' '] ('_' :: '\n' :: ' ' :: after)
    have hsecond := Cursor.skip_between (s ++ [' ']) ['_', '\n'] (' ' :: after)
    have hthird := Cursor.skip_between (s ++ [' '] ++ ['_', '\n']) [' '] after
    have hblank : (between s (lineContinuation ++ after)).skipBlanks =
        (between (s ++ [' ']) ('_' :: '\n' :: ' ' :: after)).skipBlanks :=
      (Cursor.skipBlanks_of_blank rfl rfl).trans (congrArg Cursor.skipBlanks hfirst)
    have hbreak : (between (s ++ [' ']) ('_' :: '\n' :: ' ' :: after)).skipBlanks =
        (between (s ++ [' '] ++ ['_', '\n']) (' ' :: after)).skipBlanks := by
      rw [Cursor.skipBlanks_of_continuation (n := 1) rfl (by simp [isBlank]) rfl]
      exact congrArg Cursor.skipBlanks hsecond
    rw [hblank, hbreak, Cursor.skipBlanks_of_blank rfl rfl]
    refine (congrArg Cursor.skipBlanks hthird).trans ?_
    rw [List.append_assoc, List.append_assoc]
    rfl
  rw [hleft, hright, h.between_blank]
  exact .past_skipBlanks (Nat.le_refl _)

end Breakable

namespace Broken

variable (h : Breakable comments before blank after)
include h

/-- Up to the blank, a blank or a continuation is passed over on either side, or neither has one; at
the blank, the whole continuation is. -/
theorem passWidth (hcd : Broken comments before blank after c d) :
    Broken comments before blank after c.skipBlanks d.skipBlanks ∨
      Option.Rel (fun m n => Broken comments before blank after (c.skip m) (d.skip n)) c.passWidth
        d.passWidth := by
  cases hcd with
  | past short => exact .inl (past_skipBlanks short)
  | @ahead s rest split code =>
    cases rest with
    | nil => exact .inl (h.skipBlanks_here s)
    | cons char rest =>
      right
      have hcons (more : List Char) : (between s (char :: rest ++ more)).rest =
          char :: (rest ++ more) :=
        rfl
      by_cases hchar : isBlank char = true
      · have hquote : char ≠ '"' := by
          rintro rfl
          contradiction
        rw [Cursor.passWidth_of_blank (hcons _) hchar, Cursor.passWidth_of_blank (hcons _) hchar]
        refine .some (h.ahead_line (by simp) ?_ (by simpa using hquote.symm) split code)
        simpa [Unbroken] using isBreak_eq_false_of_isBlank hchar
      · have hchar : isBlank char = false := by simpa using hchar
        by_cases hunder : s.getLast?.any isBlank = true ∧ char = '_'
        · obtain ⟨hb, rfl⟩ := hunder
          rw [Cursor.passWidth_of_underscore (hcons _) hb,
            Cursor.passWidth_of_underscore (hcons _) hb]
          rcases h.continuationWidth_ahead rest with ⟨hleft, hright⟩ | ⟨m, hm, hlast, hleft, hright⟩
          · rw [hleft, hright]
            exact .none
          · rw [hleft, hright]
            refine .some (Breakable.ahead_break (by simpa using hm) split ?_)
            obtain ⟨last, hl, hbreak⟩ := (Option.any_eq_true _ _).mp hlast
            simpa [List.getLast?_cons, hl] using hbreak
        · rw [Cursor.passWidth_of_still (hcons _) hchar hunder,
            Cursor.passWidth_of_still (hcons _) hchar hunder]
          exact .none

theorem skipBlanks (hcd : Broken comments before blank after c d) :
    Broken comments before blank after c.skipBlanks d.skipBlanks :=
  Cursor.rel_skipBlanks (fun _ _ => passWidth h) hcd

theorem lineBreak (hcd : Broken comments before blank after c d) :
    Option.Rel (Broken comments before blank after) c.lineBreak d.lineBreak := by
  cases hcd with
  | past short =>
    rw [Cursor.lineBreak_shift]
    exact past_map fun e he => past_of_reaches short (Cursor.reaches_of_lineBreak he)
  | ahead split => exact h.lineBreak_ahead split

theorem blankLine (hcd : Broken comments before blank after c d) :
    Option.Rel (Broken comments before blank after) c.blankLine d.blankLine := by
  cases hcd with
  | past short =>
    rw [Cursor.blankLine_shift]
    refine past_map fun e he => past_of_reaches short ?_
    exact (Cursor.reaches_skip _ _).trans (Cursor.reaches_of_lineBreak he)
  | @ahead s rest split code =>
    have hblanks : ∀ c ∈ rest.takeWhile isBlank, isBlank c = true := fun c hc => of_mem_takeWhile hc
    have hend := any_head?_dropWhile isBlank rest
    have hrest := (List.takeWhile_append_dropWhile (p := isBlank) (l := rest)).symm
    unfold Cursor.blankLine
    cases htail : rest.dropWhile isBlank with
    | nil =>
      rw [htail, List.append_nil] at hrest
      have hleft : (rest ++ blank :: after).dropWhile isBlank = after.dropWhile isBlank := by
        rw [hrest, List.dropWhile_append_of_pos hblanks, List.dropWhile_cons_of_pos h.isBlank_blank]
      have hright : (rest ++ (lineContinuation ++ after)).dropWhile isBlank =
          '_' :: '\n' :: ' ' :: after := by
        rw [hrest, List.dropWhile_append_of_pos hblanks]
        rfl
      rw [Cursor.lineBreak_eq_none, Cursor.lineBreak_eq_none]
      · exact .none
      · rw [Cursor.rest_skip, Cursor.rest_between, drop_length_takeWhile, hright]
        rfl
      · rw [Cursor.rest_skip, Cursor.rest_between, drop_length_takeWhile, hleft,
          h.breakWidth_dropWhile]
    | cons char tail =>
      have hlength (more : List Char) :
          (rest ++ more).takeWhile isBlank = rest.takeWhile isBlank := by
        have hhead : (rest.dropWhile isBlank ++ more).head?.any isBlank = false := by
          rw [htail] at hend ⊢
          exact hend
        have hrun := takeWhile_append_of_head hblanks hhead
        rwa [← List.append_assoc, ← hrest] at hrun
      rw [Cursor.rest_between, Cursor.rest_between, hlength, hlength]
      have hle : (rest.takeWhile isBlank).length ≤ rest.length :=
        (List.takeWhile_prefix _).length_le
      refine lineBreak h (h.ahead_line hle ?_ ?_ split code)
      · rw [take_length_takeWhile]
        exact fun c hc => isBreak_eq_false_of_isBlank (hblanks c hc)
      · rw [take_length_takeWhile]
        exact fun hc => absurd (hblanks _ hc) (by decide)

/-! ## Words, numbers and symbols -/

theorem abreast (hcd : Broken comments before blank after c d) :
    ∃ text more more', Abreast (Broken comments before blank after) c d text more more' := by
  cases hcd with
  | past short =>
    have happart : Apart (c.rest.dropWhile isPlain) := any_head?_dropWhile isPlain c.rest
    refine ⟨_, _, _, List.takeWhile_append_dropWhile.symm, List.takeWhile_append_dropWhile.symm,
      happart, happart, Iff.rfl, fun {n} _ _ => ?_⟩
    rw [Cursor.skip_shift]
    exact .past (past_of_reaches short (c.reaches_skip n))
  | @ahead s rest split code =>
    have hplain : ∀ c ∈ rest.takeWhile isPlain, isPlain c = true := fun c hc => of_mem_takeWhile hc
    have happart : Apart (rest.dropWhile isPlain) := any_head?_dropWhile isPlain rest
    have hrest := (List.takeWhile_append_dropWhile (p := isPlain) (l := rest)).symm
    generalize rest.takeWhile isPlain = text at hplain hrest
    generalize rest.dropWhile isPlain = tail at happart hrest
    subst hrest
    have apart {c : Char} (hc : isBlank c = true) (more : List Char) :
        Apart (tail ++ c :: more) := by
      cases tail with
      | nil => exact .cons (by simp [isPlain, isInk, hc]) more
      | cons => exact happart
    refine ⟨text, tail ++ blank :: after, tail ++ (lineContinuation ++ after), ?_, ?_,
      apart h.isBlank_blank after, apart rfl _, by simp [lineContinuation], fun {n} hn _ => ?_⟩
    · rw [Cursor.rest_between, List.append_assoc]
    · rw [Cursor.rest_between, List.append_assoc]
    · have hpart : ∀ c ∈ (text ++ tail).take n, isPlain c = true := fun c hc => by
        rw [List.take_append_of_le_length hn] at hc
        exact hplain c (List.mem_of_mem_take hc)
      refine h.ahead_line (by simp; omega) (fun c hc => isBreak_eq_false_of_isPlain (hpart c hc)) ?_
        split code
      exact fun hc => absurd (hpart _ hc) (by decide)

/-! ## Strings and comments -/

omit h in
/-- On the lines before the blank's line, all that follows on a line is the same. -/
theorem abreast_line (hline : ¬ Unbroken rest) (split : before = s ++ rest) :
    Abreast (Broken comments before blank after) (between s (rest ++ blank :: after))
      (between s (rest ++ (lineContinuation ++ after))) (rest.takeWhile (! isBreak ·))
      (rest.dropWhile (! isBreak ·) ++ blank :: after)
      (rest.dropWhile (! isBreak ·) ++ (lineContinuation ++ after)) := by
  have hend := atLineEnd_dropWhile rest
  have hne := dropWhile_ne_nil hline
  have hrest := (List.takeWhile_append_dropWhile (p := (! isBreak ·)) (l := rest)).symm
  generalize rest.takeWhile (! isBreak ·) = line at hrest
  generalize rest.dropWhile (! isBreak ·) = tail at hend hrest hne
  subst hrest
  refine
    ⟨by rw [Cursor.rest_between, List.append_assoc], by rw [Cursor.rest_between, List.append_assoc],
    (hend.append hne _).apart, (hend.append hne _).apart, by simp [hne], fun {n} hn _ => ?_⟩
  refine Breakable.ahead_skip (by simp; omega) split fun hunbroken => ?_
  obtain ⟨c, tail, rfl⟩ := List.exists_cons_of_ne_nil hne
  have hc : isBreak c = true := by simpa [AtLineEnd] using hend
  rw [List.drop_append_of_le_length hn] at hunbroken
  rw [hunbroken c (by simp)] at hc
  contradiction

/-- A string in front of the blank on its line is closed before the blank. -/
theorem quoted_ahead (hline : Unbroken rest) (split : before = s ++ rest)
    (code : Zone.reached comments s = .code)
    (hc : (between s (rest ++ blank :: after)).skipBlanks = between s (rest ++ blank :: after))
    (hd : (between s (rest ++ (lineContinuation ++ after))).skipBlanks =
      between s (rest ++ (lineContinuation ++ after))) :
    Option.Rel (Valued (Level (Broken comments before blank after)
        (between s (rest ++ blank :: after)) (between s (rest ++ (lineContinuation ++ after)))))
      (between s (rest ++ blank :: after)).quoted
      (between s (rest ++ (lineContinuation ++ after))).quoted := by
  by_cases hquote : rest.head? = some '"'
  · obtain ⟨body, rfl⟩ := List.head?_eq_some_iff.mp hquote
    have hend := h.scan_rest split code
    have hstep : Zone.code.step comments (byteLength s) '"' = .string :=
      Zone.step_quote (Zone.not_mem_of_code hline hend)
    rw [Zone.scan_cons, hstep] at hend
    have hbody : Unbroken body := fun c hc => hline c (List.mem_cons_of_mem _ hc)
    obtain ⟨found, hfound, hle, hlast, hcode⟩ := Zone.exists_quotedBody hbody hend
    have read {more : List Char} (hmore : more.head? ≠ some '"')
        (htoken : (between s ('"' :: body ++ more)).skipBlanks = between s ('"' :: body ++ more)) :
        (between s ('"' :: body ++ more)).quoted =
          some (String.ofList found.1, (between s ('"' :: body ++ more)).skip (found.2 + 1)) := by
      have hrest : (between s ('"' :: body ++ more)).rest = '"' :: (body ++ more) := rfl
      rw [Cursor.quoted_of_quote htoken hrest, hfound more hmore]
      rfl
    have hmove : Broken comments before blank after
        ((between s ('"' :: body ++ blank :: after)).skip (found.2 + 1))
        ((between s ('"' :: body ++ (lineContinuation ++ after))).skip (found.2 + 1)) := by
      refine Breakable.ahead_skip (by simpa using hle) split fun _ => ?_
      rw [List.take_succ_cons, Zone.reached_append, code, Zone.scan_cons, hstep]
      exact hcode
    rw [read (by simpa using h.blank_ne_quote) hc, read (by simp [lineContinuation]) hd]
    exact .some ⟨rfl, level_skip rfl rfl (by simpa using hle) hmove⟩
  · have hleft : (rest ++ blank :: after).head? ≠ some '"' := by
      cases rest with
      | nil => simpa using h.blank_ne_quote
      | cons => exact hquote
    have hright : (rest ++ (lineContinuation ++ after)).head? ≠ some '"' := by
      cases rest with
      | nil => simp [lineContinuation]
      | cons => exact hquote
    rw [Cursor.quoted_eq_none hc hleft, Cursor.quoted_eq_none hd hright]
    exact .none

/-- No comment begins in front of the blank on its line: there is no mark, or it is not one at which
a comment may begin. -/
theorem comment_ahead (hline : Unbroken rest) (split : before = s ++ rest)
    (code : Zone.reached comments s = .code)
    (hc : (between s (rest ++ blank :: after)).skipBlanks = between s (rest ++ blank :: after))
    (hd : (between s (rest ++ (lineContinuation ++ after))).skipBlanks =
      between s (rest ++ (lineContinuation ++ after)))
    (hb : ∀ n ∈ Scanner.commentOffsets (between s (rest ++ blank :: after)), n ∈ comments) :
    (between s (rest ++ blank :: after)).comment = none ∧
      (between s (rest ++ (lineContinuation ++ after))).comment = none := by
  have hleft : (between s (rest ++ blank :: after)).comment = none := by
    cases hfound : (between s (rest ++ blank :: after)).comment with
    | none => rfl
    | some found =>
      have hmem : byteLength s ∈ comments := hb _ (by
        rw [Scanner.commentOffsets, hfound, hc]
        exact List.mem_singleton_self _)
      cases rest with
      | nil =>
        obtain ⟨hnext, hlt⟩ := Cursor.skipBlanks_of_passWidth_eq_some
          (Cursor.passWidth_of_blank (c := between s (blank :: after)) rfl h.isBlank_blank)
        have hle := (Cursor.reaches_skipBlanks ((between s (blank :: after)).skip 1)).length_le
        rw [← hnext] at hle
        have hsame := congrArg (fun e : Cursor => e.rest.length) hc
        dsimp only [List.nil_append] at hsame
        omega
      | cons char tail =>
        exact absurd hmem (Zone.not_mem_of_code hline (h.scan_rest split code))
  refine ⟨hleft, ?_⟩
  rw [Cursor.comment, Option.map_eq_none_iff, Cursor.commentMark,
    Option.or_eq_none_iff, hc] at hleft
  have hbroken : Broken comments before blank after (between s (rest ++ blank :: after))
      (between s (rest ++ (lineContinuation ++ after))) := .ahead split fun _ => code
  obtain ⟨text, more, more', habreast⟩ := abreast h hbroken
  have hrem := habreast.keyword hc hd .Rem
  rw [hleft.2] at hrem
  have hhead : (rest ++ (lineContinuation ++ after)).head? ≠ some '\x27' := by
    cases rest with
    | nil => simp [lineContinuation]
    | cons char tail => simpa [Cursor.adjacent] using hleft.1
  rw [Cursor.comment, Cursor.commentMark, hd, Cursor.adjacent, Cursor.rest_between, if_neg hhead]
  generalize (between s (rest ++ (lineContinuation ++ after))).keyword .Rem = mark at hrem ⊢
  cases hrem with
  | none => rfl

theorem quoted (hcd : Broken comments before blank after c d) (hc : c.skipBlanks = c)
    (hd : d.skipBlanks = d) :
    Option.Rel (Valued (Level (Broken comments before blank after) c d)) c.quoted d.quoted := by
  cases hcd with
  | past short =>
    rw [Cursor.quoted_shift]
    cases hquoted : c.quoted with
    | none => exact .none
    | some found =>
      exact .some ⟨rfl, .past (past_of_reaches short (Cursor.reaches_of_quoted hquoted)), rfl⟩
  | @ahead s rest split code =>
    by_cases hline : Unbroken rest
    · exact quoted_ahead h hline split (code hline) hc hd
    · have hend := (atLineEnd_dropWhile rest).append (dropWhile_ne_nil hline)
      exact (abreast_line hline split).quoted hc hd (hend _) (hend _)

theorem comment (hcd : Broken comments before blank after c d) (hc : c.skipBlanks = c)
    (hd : d.skipBlanks = d) (hb : ∀ n ∈ Scanner.commentOffsets c, n ∈ comments) :
    Option.Rel (Valued (Broken comments before blank after)) c.comment d.comment := by
  cases hcd with
  | past short =>
    rw [Cursor.comment_shift]
    cases hcomment : c.comment with
    | none => exact .none
    | some found =>
      exact .some ⟨rfl, .past (past_of_reaches short (Cursor.reaches_of_comment hcomment))⟩
  | @ahead s rest split code =>
    by_cases hline : Unbroken rest
    · obtain ⟨hleft, hright⟩ := comment_ahead h hline split (code hline) hc hd hb
      rw [hleft, hright]
      exact .none
    · have hend := (atLineEnd_dropWhile rest).append (dropWhile_ne_nil hline)
      refine (abreast_line hline split).comment hc hd (hend _) (hend _) fun c hc => ?_
      simpa using of_mem_takeWhile hc

omit h in
theorem shorter_iff {c' d' : Cursor} (hcd : Broken comments before blank after c d)
    (hcd' : Broken comments before blank after c' d') :
    c'.rest.length < c.rest.length ↔ d'.rest.length < d.rest.length := by
  have hlength : lineContinuation.length = 4 := rfl
  cases hcd <;> cases hcd' <;>
    simp only [Cursor.rest_between, Cursor.rest_shift, List.length_append, List.length_cons,
      hlength] at * <;> omega

end Broken

/-- The places of a source, and those of the source with its line broken at a blank. -/
def Alignment.broken (h : Breakable comments before blank after) : Alignment where
  meets := Broken comments before blank after
  begins n := n ∈ comments
  shorter_iff := Broken.shorter_iff
  abreast := Broken.abreast h
  skipBlanks := Broken.skipBlanks h
  lineBreak := Broken.lineBreak h
  blankLine := Broken.blankLine h
  quoted := Broken.quoted h
  comment := Broken.comment h

def Guide.broken (h : Breakable comments before blank after) : Guide where
  toAlignment := .broken h
  labels := .erase
  merges := Alignment.merges_erase _
  isExact := False
  eq_of_isExact he := he.elim

/-- A whole source and the same source with its line broken at a blank. Comments that the routine
begins may begin, since they are those of the source. -/
theorem module_lineContinuation {source : String} {settings : Settings}
    (hs : source.toList = before ++ blank :: after)
    (h : Breakable (commentStarts source settings) before blank after) {tree : Module}
    (hm : (Routine.module.run (Session.start source settings)).step = .matched tree) :
    ∃ other d, Grammar.module [] (Cursor.start (before ++ (lineContinuation ++ after))) =
      .matched other d ∧ tree.relabel .erase = other.relabel .erase := by
  have hstart : Broken (commentStarts source settings) before blank after
      (Session.start source settings).cursor
      (Cursor.start (before ++ (lineContinuation ++ after))) := by
    rw [Session.start, hs]
    exact .ahead (s := []) rfl fun _ => rfl
  have hfollows := Guide.tracks_module (G := .broken h) (Session.start source settings) [] _
    False.elim hstart
  have hbegins : ∀ n ∈ (Routine.module.run (Session.start source settings)).comments,
      n ∈ commentStarts source settings := fun n hn => hn
  generalize Routine.module.run (Session.start source settings) = run at hm hfollows hbegins
  generalize Grammar.module [] (Cursor.start (before ++ (lineContinuation ++ after))) = outcome
    at hfollows ⊢
  cases hfollows with
  | excused met hb => exact absurd (hbegins _ met) hb
  | matched value meets =>
    cases hm
    exact ⟨_, _, rfl, value⟩
  | unmatched allows => contradiction
  | failed alike => contradiction

/-- A source that is parsed is one on which the routine of modules matches. -/
theorem run_module_of_parseModule {source : String} {settings : Settings} {tree : Module}
    (hp : parseModule source settings = .ok tree) :
    (Routine.module.run (Session.start source settings)).step = .matched tree := by
  obtain ⟨notes, hrun⟩ := Guide.run_module_eq (Session.start source settings)
  rw [hrun]
  rw [parseModule_eq] at hp
  split at hp
  · rename_i found after hm
    cases hp
    change (Parsed.ofOutcome _ notes (Grammar.module [] (Cursor.start source.toList))).step = _
    rw [hm]
    rfl
  · rename_i hm
    exact absurd hm (Grammar.module_ne_unmatched _ _)
  · contradiction

/-- A line continuation is as good as a blank. Where a source is parsed, the source with a
continuation in place of a blank of code is parsed to the same tree up to spans. -/
theorem parseModule_lineContinuation {source : String} {settings : Settings} {tree : Module}
    (hs : source.toList = before ++ blank :: after)
    (h : Breakable (commentStarts source settings) before blank after)
    (hp : parseModule source settings = .ok tree) :
    ∃ other, parseModule (String.ofList (before ++ lineContinuation ++ after)) settings =
    .ok other ∧
      tree.relabel .erase = other.relabel .erase := by
  obtain ⟨other, d, hother, hvalue⟩ := module_lineContinuation hs h (run_module_of_parseModule hp)
  refine ⟨other, parseModule_of_matched (d := d) ?_, hvalue⟩
  rw [String.toList_ofList, List.append_assoc]
  exact hother

/-- A procedure in which a variable is named like the mark of a comment, whose line is broken after
the name. -/
theorem parseModule_lineContinuation_name :
    ∃ tree other, parseModule "Sub Main()\nDim Rem As Long ' one\nEnd Sub\n" Settings.standard =
        .ok tree ∧
      Breakable (commentStarts "Sub Main()\nDim Rem As Long ' one\nEnd Sub\n" Settings.standard)
        "Sub Main()\nDim Rem".toList ' ' "As Long ' one\nEnd Sub\n".toList ∧
      parseModule (String.ofList ("Sub Main()\nDim Rem".toList ++ lineContinuation ++
        "As Long ' one\nEnd Sub\n".toList)) Settings.standard = .ok other ∧
      tree.relabel .erase = other.relabel .erase := by
  have hcode : Zone.reached (commentStarts "Sub Main()\nDim Rem As Long ' one\nEnd Sub\n"
      Settings.standard) "Sub Main()\nDim Rem".toList = .code := by decide +kernel
  have hparsed : (parseModule "Sub Main()\nDim Rem As Long ' one\nEnd Sub\n"
      Settings.standard).toOption.isSome = true := by decide +kernel
  obtain ⟨tree, htree⟩ := Option.isSome_iff_exists.mp hparsed
  have hp := Grammar.eq_ok_of_toOption htree
  obtain ⟨other, hother, hvalue⟩ := parseModule_lineContinuation rfl ⟨rfl, hcode, rfl⟩ hp
  exact ⟨tree, other, hp, ⟨rfl, hcode, rfl⟩, hother, hvalue⟩

end VisualBasic
