import VisualBasic.Proofs.Text.Breaks
import VisualBasic.Proofs.Text.Cut

/-!
# Code, strings and comments

Every place of a text lies in code, in a string or in a comment. A string runs from a quote to the
next one. The word `Rem` may be a name as well, so where comments begin is not told from the text
alone: the offsets of their marks are given. Neither strings nor comments go on after the end of
their line.
-/

set_option autoImplicit false

namespace VisualBasic

/-- A character of words, numbers and symbols: it starts neither a string nor a comment. -/
def isPlain (c : Char) : Bool := isInk c && c ≠ '"' && c ≠ '\x27'

/-- A cut that divides no word. -/
def Whole (before after : List Char) : Prop := before.getLast?.any isWordChar = true → NoWord after

variable {before after text more : List Char} {c : Char} {k : Keyword}

theorem isPlain_of_isWordChar (h : isWordChar c = true) : isPlain c = true := by
  have hquote : c ≠ '"' := by rintro rfl; contradiction
  have hmark : c ≠ '\x27' := by rintro rfl; contradiction
  simp [isPlain, isInk_of_isWordChar h, hquote, hmark]

theorem isBreak_eq_false_of_isPlain (h : isPlain c = true) : isBreak c = false := by
  simp only [isPlain, Bool.and_eq_true] at h
  exact isBreak_eq_false_of_isInk h.1.1

namespace Whole

theorem of_noWord (h : NoWord after) : Whole before after := fun _ => h

theorem of_getLast (h : before.getLast?.any isWordChar = false) : Whole before after :=
  fun hlast => by
  rw [h] at hlast
  contradiction

end Whole

/-- No line goes on with the text. -/
def AtLineEnd (text : List Char) : Prop := text.head?.any (! isBreak ·) = false

namespace AtLineEnd

variable (h : AtLineEnd more)
include h

theorem head?_ne (hc : isBreak c = false) : more.head? ≠ some c := by
  intro hhead
  rw [AtLineEnd, hhead, Option.any_some, hc] at h
  contradiction

theorem quotedBody_append (text : List Char) : quotedBody (text ++ more) = quotedBody text := by
  have hmore := h.head?_ne (c := '"') (by decide)
  fun_induction quotedBody text with
  | case1 =>
    cases more with
    | nil => rfl
    | cons d more =>
      have hbreak : isBreak d = true := by simpa [AtLineEnd] using h
      have hd : d ≠ '"' := by simpa using hmore
      simp [quotedBody, hbreak, hd]
  | case2 rest ih => rw [List.cons_append, List.cons_append, quotedBody, ih]
  | case3 rest hrest =>
    refine quotedBody_quote ?_
    cases rest with
    | nil => exact hmore
    | cons d rest =>
      have hd : d ≠ '"' := fun hd => hrest rest (by rw [hd])
      simpa using hd
  | case4 c rest hq hq' hbreak => rw [List.cons_append, quotedBody_break hbreak]
  | case5 c rest hq hq' hbreak ih => rw [List.cons_append, quotedBody_cons hq' hbreak, ih]

omit h in
theorem append (h : AtLineEnd text) (hne : text ≠ []) (more : List Char) :
    AtLineEnd (text ++ more) := by
  cases text with
  | nil => contradiction
  | cons c rest => exact h

end AtLineEnd

/-- A text with a break in it has a first line. -/
theorem dropWhile_ne_nil (h : ¬ Unbroken text) : text.dropWhile (! isBreak ·) ≠ [] := by
  intro hnil
  have hrest := (List.takeWhile_append_dropWhile (p := (! isBreak ·)) (l := text)).symm
  rw [hnil, List.append_nil] at hrest
  refine h fun c hc => ?_
  rw [hrest] at hc
  simpa using of_mem_takeWhile hc

theorem atLineEnd_dropWhile (text : List Char) : AtLineEnd (text.dropWhile (! isBreak ·)) :=
  any_head?_dropWhile (! isBreak ·) text

/-- A string ends on the line on which it starts. -/
theorem length_le_of_quotedBody {found : List Char × Nat} (h : quotedBody text = some found) :
    found.2 ≤ (text.takeWhile (! isBreak ·)).length := by
  have hquote : isBreak '"' = false := by decide
  fun_induction quotedBody text generalizing found with
  | case1 => contradiction
  | case2 rest ih =>
    obtain ⟨inner, hinner, rfl⟩ := Option.map_eq_some_iff.mp h
    have := ih hinner
    simpa [hquote] using this
  | case3 rest =>
    cases h
    simp [hquote]
  | case4 => contradiction
  | case5 c rest hq hq' hbreak ih =>
    obtain ⟨inner, hinner, rfl⟩ := Option.map_eq_some_iff.mp h
    have := ih hinner
    have hc : isBreak c = false := by simpa using hbreak
    simpa [hc] using this

inductive Zone where
  | code
  | string
  | comment
  deriving DecidableEq, Repr

namespace Zone

/-- The zone after one more character, which stands at an offset. -/
def step (comments : List Nat) (offset : Nat) (zone : Zone) (c : Char) : Zone :=
  if isBreak c then .code
  else
    match zone with
    | .comment => .comment
    | .string => if c = '"' then .code else .string
    | .code => if offset ∈ comments then .comment else if c = '"' then .string else .code

/-- The zone at the end of a text that starts at an offset. -/
def scan (comments : List Nat) (offset : Nat) (zone : Zone) : List Char → Zone
  | [] => zone
  | c :: rest => scan comments (offset + c.utf8Size) (zone.step comments offset c) rest

/-- The zone that is reached by the end of a text at the start of a source. -/
def reached (comments : List Nat) (text : List Char) : Zone := code.scan comments 0 text

variable {comments : List Nat} {offset : Nat} {zone : Zone}

@[simp] theorem scan_nil : zone.scan comments offset [] = zone := rfl

theorem scan_cons (c : Char) (rest : List Char) : zone.scan comments offset (c :: rest) =
    (zone.step comments offset c).scan comments (offset + c.utf8Size) rest := rfl

theorem scan_append (before after : List Char) : zone.scan comments offset (before ++ after) =
    (zone.scan comments offset before).scan comments (offset + byteLength before) after := by
  induction before generalizing offset zone with
  | nil => rfl
  | cons c before ih =>
    rw [List.cons_append, scan_cons, scan_cons, ih, byteLength_cons, Nat.add_assoc]

theorem reached_append (before text : List Char) : reached comments (before ++ text) =
    (reached comments before).scan comments (byteLength before) text := by
  rw [reached, scan_append, Nat.zero_add, reached]

theorem step_break (hc : isBreak c = true) : zone.step comments offset c = .code := by
  unfold step
  rw [if_pos hc]

/-- Every line starts in code. -/
theorem scan_of_break (h : text.getLast?.any isBreak = true) :
    zone.scan comments offset text = .code := by
  have hne : text ≠ [] := by
    rintro rfl
    contradiction
  obtain ⟨init, d, rfl⟩ := List.eq_nil_or_concat text |>.resolve_left hne
  have hd : isBreak d = true := by simpa using h
  rw [List.concat_eq_append, scan_append, scan_cons, step_break hd, scan_nil]

/-- A comment goes on to the end of its line. -/
theorem scan_comment (h : Unbroken text) : comment.scan comments offset text = .comment := by
  induction text generalizing offset with
  | nil => rfl
  | cons c rest ih =>
    have hstep : comment.step comments offset c = .comment := by
      rw [step, if_neg (by simp [h c List.mem_cons_self])]
    rw [scan_cons, hstep]
    exact ih fun d hd => h d (List.mem_cons_of_mem c hd)

theorem step_ne_string (hzone : zone ≠ .string) (hc : c ≠ '"') :
    zone.step comments offset c ≠ .string := by
  cases zone with
  | string => contradiction
  | code => grind [step]
  | comment => grind [step]

theorem scan_ne_string (hzone : zone ≠ .string) (h : '"' ∉ text) :
    zone.scan comments offset text ≠ .string := by
  induction text generalizing offset zone with
  | nil => exact hzone
  | cons c rest ih =>
    have hc : c ≠ '"' := fun hc => h (by simp [hc])
    exact ih (step_ne_string hzone hc) fun hmem => h (List.mem_cons_of_mem c hmem)

/-- Where the line is in code at its end, the text before the strings on it was in code. -/
theorem code_of_code (h : '"' ∉ text) (hmore : Unbroken more)
    (hend : code.scan comments offset (text ++ more) = .code) :
    code.scan comments offset text = .code := by
  cases hzone : code.scan comments offset text with
  | code => rfl
  | string => exact absurd hzone (scan_ne_string (by decide) h)
  | comment =>
    rw [scan_append, hzone, scan_comment hmore] at hend
    contradiction

/-- Where the line is in code at its end, no comment begins in code on it. -/
theorem not_mem_of_code (hline : Unbroken (c :: text))
    (hend : code.scan comments offset (c :: text) = .code) : offset ∉ comments := by
  intro hmem
  have hstep : code.step comments offset c = .comment := by
    rw [step, if_neg (by simp [hline c List.mem_cons_self])]
    exact if_pos hmem
  rw [scan_cons, hstep, scan_comment fun d hd => hline d (List.mem_cons_of_mem c hd)] at hend
  contradiction

theorem step_quote (h : offset ∉ comments) : code.step comments offset '"' = .string := by
  rw [step, if_neg (by decide)]
  simp [h]

/-! ## Strings -/

/-- A string that is closed before the end of a text in code is closed in that text. -/
theorem exists_quotedBody (hline : Unbroken text)
    (hend : string.scan comments offset text = .code) :
    ∃ found, (∀ more, more.head? ≠ some '"' → quotedBody (text ++ more) = some found) ∧
      found.2 ≤ text.length ∧ (text.take found.2).getLast? = some '"' ∧
        string.scan comments offset (text.take found.2) = .code := by
  fun_induction quotedBody text generalizing offset with
  | case1 => contradiction
  | case2 rest ih =>
    have hquote : string.step comments offset '"' = .code := rfl
    have hopen : code.step comments (offset + 1) '"' = .string := by
      have hinner : Unbroken ('"' :: rest) := fun d hd => hline d (List.mem_cons_of_mem _ hd)
      exact step_quote (not_mem_of_code hinner hend)
    have hrest : string.scan comments (offset + 1 + 1) rest = .code := by
      rw [scan_cons, hquote, scan_cons] at hend
      exact hopen ▸ hend
    obtain ⟨found, hfound, hle, hlast, hcode⟩ := ih (fun d hd => hline d (by simp [hd])) hrest
    refine ⟨('"' :: found.1, found.2 + 2), fun more hmore => ?_, by simpa using hle, ?_, ?_⟩
    · rw [List.cons_append, List.cons_append, quotedBody, hfound more hmore]
      rfl
    · rw [List.take_succ_cons, List.take_succ_cons, List.getLast?_cons, List.getLast?_cons, hlast]
      rfl
    · rw [List.take_succ_cons, List.take_succ_cons, scan_cons, hquote, scan_cons]
      exact hopen ▸ hcode
  | case3 rest hrest =>
    refine ⟨([], 1), fun more hmore => ?_, by simp, rfl, rfl⟩
    refine quotedBody_quote ?_
    cases rest with
    | nil => exact hmore
    | cons d rest =>
      have hd : d ≠ '"' := fun hd => hrest rest (by rw [hd])
      simpa using hd
  | case4 c rest hq hq' hbreak =>
    rw [hline c List.mem_cons_self] at hbreak
    contradiction
  | case5 c rest hq hq' hbreak ih =>
    have hstep : string.step comments offset c = .string := by
      rw [step, if_neg hbreak]
      exact if_neg hq'
    rw [scan_cons, hstep] at hend
    obtain ⟨found, hfound, hle, hlast, hcode⟩ := ih (fun d hd => hline d (by simp [hd])) hend
    refine ⟨(c :: found.1, found.2 + 1), fun more hmore => ?_, by simpa using hle, ?_, ?_⟩
    · rw [List.cons_append, quotedBody_cons hq' hbreak, hfound more hmore]
      rfl
    · rw [List.take_succ_cons, List.getLast?_cons, hlast]
      rfl
    · rw [List.take_succ_cons, scan_cons, hstep]
      exact hcode

end Zone

end VisualBasic
