import VisualBasic.Proofs.Correspondence.Detachment
import VisualBasic.Proofs.Cursor.Mark
import VisualBasic.Proofs.Diagnostic.Reported
import VisualBasic.Proofs.Gap.Module
import VisualBasic.Proofs.Lookahead.Item
import VisualBasic.Proofs.Lookahead.Statement

/-!
# Locality of parsing

Every item and every statement is parsed from the text under its span as it is in its source:
nothing before the span matters and nothing after it, the terminator included. Constructs with code
are detachable. A comment, an empty line and a label may be followed by anything, so that these are
read from their own texts.
-/

set_option autoImplicit false

namespace VisualBasic

open Cursor (start Reaches)
open Parse

/-! ## Texts by themselves -/

namespace Detached

variable {α β : Type} {p q : Parse α} {g : Relabel → α → α} {span : α → Span} {value : α}
  {origin : Cursor} {text : List Char} (h : Detached p g span value origin text)

include h

theorem congr (hpq : ∀ inside, q inside (start text) = p inside (start text)) :
    Detached q g span value origin text where
  rest := h.rest
  span_eq := h.span_eq
  matched inside := by
    rw [hpq]
    exact h.matched inside

theorem map {f : α → β} {g' : Relabel → β → β} {span' : β → Span}
    (hg : ∀ r value, g' r (f value) = f (g r value))
    (hspan : ∀ value, span' (f value) = span value) :
    Detached (f <$> p) g' span' (f value) origin text where
  rest := h.rest
  span_eq := (hspan value).trans h.span_eq
  matched inside := by
    obtain ⟨part, last, hm, hlast, hvalue⟩ := h.matched inside
    refine ⟨f part, last, ?_, hlast, by rw [hg, hvalue]⟩
    rw [← bind_pure_comp, bind_apply, hm]
    rfl

theorem left (q : Parse α) : Detached (p.orElse q) g span value origin text := by
  refine h.congr fun inside => orElse_of_ne_unmatched ?_ q
  obtain ⟨part, last, hm, _⟩ := h.matched inside
  rw [hm]
  simp

theorem right {q : Parse α} (hq : ∀ inside, q inside (start text) = .unmatched) :
    Detached (q.orElse p) g span value origin text :=
  h.congr fun inside => orElse_of_unmatched (hq inside) p

end Detached

/-- The next characters by themselves. -/
def Cursor.alone (n : Nat) (c : Cursor) : Cursor := start (c.rest.take n)

section Alone

variable {origin : Cursor} (n : Nat)

@[simp] theorem Cursor.rest_alone : (origin.alone n).rest = origin.rest.take n := rfl

theorem Cursor.rest_skip_alone : ((origin.alone n).skip n).rest = [] := by
  rw [Cursor.rest_skip]
  exact List.drop_eq_nil_of_le (List.length_take_le _ _)

/-- What is read from a text by itself lies as far from its start as in the source. -/
theorem span_shift_alone : (Relabel.shift origin.offset).span
    ((origin.alone n).spanTo ((origin.alone n).skip n)) = origin.spanTo (origin.skip n) := by
  simp only [Relabel.shift, Cursor.spanTo, Cursor.offset_skip, Cursor.alone, start, List.take_take,
    Nat.min_self, Nat.zero_add, Nat.add_comm origin.offset]

theorem Detached.of_alone {α : Type} {p : Parse α} {g : Relabel → α → α}
    {span : α → Span} {value : α}
    (hspan : span value = origin.spanTo (origin.skip n))
    (hmatched : ∀ inside, ∃ part, p inside (origin.alone n) =
      .matched part ((origin.alone n).skip n) ∧ g (.shift origin.offset) part = value) :
    Detached p g span value origin (origin.rest.take n) where
  rest := ⟨origin.rest.drop n, (List.take_append_drop n origin.rest).symm⟩
  span_eq := by rw [hspan, Cursor.skip_length_take]
  matched inside := by
    obtain ⟨part, hm, hvalue⟩ := hmatched inside
    exact ⟨part, _, hm, Cursor.rest_skip_alone n, hvalue⟩

end Alone

theorem Cursor.skipBlanks_start {char : Char} {rest : List Char} (h : isInk char = true) :
    (start (char :: rest)).skipBlanks = start (char :: rest) := by
  have hwidth : blankWidth false (char :: rest) = 0 :=
    blankWidth_cons_eq_zero (isBlank_eq_false_of_isInk h) fun hfalse => by contradiction
  rw [skipBlanks]
  exact congrArg (fun n => (start (char :: rest)).skip n) hwidth

theorem Cursor.blankLine_eq_none_of_ink {c : Cursor} (h : c.rest.head?.any isInk = true) :
    c.blankLine = none := by
  obtain ⟨char, hhead, hink⟩ := (Option.any_eq_true _ _).mp h
  obtain ⟨rest, hrest⟩ := List.head?_eq_some_iff.mp hhead
  have hblank : c.rest.takeWhile isBlank = [] := by
    rw [hrest, List.takeWhile_cons, isBlank_eq_false_of_isInk hink]
    rfl
  rw [blankLine, hblank, List.length_nil, skip_zero]
  exact lineBreak_eq_none (by rw [hrest, breakWidth_eq_zero (isBreak_eq_false_of_isInk hink)])

theorem Cursor.lineEnd_of_nil {c : Cursor} (h : c.rest = []) : c.lineEnd = some c := by
  have htoken := skipBlanks_of_nil h
  rw [lineEnd, htoken, comment, commentMark_eq htoken, h]
  exact breakOrEnd_of_nil h

/-! ## Lines without code -/

namespace Grammar

/-- A comment ends where its line does, and the end of a text ends a line too. -/
theorem detached_comment {c after : Cursor} {note : Comment} (hm : comment c = some (note, after)) :
    ∃ text, Detached (read comment) Comment.relabel Comment.span note c.skipBlanks text := by
  obtain ⟨⟨content, stop⟩, hcomment, hm⟩ := Option.bind_eq_some_iff.mp hm
  obtain ⟨_, _, hm⟩ := Option.map_eq_some_iff.mp hm
  cases hm
  generalize horigin : c.skipBlanks = origin at hcomment
  have htoken : origin.skipBlanks = origin := by rw [← horigin, Cursor.skipBlanks_skipBlanks]
  obtain ⟨k, hk⟩ : ∃ k, markWidth origin.rest = some k := by
    obtain ⟨_, hmark, _⟩ := Option.map_eq_some_iff.mp hcomment
    rw [Cursor.commentMark_eq htoken] at hmark
    exact (Option.map_eq_some_iff.mp hmark).imp fun _ => And.left
  rw [Cursor.comment_eq htoken hk] at hcomment
  cases hcomment
  generalize hline : (origin.rest.drop k).takeWhile (! isBreak ·) = line
  have hown := markWidth_take hk (Nat.le_add_right k line.length)
  obtain ⟨char, rest, hcons, hink⟩ := exists_head_of_markWidth hown
  generalize hn : k + line.length = n at hown hcons ⊢
  have hself : (origin.alone n).skipBlanks = origin.alone n := by
    rw [Cursor.alone, hcons, Cursor.skipBlanks_start hink]
  have hsame : ((origin.alone n).rest.drop k).takeWhile (! isBreak ·) = line := by
    rw [Cursor.rest_alone, List.drop_take, ← hn, Nat.add_sub_cancel_left, ← hline,
      take_length_takeWhile, List.takeWhile_takeWhile]
    simp
  have hread : comment (origin.alone n) = some
      (⟨String.ofList line, (origin.alone n).spanTo ((origin.alone n).skip n)⟩,
        (origin.alone n).skip n) := by
    have hcomment := Cursor.comment_eq hself hown
    rw [hsame, hn] at hcomment
    rw [comment, hself, hcomment, Option.bind_some]
    dsimp only
    rw [Cursor.breakOrEnd_of_nil (Cursor.rest_skip_alone n), Option.map_some]
  exact ⟨_, .of_alone n rfl fun inside =>
    ⟨_, read_eq_matched hread, congrArg (Comment.mk _) (span_shift_alone n)⟩⟩

/-- An empty line ends with its break. -/
theorem detached_emptyLine {c after : Cursor} {line : EmptyLine}
    (hm : emptyLine c = some (line, after)) :
    ∃ text, (start text).blankLine.isSome ∧
      Detached (read emptyLine) EmptyLine.relabel EmptyLine.span line c text := by
  obtain ⟨_, hline, hm⟩ := Option.map_eq_some_iff.mp hm
  cases hm
  rw [Cursor.blankLine_eq] at hline
  obtain ⟨n, hn, rfl⟩ := Option.map_eq_some_iff.mp hline
  have hown : (c.alone n).blankLine = some ((c.alone n).skip n) := by
    rw [Cursor.blankLine_eq, Cursor.rest_alone, continuationWidth_take hn, Option.map_some]
  have hread : emptyLine (c.alone n) =
      some (⟨(c.alone n).spanTo ((c.alone n).skip n)⟩, (c.alone n).skip n) := by
    rw [emptyLine, hown, Option.map_some]
  exact ⟨_, Option.isSome_of_eq_some hown, .of_alone n rfl fun inside =>
    ⟨_, read_eq_matched hread, congrArg EmptyLine.mk (span_shift_alone n)⟩⟩

/-- The next word is read from its own characters and whatever comes after them. -/
theorem word_alone {origin e : Cursor} {name : String} (htoken : origin.skipBlanks = origin)
    (h : origin.word = some (name, e)) {n : Nat} (hn : name.toList.length < n) :
    e = origin.skip name.toList.length ∧ (∀ char ∈ name.toList, isWordChar char = true) ∧
      (origin.alone n).skipBlanks = origin.alone n ∧
      (origin.alone n).word = some (name, (origin.alone n).skip name.toList.length) ∧
      origin.rest.take name.toList.length = name.toList := by
  simp only [Cursor.word, htoken] at h
  split at h
  · rename_i hstarts
    cases h
    rw [String.toList_ofList] at hn ⊢
    have hsame : (origin.alone n).rest.takeWhile isWordChar = origin.rest.takeWhile isWordChar := by
      rw [Cursor.rest_alone, ← List.take_takeWhile]
      exact List.take_of_length_le (Nat.le_of_lt hn)
    have hhead : (origin.alone n).rest.head? = origin.rest.head? := by
      rw [Cursor.rest_alone, List.head?_take, if_neg (by omega)]
    have hself : (origin.alone n).skipBlanks = origin.alone n := by
      obtain ⟨char, hchar, hstart⟩ := (Option.any_eq_true _ _).mp hstarts
      obtain ⟨rest, hrest⟩ := List.head?_eq_some_iff.mp (hhead.trans hchar)
      have hink : isInk char = true := isInk_of_isWordChar (isWordChar_of_isWordStart hstart)
      rw [Cursor.rest_alone] at hrest
      rw [Cursor.alone, hrest, Cursor.skipBlanks_start hink]
    refine ⟨rfl, fun char hchar => of_mem_takeWhile hchar, hself, ?_, take_length_takeWhile _ _⟩
    simp only [Cursor.word, hself, hhead, hstarts, hsame, if_true]
  · contradiction

theorem matched_label {inside : List Construct} {c after : Cursor} {line : Statement}
    (h : label inside c = .matched line after) :
    ∃ name e d, c.skipBlanks.identifier = some (name, e) ∧ e.adjacent ':' = some d ∧
      line = .label name (c.skipBlanks.spanTo d) := by
  obtain ⟨found, d, hfound, h⟩ := matched_bind h
  obtain ⟨_, _, _, h⟩ := matched_bind h
  cases h
  obtain ⟨build, hbuild, rfl⟩ := matched_spanned hfound
  obtain ⟨name, e, hname, hbuild⟩ := matched_bind hbuild
  obtain ⟨_, f, hcolon, hbuild⟩ := matched_bind hbuild
  cases hbuild
  exact ⟨name, e, _, matched_read hname, matched_pass hcolon, rfl⟩

/-- A label may be the end of its text. -/
theorem label_eq_matched {inside : List Construct} {c d e : Cursor} {name : String}
    (hname : c.skipBlanks.identifier = some (name, e)) (hcolon : e.adjacent ':' = some d)
    (hend : d.rest = []) : label inside c = .matched (.label name (c.skipBlanks.spanTo d)) d := by
  have hwords : (do
      let name ← identifier
      adjacent ':'
      return Statement.label name : Parse (Span → Statement)) (.label :: inside) c.skipBlanks =
        .matched (Statement.label name) d := by
    rw [bind_apply, identifier, read_eq_matched hname]
    simp only [bind_apply, adjacent, Parse.pass, hcolon]
    rfl
  have hline : opt (pass Cursor.lineEnd) (.label :: inside) d = .matched (some ()) d := by
    simp only [opt, orElse, Parse.bind, Parse.pass, Cursor.lineEnd_of_nil hend]
    rfl
  simp only [label, within, bind_apply, Pairing.spanned_eq hwords, hline]
  rfl

/-- A label is a word with a colon, whatever comes after it. -/
theorem detached_label {inside : List Construct} {c after : Cursor} {line : Statement}
    (hm : label inside c = .matched line after) :
    ∃ text, Detached label Statement.relabel Statement.span line c.skipBlanks text ∧
      (start text).word.isSome ∧ (start text).peekKeyword = c.peekKeyword ∧ '=' ∉ text := by
  obtain ⟨name, e, d, hname, hcolon, rfl⟩ := matched_label hm
  obtain ⟨hword, hreserved⟩ := Cursor.identifier_eq_some_iff.mp hname
  obtain ⟨hhead, rfl⟩ := Cursor.adjacent_eq_some_iff.mp hcolon
  rw [← Cursor.peekKeyword_skipBlanks c, Cursor.peekKeyword, Cursor.peekWord, hword]
  obtain ⟨rfl, hchars, hself, hown, htake⟩ :=
    word_alone (Cursor.skipBlanks_skipBlanks c) hword (Nat.lt_add_one _)
  generalize c.skipBlanks = origin at hhead hself hown htake ⊢
  generalize hn : name.toList.length + 1 = n at hself hown
  have hskip (d : Cursor) : (d.skip name.toList.length).skip 1 = d.skip n := by
    rw [← hn, Cursor.skip_add]
  have htext : origin.rest.take n = name.toList ++ [':'] := by
    obtain ⟨rest, hrest⟩ := List.head?_eq_some_iff.mp hhead
    rw [Cursor.rest_skip] at hrest
    rw [← hn, List.take_add, htake, hrest]
    rfl
  have hend : ((origin.alone n).skip name.toList.length).adjacent ':' =
      some ((origin.alone n).skip n) := by
    refine Cursor.adjacent_eq_some_iff.mpr ⟨?_, (hskip _).symm⟩
    rw [Cursor.rest_skip, Cursor.rest_alone, htext, List.drop_left]
    rfl
  have hread (inside : List Construct) : label inside (origin.alone n) =
      .matched (.label name ((origin.alone n).spanTo ((origin.alone n).skip n)))
        ((origin.alone n).skip n) := by
    have hname : (origin.alone n).skipBlanks.identifier =
        some (name, (origin.alone n).skip name.toList.length) := by
      rw [hself]
      exact Cursor.identifier_eq_some_iff.mpr ⟨hown, hreserved⟩
    rw [label_eq_matched hname hend (Cursor.rest_skip_alone n), hself]
  refine ⟨_, .of_alone n ?_ fun inside => ⟨_, hread inside, ?_⟩, Option.isSome_of_eq_some hown,
    congrArg (fun found => (found.map Prod.fst).bind Keyword.lookup) hown, ?_⟩
  · rw [Statement.span, hskip]
  · have htext : (Relabel.shift origin.offset).text name = name := by
      simp [Relabel.text, Relabel.shift]
    rw [hskip, Statement.relabel, htext, span_shift_alone]
  · intro hmem
    rw [htext, List.mem_append] at hmem
    rcases hmem with hmem | hmem
    · exact absurd (hchars _ hmem) (by decide)
    · exact absurd hmem (by decide)

/-! ## Statements and items -/

/-- Comments and empty lines come before code, and the text of code by itself is none of either. -/
theorem detached_line {α : Type} {code : Parse α} {note : Comment → α} {line : EmptyLine → α}
    {g : Relabel → α → α} {span : α → Span} {inside : List Construct} {c after : Cursor} {value : α}
    (hnote : ∀ r content, g r (note content) = note (content.relabel r))
    (hline : ∀ r content, g r (line content) = line (content.relabel r))
    (hnoteSpan : ∀ content, span (note content) = content.span)
    (hlineSpan : ∀ content, span (line content) = content.span)
    (hcode : c.commentMark = none → code inside c = .matched value after → ∃ text,
      Detached code g span value c.skipBlanks text ∧ (start text).commentMark = none ∧
        (start text).blankLine = none)
    (hm : ((note <$> read comment).orElse ((line <$> read emptyLine).orElse code)) inside c =
      .matched value after) :
    ∃ origin text, Reaches c origin ∧
      Detached ((note <$> read comment).orElse ((line <$> read emptyLine).orElse code)) g span value
        origin text := by
  rcases matched_orElse hm with hm | ⟨hnotComment, hm⟩
  · obtain ⟨content, d, hread, hm⟩ := matched_bind hm
    cases hm
    obtain ⟨text, h⟩ := detached_comment (matched_read hread)
    exact ⟨_, text, Cursor.reaches_skipBlanks c, (h.map hnote hnoteSpan).left _⟩
  · have hunmarked {text : List Char} (h : (start text).commentMark = none)
      (inside : List Construct) :
        (note <$> read comment) inside (start text) = .unmatched :=
      (metBy_comment.map note).unmatched (by simp [h])
    rcases matched_orElse hm with hm | ⟨_, hm⟩
    · obtain ⟨content, d, hread, hm⟩ := matched_bind hm
      cases hm
      obtain ⟨text, hblank, h⟩ := detached_emptyLine (matched_read hread)
      exact ⟨c, text, Reaches.refl c, ((h.map hline hlineSpan).left _).right
        (hunmarked (Cursor.commentMark_eq_none_of_blankLine hblank))⟩
    · have hmark : c.commentMark = none := by
        have hsign := ((metBy_comment.map note) inside c).mp hnotComment
        simpa using hsign
      obtain ⟨text, h, hunmark, hblank⟩ := hcode hmark hm
      have hfull (inside : List Construct) : (line <$> read emptyLine) inside (start text) =
          .unmatched :=
        (metBy_emptyLine.map line).unmatched (by simp [hblank])
      exact ⟨_, text, Cursor.reaches_skipBlanks c, (h.right hfull).right (hunmarked hunmark)⟩

/-- An excerpt starts as the construct does. -/
theorem excerpt_start {c : Cursor} {text more : List Char} (h : Excerpt c.skipBlanks text more) :
    (start text).peekKeyword = c.peekKeyword ∧
      (c.commentMark = none → (start text).commentMark = none) := by
  have hplace : Within c.skipBlanks text c.skipBlanks (start text) := ⟨0, h.length_pos, rfl, rfl⟩
  constructor
  · have hword := h.word hplace
    rw [Cursor.word_skipBlanks] at hword
    rw [Cursor.peekKeyword, Cursor.peekKeyword, Cursor.peekWord, Cursor.peekWord]
    generalize c.word = x at hword ⊢
    generalize (start text).word = y at hword ⊢
    cases hword with
    | none => rfl
    | some hfound => rw [Option.map_some, Option.map_some, hfound.1]
  · intro hnone
    have hmark := h.commentMark hplace
    rw [Cursor.commentMark_skipBlanks, hnone] at hmark
    generalize (start text).commentMark = y at hmark ⊢
    cases hmark
    rfl

theorem detached_item {inside : List Construct} {c after : Cursor} {found : Item}
    (hm : item inside c = .matched found after) :
    ∃ origin text, Reaches c origin ∧ Detached item Item.relabel Item.span found origin text := by
  rw [item_eq_orElse] at hm ⊢
  refine detached_line (fun _ _ => rfl) (fun _ _ => rfl) (fun _ => rfl) (fun _ => rfl)
    (fun hmark hm => ?_) hm
  obtain ⟨text, more, hexcerpt, hink, h⟩ :=
    detachable_codeItem.detached Item.exists_regions Item.relabel_upTo hm
  exact ⟨text, h, (excerpt_start hexcerpt).2 hmark, Cursor.blankLine_eq_none_of_ink hink⟩

theorem skips_label {inside : List Construct} {c : Cursor} (h : label inside c = .unmatched) :
    label inside c.skipBlanks = .unmatched := by
  rw [← h]
  simp only [label, within, spanned, mark, bind_apply, Cursor.skipBlanks_skipBlanks]

theorem assignment_eq_unmatched_of_notMem {inside : List Construct} {c : Cursor}
    (hset : c.peekKeyword ≠ some .Set) (hlet : c.peekKeyword ≠ some .Let) (h : '=' ∉ c.rest) :
    assignment inside c = .unmatched := by
  refine sentence_eq_unmatched ?_
  rw [bind_apply, opt_oneOf_eq_none (by simp [hset, hlet])]
  cases htarget : reference expression c.skipBlanks with
  | none =>
    have hunmatched : anyReference (.assignment :: inside) c.skipBlanks = .unmatched :=
      read_eq_unmatched htarget
    exact bind_eq_unmatched hunmatched _
  | some found =>
    obtain ⟨target, d⟩ := found
    have hmatched : anyReference (.assignment :: inside) c.skipBlanks = .matched target d :=
      read_eq_matched htarget
    have hreach : Reaches c d.skipBlanks := (Cursor.reaches_skipBlanks c).trans
      ((yields_anyReference.advances _ _ _ _ hmatched).trans (Cursor.reaches_skipBlanks d))
    have hnone : d.symbol '=' = none := by
      obtain ⟨n, hn⟩ := hreach
      rw [Cursor.symbol, Cursor.adjacent, hn, if_neg]
      intro hhead
      rw [Cursor.rest_skip] at hhead
      exact h (List.mem_of_mem_drop (List.mem_of_head? hhead))
    have hequals : symbol '=' (.assignment :: inside) d = .unmatched := by
      simp only [symbol, Parse.pass, hnone]
    simp only [bind_apply, Option.isSome_none, Bool.false_eq_true, if_false, hmatched, hequals]

/-- A statement without a keyword. Its text is no assignment if it is a label, since it holds no
sign of one. -/
theorem detached_plain {inside : List Construct} {c after : Cursor} {line : Statement}
    (hset : c.peekKeyword ≠ some .Set) (hlet : c.peekKeyword ≠ some .Let)
    (hmark : c.commentMark = none)
    (hm : firstOf [assignment, label, implicitCall] inside c = .matched line after) :
    ∃ text, Detached (firstOf [assignment, label, implicitCall]) Statement.relabel
      Statement.span line
        c.skipBlanks text ∧ (start text).peekKeyword = c.peekKeyword ∧
      (start text).commentMark = none ∧ (start text).blankLine = none := by
  rcases matched_orElse (q := label.orElse (implicitCall.orElse unmatched)) hm
    with hm | ⟨hassign, hm⟩
  · obtain ⟨text, more, hexcerpt, hink, h⟩ :=
      detachable_assignment.detached Statement.exists_regions (Statement.relabel_upTo _) hm
    obtain ⟨hstart, hunmarked⟩ := excerpt_start hexcerpt
    exact ⟨text, h.left _, hstart, hunmarked hmark, Cursor.blankLine_eq_none_of_ink hink⟩
  rcases matched_orElse hm with hm | ⟨hlabel, hm⟩
  · obtain ⟨text, h, hword, hstart, hequals⟩ := detached_label hm
    have hnot (inside : List Construct) : assignment inside (start text) = .unmatched :=
      assignment_eq_unmatched_of_notMem (by rwa [hstart]) (by rwa [hstart]) hequals
    obtain ⟨found, hfound⟩ := Option.isSome_iff_exists.mp hword
    refine ⟨text, (h.left _).right hnot, hstart, Cursor.commentMark_eq_none_of_word hfound ?_, ?_⟩
    · rw [Cursor.commentMark, Option.or_eq_none_iff, Cursor.keyword_eq_none_iff,
        Cursor.peekKeyword_skipBlanks] at hmark
      rw [hstart]
      exact hmark.2
    · rw [← Option.not_isSome_iff_eq_none]
      intro hblank
      rw [Cursor.word_eq_none_of_blankLine hblank] at hfound
      contradiction
  rcases matched_orElse hm with hm | ⟨_, hm⟩
  · obtain ⟨text, more, hexcerpt, hink, h⟩ :=
      detachable_implicitCall.detached Statement.exists_regions (Statement.relabel_upTo _) hm
    obtain ⟨hstart, hunmarked⟩ := excerpt_start hexcerpt
    have hcall :=
      ((h.left unmatched).right (hexcerpt.unmatched keeps_label (skips_label hlabel))).right
      (hexcerpt.unmatched keeps_assignment.tracks ((detachable_assignment.skips _ _).trans hassign))
    exact ⟨text, hcall, hstart, hunmarked hmark, Cursor.blankLine_eq_none_of_ink hink⟩
  · contradiction

theorem detached_code {inside : List Construct} {c after : Cursor} {line : Statement}
    (hmark : c.commentMark = none)
    (hm : codeStatement block c.peekKeyword inside c = .matched line after) :
    ∃ text, Detached (fun inside c => codeStatement block c.peekKeyword inside c) Statement.relabel
        Statement.span line c.skipBlanks text ∧ (start text).commentMark = none ∧
      (start text).blankLine = none := by
  cases hword : c.peekKeyword.any Keyword.isStatementWord with
  | true =>
    obtain ⟨text, more, hexcerpt, hink, h⟩ :=
      (detachable_codeStatement hword).detached Statement.exists_regions
        (Statement.relabel_upTo _) hm
    obtain ⟨hstart, hunmarked⟩ := excerpt_start hexcerpt
    exact ⟨text, h.congr
      fun inside => by rw [hstart], hunmarked hmark, Cursor.blankLine_eq_none_of_ink hink⟩
  | false =>
    have hother (k : Keyword) (hk : k.isStatementWord = true) : c.peekKeyword ≠ some k := by
      intro heq
      rw [heq, Option.any_some, hk] at hword
      contradiction
    rw [codeStatement_eq_firstOf block hword] at hm
    obtain ⟨text, h, hstart, hunmarked, hfull⟩ :=
      detached_plain (hother .Set rfl) (hother .Let rfl) hmark hm
    refine ⟨text, h.congr fun inside => ?_, hunmarked, hfull⟩
    rw [hstart, codeStatement_eq_firstOf block hword]

theorem detached_statement {inside : List Construct} {c after : Cursor} {line : Statement}
    (hm : statement inside c = .matched line after) :
    ∃ origin text, Reaches c origin ∧
      Detached statement Statement.relabel Statement.span line origin text := by
  rw [statement_eq_orElse] at hm ⊢
  exact detached_line (fun _ _ => rfl) (fun _ _ => rfl) (fun _ => rfl) (fun _ => rfl)
    detached_code hm

/-- An item that is all there is to a text. -/
theorem module_eq_of_item {c last : Cursor} {part : Item} (hm : item [] c = .matched part last)
    (hlast : last.rest = []) : module [] c = .matched ⟨[part]⟩ last := by
  have hitems : many item [] c = .matched [part] last :=
    (Runs.cons hm (.nil last)).many_eq yields_item.moves (ItemKind.item_eq_unmatched_of_nil hlast)
  have hfinished : isFinished last = true := by
    rw [isFinished, Cursor.skipBlanks_of_nil hlast, Cursor.isAtEnd, hlast]
    rfl
  simp only [module, bind_apply, hitems, advise, requireEndOfSource, hfinished, if_true]
  rfl

end Grammar

theorem Detached.slice_eq {α : Type} {p : Parse α} {g : Relabel → α → α}
    {span : α → Span} {value : α}
    {origin : Cursor} {text : List Char} {source : String} (h : Detached p g span value origin text)
    (hreach : Reaches (start source.toList) origin) :
    (span value).slice source = String.ofList text := by
  obtain ⟨more, hrest⟩ := h.rest
  rw [h.span_eq, Cursor.slice_spanTo_skip hreach, hrest, List.take_left]

/-- Parsing is local. The text under the span of an item is a module of that item alone, and the
text under the span of a statement is all one statement; both come out as in the source, with their
spans counted from the start of the text. -/
theorem local_of_parseModule {source : String} {settings : Settings} {tree : Module}
    (h : parseModule source settings = .ok tree) :
    (∀ found ∈ tree.items, ∃ part, parseModule (found.span.slice source) settings = .ok ⟨[part]⟩ ∧
      part.relabel (.shift found.span.start) = found) ∧
    ∀ body ∈ tree.blocks, ∀ line ∈ body, ∃ part stop,
      Routine.statement.Matches (Session.start (line.span.slice source) settings) part stop ∧
        stop.rest = [] ∧ part.relabel (.shift line.span.start) = line := by
  obtain ⟨after, hm⟩ := matched_of_parseModule h
  constructor
  · intro found hfound
    obtain ⟨d, hitems, _⟩ := Grammar.runs_of_module hm
    obtain ⟨c, next, hc, hitem⟩ := hitems.exists_of_mem Grammar.yields_item.advances hfound
    obtain ⟨origin, text, horigin, hdetached⟩ := Grammar.detached_item hitem
    obtain ⟨part, last, hpart, hlast, hvalue⟩ := hdetached.matched []
    have hstart : found.span.start = origin.offset := congrArg Span.start hdetached.span_eq
    rw [hdetached.slice_eq (hc.trans horigin), hstart]
    refine ⟨part, parseModule_of_matched (d := last) ?_, hvalue⟩
    rw [String.toList_ofList]
    exact Grammar.module_eq_of_item hpart hlast
  · intro body hbody line hline
    obtain ⟨inside, c, d, hc, hrun⟩ := Grammar.exists_run_of_mem_blocks hm hbody
    obtain ⟨e, next, he, hstatement⟩ := hrun.exists_of_mem Grammar.yields_statement.advances hline
    obtain ⟨origin, text, horigin, hdetached⟩ := Grammar.detached_statement hstatement
    obtain ⟨part, last, hpart, hlast, hvalue⟩ := hdetached.matched []
    have hstart : line.span.start = origin.offset := congrArg Span.start hdetached.span_eq
    rw [hdetached.slice_eq ((hc.trans he).trans horigin), hstart]
    refine ⟨part, last, Guide.tracks_statement_exactly.matches_iff.mpr ?_, hlast, hvalue⟩
    rw [Session.start, String.toList_ofList]
    exact hpart

/-- In a procedure with a conditional, the text of a statement ends before its colon, its comment or
its line break. -/
theorem local_of_conditional :
    ∃ tree, parseModule " Sub F()\n If a Then ' one\n x = 1 : g _\n 2\n End If\nEnd Sub ' two"
        Settings.standard = .ok tree ∧
      tree.items.map Item.span = [⟨1, 57⟩] ∧
      tree.blocks.map (·.map Statement.span) = [[⟨10, 49⟩], [⟨27, 32⟩, ⟨35, 41⟩]] ∧
      (∀ found ∈ tree.items, ∃ part,
        parseModule (found.span.slice
          " Sub F()\n If a Then ' one\n x = 1 : g _\n 2\n End If\nEnd Sub ' two")
            Settings.standard =
            .ok ⟨[part]⟩ ∧
          part.relabel (.shift found.span.start) = found) ∧
      ∀ body ∈ tree.blocks, ∀ line ∈ body, ∃ part stop,
        Routine.statement.Matches (Session.start (line.span.slice
          " Sub F()\n If a Then ' one\n x = 1 : g _\n 2\n End If\nEnd Sub ' two")
            Settings.standard) part stop ∧
          stop.rest = [] ∧ part.relabel (.shift line.span.start) = line := by
  have h : (parseModule " Sub F()\n If a Then ' one\n x = 1 : g _\n 2\n End If\nEnd Sub ' two"
      Settings.standard).toOption.map
        (fun tree => (tree.items.map Item.span, tree.blocks.map (·.map Statement.span))) =
          some ([⟨1, 57⟩], [[⟨10, 49⟩], [⟨27, 32⟩, ⟨35, 41⟩]]) := by
    decide +kernel
  obtain ⟨tree, htree, hspans⟩ := Option.map_eq_some_iff.mp h
  have hparse := Grammar.eq_ok_of_toOption htree
  obtain ⟨hitems, hblocks⟩ := Prod.mk.inj hspans
  exact ⟨tree, hparse, hitems, hblocks, local_of_parseModule hparse⟩

end VisualBasic
