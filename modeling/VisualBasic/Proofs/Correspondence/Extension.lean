import VisualBasic.Proofs.Correspondence.Module
import VisualBasic.Proofs.Text.Ending

/-!
# Parsing a text that goes on

A text that ends with a line, and not in a line continuation, is parsed as it is when more text
follows, as long as it lasts: every token ends before the last line feed, and what passes over a
line break ends there.
-/

set_option autoImplicit false

namespace VisualBasic

namespace Cursor

/-- The same place with more text after all that is left. -/
def extend (more : List Char) (c : Cursor) : Cursor := { c with rest := c.rest ++ more }

variable {more : List Char} {c d : Cursor}

@[simp] theorem rest_extend : (c.extend more).rest = c.rest ++ more := rfl

@[simp] theorem afterBlank_extend : (c.extend more).afterBlank = c.afterBlank := rfl

@[simp] theorem offset_extend : (c.extend more).offset = c.offset := rfl

theorem next_extend (h : c.rest ≠ []) : (c.extend more).next = c.next.extend more := by
  obtain ⟨offset, afterBlank, rest⟩ := c
  cases rest with
  | nil => exact absurd rfl h
  | cons char rest => rfl

theorem skip_extend {n : Nat} (h : n ≤ c.rest.length) :
    (c.extend more).skip n = (c.skip n).extend more := by
  induction n generalizing c with
  | zero => rfl
  | succ n ih =>
    have hne : c.rest ≠ [] := by
      rintro he
      simp [he] at h
    rw [skip_succ, skip_succ, next_extend hne, ih (by simp; omega)]

theorem textTo_extend (h : Reaches c d) :
    (c.extend more).textTo (d.extend more) = c.textTo d := by
  have hlen := h.length_le
  simp only [textTo, rest_extend, List.length_append, Nat.add_sub_add_right]
  rw [List.take_append_of_le_length (by omega)]

/-- A place in a text before its end. -/
def Inside (source : List Char) (c : Cursor) : Prop := Reaches (start source) c ∧ c.rest ≠ []

section Ending

variable {source : List Char} (hs : EndsWithLine source)
include hs

theorem Inside.endsWithLine (h : Inside source c) : EndsWithLine c.rest := by
  obtain ⟨⟨n, rfl⟩, hne⟩ := h
  rw [rest_skip] at hne ⊢
  exact hs.drop (by simpa [start] using hne)

omit hs in
theorem Inside.move (h : Inside source c) (hr : Reaches c d) (hne : d.rest ≠ []) :
    Inside source d := ⟨h.1.trans hr, hne⟩

/-- A text that ends with ink ends before the last line feed. -/
theorem Inside.inked (h : Inside source c) {n : Nat} (hink : IsInked (c.skipBlanks.rest.take n)) :
    Inside source (c.skipBlanks.skip n) := by
  refine h.move ((reaches_skipBlanks c).trans (reaches_skip n _)) fun hd => ?_
  rw [rest_skip, List.drop_eq_nil_iff] at hd
  rw [List.take_of_length_le hd] at hink
  have hends := (h.move (reaches_skipBlanks c) hink.ne_nil).endsWithLine hs
  have hlast := hink.2
  rw [hends] at hlast
  contradiction

theorem Inside.begun (h : Inside source c) (ht : Begun c d) : Inside source d := by
  obtain ⟨n, rfl, hink⟩ := ht
  exact h.inked hs hink

theorem Inside.token (h : Inside source c) (ht : Token c d) : Inside source d :=
  h.begun hs ht.begun

variable (hc : ¬ EndsInContinuation source)
include hc

/-- The blanks at a place end before the last line feed. -/
theorem Inside.blankWidth_lt (h : Inside source c) :
    blankWidth c.afterBlank c.rest < c.rest.length := by
  refine Nat.lt_of_le_of_ne (blankWidth_le _ _) fun hw => ?_
  have hends := h.endsWithLine hs
  obtain ⟨⟨n, rfl⟩, _⟩ := h
  have hblank : (skip n (start source)).afterBlank = (source.take n).getLast?.any isBlank := by
    rw [afterBlank_skip]
    cases h : (source.take n).getLast? <;> simp [start, h]
  have := endsInContinuation_of_blankWidth hblank hends hw
  rw [rest_skip] at this
  exact hc (by simpa [start] using this)

theorem Inside.skipBlanks_extend (h : Inside source c) (more : List Char) :
    (c.extend more).skipBlanks = c.skipBlanks.extend more := by
  have hlt := h.blankWidth_lt hs hc
  rw [skipBlanks, skipBlanks, afterBlank_extend, rest_extend,
    (h.endsWithLine hs).blankWidth_append hlt, skip_extend (Nat.le_of_lt hlt)]

theorem Inside.skipBlanks (h : Inside source c) : Inside source c.skipBlanks := by
  have hlt := h.blankWidth_lt hs hc
  refine h.move (reaches_skipBlanks c) ?_
  rw [Cursor.skipBlanks, rest_skip]
  simpa using hlt

/-- A token passed over is passed over when the text goes on. -/
theorem Inside.keyword_extend (h : Inside source c) (more : List Char) (k : Keyword) :
    (c.extend more).keyword k = (c.keyword k).map (extend more) := by
  have htoken := h.skipBlanks hs hc
  have hends := htoken.endsWithLine hs
  have hletters := hends.startsWithLetters_append (fun _ => k.isAlpha_of_mem_letters) more
  simp only [keyword, h.skipBlanks_extend hs hc, rest_extend, hletters]
  cases hk : startsWithLetters k.letters c.skipBlanks.rest with
  | false => rfl
  | true =>
    have hlen := (startsWithLetters_iff.mp hk).1
    obtain ⟨hne, hword⟩ := isWordChar_of_startsWithLetters hk
    have hat : Inside source (c.skipBlanks.skip k.letters.length) :=
      h.inked hs (isInked_of_all hne fun char hc => isInk_of_isWordChar (hword char hc))
    have hword : ((c.skipBlanks.skip k.letters.length).extend more).isAtWordChar =
        (c.skipBlanks.skip k.letters.length).isAtWordChar :=
      congrArg (Option.any isWordChar) ((hat.endsWithLine hs).head?_append more)
    simp only [skip_extend hlen, hword]
    cases (c.skipBlanks.skip k.letters.length).isAtWordChar <;> rfl

omit hc in
theorem Inside.adjacent_extend (h : Inside source c) (more : List Char) (char : Char) :
    (c.extend more).adjacent char = (c.adjacent char).map (extend more) := by
  simp only [adjacent, rest_extend, (h.endsWithLine hs).head?_append, next_extend h.2]
  split <;> rfl

theorem Inside.symbol_extend (h : Inside source c) (more : List Char) (char : Char) :
    (c.extend more).symbol char = (c.symbol char).map (extend more) := by
  rw [symbol, symbol, h.skipBlanks_extend hs hc, (h.skipBlanks hs hc).adjacent_extend hs]

/-- A token with its value, in a text that goes on. -/
def extendFound {α : Type} (more : List Char) (found : α × Cursor) : α × Cursor :=
  (found.1, found.2.extend more)

theorem Inside.word_extend (h : Inside source c) (more : List Char) :
    (c.extend more).word = c.word.map (extendFound more) := by
  have hends := (h.skipBlanks hs hc).endsWithLine hs
  have hn : isWordChar '\n' = false := rfl
  simp only [word, h.skipBlanks_extend hs hc, rest_extend, hends.head?_append,
    hends.takeWhile_append hn, skip_extend (Nat.le_of_lt (hends.length_takeWhile_lt hn))]
  split <;> rfl

theorem Inside.peekWord_extend (h : Inside source c) (more : List Char) :
    (c.extend more).peekWord = c.peekWord := by
  rw [peekWord, h.word_extend hs hc, Option.map_map]
  rfl

theorem Inside.identifier_extend (h : Inside source c) (more : List Char) :
    (c.extend more).identifier = c.identifier.map (extendFound more) := by
  rw [identifier, identifier, h.word_extend hs hc]
  cases c.word with
  | none => rfl
  | some found =>
    simp only [Option.map_some, Option.filter_some, extendFound]
    split <;> rfl

theorem Inside.member_extend (h : Inside source c) (more : List Char) :
    (c.extend more).member = c.member.map (extendFound more) := by
  rw [member, member, h.adjacent_extend hs]
  cases hd : c.adjacent '.' with
  | none => rfl
  | some d =>
    have hat := h.begun hs (begun_of_adjacent (by decide) hd)
    simp only [Option.map_some, Option.bind_some, rest_extend, (hat.endsWithLine hs).head?_append,
      hat.word_extend hs hc]
    split <;> rfl

theorem Inside.number_extend (h : Inside source c) (more : List Char) :
    (c.extend more).number = c.number.map (extendFound more) := by
  have htoken := h.skipBlanks hs hc
  simp only [number, h.skipBlanks_extend hs hc, rest_extend,
    (htoken.endsWithLine hs).readNumber_append]
  cases hn : readNumber c.skipBlanks.rest with
  | none => rfl
  | some found =>
    have hat : Inside source (c.skipBlanks.skip found.2) := by
      exact h.inked hs (isInked_of_readNumber hn)
    have hlen : found.2 ≤ c.skipBlanks.rest.length := by
      have := hat.2
      rw [rest_skip, ne_eq, List.drop_eq_nil_iff] at this
      omega
    have hword : ((c.skipBlanks.skip found.2).extend more).isAtWordChar =
        (c.skipBlanks.skip found.2).isAtWordChar :=
      congrArg (Option.any isWordChar) ((hat.endsWithLine hs).head?_append more)
    simp only [Option.bind_some, skip_extend hlen, hword]
    split <;> rfl

theorem Inside.quoted_extend (h : Inside source c) (more : List Char) :
    (c.extend more).quoted = c.quoted.map (extendFound more) := by
  have hends := (h.skipBlanks hs hc).endsWithLine hs
  unfold quoted
  simp only [h.skipBlanks_extend hs hc, rest_extend]
  cases hr : c.skipBlanks.rest with
  | nil => exact absurd hr (h.skipBlanks hs hc).2
  | cons char body =>
    rw [hr] at hends
    by_cases hchar : char = '"'
    · subst hchar
      have hbody : EndsWithLine body := hends.tail (by decide)
      simp only [List.cons_append, hbody.quotedBody_append, Option.map_map]
      cases hq : quotedBody body with
      | none => rfl
      | some found =>
        have hlen : found.2 + 1 ≤ c.skipBlanks.rest.length := by
          have hquoted : c.quoted =
              some (String.ofList found.1, c.skipBlanks.skip (found.2 + 1)) := by
            unfold quoted
            simp [hr, hq]
          have hat := (h.token hs (token_of_quoted hquoted)).2
          rw [rest_skip, ne_eq, List.drop_eq_nil_iff] at hat
          omega
        simp only [Option.map_some, Function.comp_apply, skip_extend hlen, extendFound]
    · simp [hchar]

theorem Inside.exactly_extend {text : List Char} (ht : '\n' ∉ text) (h : Inside source c)
    (more : List Char) : (c.extend more).exactly text = (c.exactly text).map (extend more) := by
  have hends := (h.skipBlanks hs hc).endsWithLine hs
  simp only [exactly, h.skipBlanks_extend hs hc, rest_extend, hends.isPrefixOf_append ht]
  split
  · rename_i hp
    rw [skip_extend (List.isPrefixOf_iff_prefix.mp hp).length_le]
    rfl
  · rfl

theorem Inside.relation_extend (h : Inside source c) (more : List Char) :
    (c.extend more).relation = c.relation.map (extendFound more) := by
  have hsymbols : ∀ entry ∈ Operator.symbols, '\n' ∉ entry.1.toList := by decide
  unfold relation
  generalize Operator.symbols = symbols at hsymbols
  induction symbols with
  | nil => rfl
  | cons entry rest ih =>
    rw [List.findSome?_cons, List.findSome?_cons,
      h.exactly_extend hs hc (hsymbols entry List.mem_cons_self)]
    have hrest := ih fun other ho => hsymbols other (List.mem_cons_of_mem _ ho)
    cases entry.2.relation? with
    | none => exact hrest
    | some relation =>
      cases c.exactly entry.1.toList with
      | none => exact hrest
      | some after => rfl

/-! ## The end of a line -/

omit hc in
theorem Inside.lineBreak_extend (h : Inside source c) (more : List Char) :
    (c.extend more).lineBreak = c.lineBreak.map (extend more) := by
  simp only [lineBreak, rest_extend, (h.endsWithLine hs).breakWidth_append]
  split
  · rfl
  · rw [skip_extend (breakWidth_le c.rest)]
    rfl

omit hc in
/-- A run of characters of one line ends before its line feed. -/
theorem Inside.skip_takeWhile (h : Inside source c) {p : Char → Bool} (hp : p '\n' = false) :
    Inside source (c.skip (c.rest.takeWhile p).length) :=
  h.move (reaches_skip _ c) (by
    rw [rest_skip]
    exact ((h.endsWithLine hs).drop_takeWhile hp).ne_nil)

omit hc in
theorem Inside.skip_takeWhile_extend (h : Inside source c) {p : Char → Bool} (hp : p '\n' = false)
    (more : List Char) :
    (c.extend more).skip ((c.extend more).rest.takeWhile p).length =
      (c.skip (c.rest.takeWhile p).length).extend more := by
  have hends := h.endsWithLine hs
  rw [rest_extend, hends.takeWhile_append hp,
    skip_extend (Nat.le_of_lt (hends.length_takeWhile_lt hp))]

omit hc in
theorem Inside.blankLine_extend (h : Inside source c) (more : List Char) :
    (c.extend more).blankLine = c.blankLine.map (extend more) := by
  rw [blankLine, blankLine, h.skip_takeWhile_extend hs (p := isBlank) rfl,
    (h.skip_takeWhile hs (p := isBlank) rfl).lineBreak_extend hs]

omit hc in
theorem Inside.toLineEnd_extend (h : Inside source c) (more : List Char) :
    (c.extend more).toLineEnd = c.toLineEnd.extend more :=
  h.skip_takeWhile_extend hs (p := (! isBreak ·)) rfl more

omit hc in
theorem Inside.toLineEnd (h : Inside source c) : Inside source c.toLineEnd :=
  h.skip_takeWhile hs (p := (! isBreak ·)) rfl

theorem Inside.commentMark_extend (h : Inside source c) (more : List Char) :
    (c.extend more).commentMark = c.commentMark.map (extend more) := by
  have htoken := h.skipBlanks hs hc
  simp only [commentMark, h.skipBlanks_extend hs hc, htoken.adjacent_extend hs,
    htoken.keyword_extend hs hc, Option.map_or]

theorem Inside.commentMark (h : Inside source c) (hd : c.commentMark = some d) :
    Inside source d := by
  rcases Option.or_eq_some_iff.mp hd with hd | ⟨_, hd⟩
  · exact (h.skipBlanks hs hc).begun hs (begun_of_adjacent (by decide) hd)
  · exact (h.skipBlanks hs hc).token hs (token_of_keyword hd)

theorem Inside.comment_extend (h : Inside source c) (more : List Char) :
    (c.extend more).comment = c.comment.map (extendFound more) := by
  rw [comment, comment, h.commentMark_extend hs hc]
  cases hd : c.commentMark with
  | none => rfl
  | some d =>
    have hat := h.commentMark hs hc hd
    have hreach : Reaches d d.toLineEnd := reaches_skip _ d
    simp only [Option.map_some, extendFound, hat.toLineEnd_extend hs, textTo_extend hreach]

omit hc in
theorem Inside.breakOrEnd_extend (h : Inside source c) (more : List Char) :
    (c.extend more).breakOrEnd = c.breakOrEnd.map (extend more) := by
  have hat : c.isAtEnd = false := by simpa [isAtEnd] using h.2
  have hat' : (c.extend more).isAtEnd = false := by simp [isAtEnd, h.2]
  simp [breakOrEnd, hat, hat', h.lineBreak_extend hs]

theorem Inside.comment (h : Inside source c) {text : String} (hd : c.comment = some (text, d)) :
    Inside source d := by
  obtain ⟨body, hb, hd⟩ := Option.map_eq_some_iff.mp hd
  cases hd
  exact (h.commentMark hs hc hb).toLineEnd hs

theorem Inside.lineEnd_extend (h : Inside source c) (more : List Char) :
    (c.extend more).lineEnd = c.lineEnd.map (extend more) := by
  have htoken := h.skipBlanks hs hc
  simp only [lineEnd, h.skipBlanks_extend hs hc, htoken.comment_extend hs hc]
  cases hd : c.skipBlanks.comment with
  | none => exact htoken.breakOrEnd_extend hs more
  | some found => exact (htoken.comment hs hc hd).breakOrEnd_extend hs more

theorem Inside.terminator_extend (h : Inside source c) (more : List Char) :
    (c.extend more).terminator = c.terminator.map (extend more) := by
  rw [terminator, terminator, h.symbol_extend hs hc, h.lineEnd_extend hs hc, Option.map_or]

end Ending

end Cursor

namespace Grammar

open Cursor (Inside extend extendFound)

variable {source : List Char} (hs : EndsWithLine source) (hc : ¬ EndsInContinuation source)
  {c : Cursor} (h : Inside source c) (more : List Char)

include hs hc h

theorem comment_extend : comment (c.extend more) = (comment c).map (extendFound more) := by
  have htoken := h.skipBlanks hs hc
  simp only [comment, h.skipBlanks_extend hs hc, htoken.comment_extend hs hc]
  cases hd : c.skipBlanks.comment with
  | none => rfl
  | some found =>
    have hat := htoken.comment hs hc hd
    simp only [Option.map_some, Option.bind_some, extendFound, hat.breakOrEnd_extend hs,
      Option.map_map]
    rfl

theorem literal_extend : literal (c.extend more) = (literal c).map (extendFound more) := by
  simp only [literal, h.number_extend hs hc, h.quoted_extend hs hc, h.keyword_extend hs hc,
    Option.map_or, Option.map_map]
  rfl

end Grammar

namespace Pairing

open Cursor (Reaches Inside extend extendFound)

/-- The places of a text, and the same places when more text follows. -/
def extended (source more : List Char) : Pairing where
  left := .same
  right := .same
  meets c d := Reaches (Cursor.start source) c ∧ d = c.extend more
  lost c := c.rest = []
  past _ := False
  isStrict := False

variable {source more : List Char} {c d : Cursor}

theorem inside_of_alive (h : (extended source more).Alive c d) :
    Inside source c ∧ d = c.extend more := ⟨⟨h.1.1, h.2⟩, h.1.2⟩

theorem alive_of_inside (h : Inside source c) :
    (extended source more).Alive c (c.extend more) := ⟨⟨h.1, rfl⟩, h.2⟩

theorem extended_alive {x : Option Cursor} (h : ∀ c, x = some c → Inside source c) :
    Option.Rel (extended source more).Alive x (x.map (extend more)) := by
  cases x with
  | none => exact .none
  | some c => exact .some (alive_of_inside (h c rfl))

theorem extended_meets {x : Option Cursor}
    (h : ∀ c, x = some c → Reaches (Cursor.start source) c) :
    Option.Rel (extended source more).meets x (x.map (extend more)) := by
  cases x with
  | none => exact .none
  | some c => exact .some ⟨h c rfl, rfl⟩

theorem extended_reads {α : Type} {g : Relabel → α → α} {x : Option (α × Cursor)}
    (h : ∀ value c, x = some (value, c) → Inside source c) :
    (extended source more).Reads .sure ((extended source more).On g) x
      (x.map (extendFound more)) := by
  cases x with
  | none => exact .none
  | some found => exact .some ⟨rfl, (alive_of_inside (h _ _ rfl)).joins _⟩

end Pairing

open Pairing in
def Correspondence.extended {source : List Char} (hs : EndsWithLine source)
    (hc : ¬ EndsInContinuation source) (more : List Char) : Correspondence where
  toPairing := Pairing.extended source more
  not_strict _ hs := hs
  rest_of_lost h := h
  past_of_reaches h := h.elim
  span_eq := by
    rintro c _ c' _ ⟨_, rfl⟩ ⟨_, rfl⟩
    rfl
  shorter_iff := by
    rintro c _ c' _ ⟨⟨_, rfl⟩, _⟩ ⟨⟨_, rfl⟩, _⟩ _ _
    simp
  dot := rfl
  skipBlanks hcd := by
    obtain ⟨h, rfl⟩ := inside_of_alive hcd
    rw [h.skipBlanks_extend hs hc]
    exact alive_of_inside (h.skipBlanks hs hc)
  adjacent := by
    intro c d hcd char hchar
    obtain ⟨h, rfl⟩ := inside_of_alive hcd
    rw [h.adjacent_extend hs]
    have hdelimiter : symbolChars.all isDelimiter = true := by decide
    exact extended_alive fun d hd =>
      h.begun hs (Cursor.begun_of_adjacent (List.all_eq_true.mp hdelimiter _ hchar) hd)
  colon hcd := by
    obtain ⟨h, rfl⟩ := inside_of_alive hcd
    rw [h.adjacent_extend hs]
    exact .inr (extended_alive fun d hd => h.begun hs (Cursor.begun_of_adjacent (by decide) hd))
  keyword hcd k _ := by
    obtain ⟨h, rfl⟩ := inside_of_alive hcd
    rw [h.keyword_extend hs hc]
    exact extended_alive fun d hd => h.token hs (Cursor.token_of_keyword hd)
  peekKeyword hcd := by
    obtain ⟨h, rfl⟩ := inside_of_alive hcd
    rw [Cursor.peekKeyword, Cursor.peekKeyword, h.peekWord_extend hs hc]
  identifier hcd := by
    obtain ⟨h, rfl⟩ := inside_of_alive hcd
    rw [h.identifier_extend hs hc]
    exact .inr (extended_reads fun _ d hd => h.token hs (Cursor.token_of_identifier hd))
  opener _ _ _ _ h := h.elim fun _ h => h.2
  member hcd := by
    obtain ⟨h, rfl⟩ := inside_of_alive hcd
    rw [h.member_extend hs hc]
    refine extended_reads fun _ d hd => ?_
    obtain ⟨e, he, hd⟩ := Option.bind_eq_some_iff.mp hd
    split at hd
    · exact (h.begun hs (Cursor.begun_of_adjacent (by decide) he)).token hs
        (Cursor.token_of_word hd)
    · contradiction
  number hcd := by
    obtain ⟨h, rfl⟩ := inside_of_alive hcd
    rw [h.number_extend hs hc]
    exact extended_reads fun _ d hd => h.token hs (Cursor.token_of_number hd)
  quoted hcd := by
    obtain ⟨h, rfl⟩ := inside_of_alive hcd
    rw [h.quoted_extend hs hc]
    exact extended_reads fun _ d hd => h.token hs (Cursor.token_of_quoted hd)
  relation hcd := by
    obtain ⟨h, rfl⟩ := inside_of_alive hcd
    rw [h.relation_extend hs hc]
    exact extended_reads fun _ d hd => h.token hs (Cursor.token_of_relation hd)
  terminator hcd := by
    obtain ⟨h, rfl⟩ := inside_of_alive hcd
    rw [h.terminator_extend hs hc]
    exact .inr (extended_meets fun d hd => h.1.trans (Cursor.reaches_of_terminator hd))
  lineEnd hcd := by
    obtain ⟨h, rfl⟩ := inside_of_alive hcd
    rw [h.lineEnd_extend hs hc]
    exact .inr (rel_getD (extended_meets fun d hd => h.1.trans (Cursor.reaches_of_lineEnd hd))
      ⟨h.1, rfl⟩)
  blankLine hcd := by
    obtain ⟨h, rfl⟩ := inside_of_alive hcd
    rw [h.blankLine_extend hs]
    exact .inr (extended_meets fun d hd =>
      h.1.trans ((Cursor.reaches_skip _ _).trans (Cursor.reaches_of_lineBreak hd)))
  comment hcd := by
    obtain ⟨h, rfl⟩ := inside_of_alive hcd
    rw [Grammar.comment_extend hs hc h]
    refine .inr ?_
    cases hd : Grammar.comment _ with
    | none => exact .none
    | some found =>
      have hr := h.1.trans (Grammar.comment_regions hd).1
      exact .some ⟨rfl, ⟨hr, rfl⟩, fun hsure => by contradiction⟩
  literalText := by
    intro c d c' d' v w hcd hv hw
    obtain ⟨h, hd⟩ := inside_of_alive hcd
    rw [hd, Grammar.literal_extend hs hc h, hv] at hw
    cases hw
    rw [hd, Cursor.textTo_extend (Grammar.token_of_literal hv).reaches]
    rfl
  nearMiss hstrict := hstrict.elim
  reserved hstrict := hstrict.elim
  suggested hstrict := hstrict.elim
  isFinished hstrict := hstrict.elim

end VisualBasic
