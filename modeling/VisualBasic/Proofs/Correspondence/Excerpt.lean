import VisualBasic.Proofs.Correspondence.Module
import VisualBasic.Proofs.Cursor.Kept
import VisualBasic.Proofs.Lookahead.Terminator
import VisualBasic.Proofs.Span.Bound
import VisualBasic.Proofs.Text.Zone

/-!
# Parsing an excerpt

The text of a construct is read by itself as it is read in the source: every token that starts in it
ends in it. Where the excerpt is over, only blanks and a terminator come in the source. The blanks
are paired with the end of the excerpt, and whatever is read after them goes past it.
-/

set_option autoImplicit false

namespace VisualBasic

open Cursor (start Reaches Balanced)

/-- A text that comes at a place, starts with a token there and is cut off after a construct. -/
structure Excerpt (origin : Cursor) (text more : List Char) : Prop where
  rest : origin.rest = text ++ more
  token : origin.skipBlanks = origin
  cutOff : CutOff origin.afterBlank text more
  shut : text.getLast?.any isOpener = false
  closed : Balanced origin (origin.skip text.length)

/-- As far into the excerpt in the source and by itself. -/
def Placed (origin : Cursor) (text : List Char) (c d : Cursor) : Prop :=
  ∃ n ≤ text.length, c = origin.skip n ∧ d = (start text).skip n

/-- Before the end of the excerpt. -/
def Within (origin : Cursor) (text : List Char) (c d : Cursor) : Prop :=
  ∃ n < text.length, c = origin.skip n ∧ d = (start text).skip n

/-- After the excerpt, before or after the blanks that follow it. -/
def Ended (origin : Cursor) (text : List Char) (c d : Cursor) : Prop :=
  (c = origin.skip text.length ∨ c = (origin.skip text.length).skipBlanks) ∧
    d = (start text).skip text.length

/-- A token of the source and one of the excerpt. -/
def TokenPlaced {α : Type} (origin : Cursor) (text : List Char) (found other : α × Cursor) : Prop :=
  found.1 = other.1 ∧ Placed origin text found.2 other.2

theorem Within.placed {origin : Cursor} {text : List Char} {c d : Cursor}
    (h : Within origin text c d) : Placed origin text c d := by
  obtain ⟨n, hn, hc, hd⟩ := h
  exact ⟨n, Nat.le_of_lt hn, hc, hd⟩

theorem Cursor.breakOrEnd_of_nil {c : Cursor} (h : c.rest = []) : c.breakOrEnd = some c := by
  rw [breakOrEnd, lineBreak_eq_none (by rw [h]; rfl), Option.none_or, isAtEnd, h]
  rfl

theorem Cursor.length_lt_of_breakOrEnd {c d : Cursor} (h : c.breakOrEnd = some d)
    (hc : c.rest ≠ []) :
    d.rest.length < c.rest.length := by
  rcases Option.or_eq_some_iff.mp h with h | ⟨_, h⟩
  · exact length_lt_of_lineBreak h
  · rw [isAtEnd, List.isEmpty_eq_false_iff.mpr hc] at h
    contradiction

theorem blankWidth_false_of_eq_zero {afterBlank : Bool} {text : List Char}
    (h : blankWidth afterBlank text = 0) : blankWidth false text = 0 := by
  cases text with
  | nil => simp [blankWidth]
  | cons c rest =>
    cases hc : isBlank c with
    | true => rw [blankWidth_blank hc] at h; contradiction
    | false => exact blankWidth_cons_eq_zero hc fun hfalse => by contradiction

namespace Excerpt

variable {origin : Cursor} {text more : List Char} {c d : Cursor} (h : Excerpt origin text more)

/-! ## Places -/

omit h in
theorem rest_start (n : Nat) : ((start text).skip n).rest = text.drop n := Cursor.rest_skip n _

include h

theorem rest_origin {n : Nat} (hn : n ≤ text.length) :
    (origin.skip n).rest = text.drop n ++ more := by
  rw [Cursor.rest_skip, h.rest, List.drop_append_of_le_length hn]

theorem offset_origin {n : Nat} (hn : n ≤ text.length) :
    (origin.skip n).offset = ((start text).skip n).offset + origin.offset := by
  rw [Cursor.offset_skip, Cursor.offset_skip, h.rest, List.take_append_of_le_length hn]
  simp only [start]
  omega

theorem length_pos : 0 < text.length := List.length_pos_iff.mpr h.cutOff.ne_nil

/-- The token at a place within the excerpt starts within it. -/
theorem skipBlanks (hcd : Within origin text c d) :
    Within origin text c.skipBlanks d.skipBlanks := by
  obtain ⟨n, hn, rfl, rfl⟩ := hcd
  have hcut := h.cutOff.drop hn
  have hflag : (origin.skip n).afterBlank =
      ((text.take n).getLast?.map isBlank).getD origin.afterBlank := by
    rw [Cursor.afterBlank_skip, h.rest, List.take_append_of_le_length (Nat.le_of_lt hn)]
  rw [← hflag] at hcut
  obtain ⟨hwidth, hlt⟩ := hcut.blankWidth_append
  have hother : blankWidth ((start text).skip n).afterBlank (text.drop n) =
      blankWidth (origin.skip n).afterBlank (text.drop n) := by
    cases n with
    | zero =>
      have hzero := origin.blankWidth_skipBlanks
      rw [h.token] at hzero
      have htext : blankWidth origin.afterBlank text = 0 := by
        rw [← h.cutOff.blankWidth_append.1, ← h.rest, hzero]
      exact (blankWidth_false_of_eq_zero htext).trans htext.symm
    | succ n =>
      have hne : text.take (n + 1) ≠ [] := by
        have := h.cutOff.ne_nil
        simpa using this
      obtain ⟨char, hlast⟩ := Option.isSome_iff_exists.mp (List.getLast?_isSome.mpr hne)
      rw [hflag, Cursor.afterBlank_skip]
      simp only [start, hlast, Option.map_some, Option.getD_some]
  refine ⟨n + blankWidth (origin.skip n).afterBlank (text.drop n), ?_, ?_, ?_⟩
  · rw [List.length_drop] at hlt
    omega
  · rw [Cursor.skipBlanks, h.rest_origin (Nat.le_of_lt hn), hwidth, Cursor.skip_add]
  · rw [Cursor.skipBlanks, rest_start, hother, Cursor.skip_add]

/-! ## Tokens within the excerpt -/

omit h in
theorem head?_append {n : Nat} (hn : n < text.length) :
    (text.drop n ++ more).head? = (text.drop n).head? := by
  have hne : text.drop n ≠ [] := by simpa using hn
  obtain ⟨c, rest, hrest⟩ := List.exists_cons_of_ne_nil hne
  rw [hrest]
  rfl

theorem adjacent (hcd : Within origin text c d) (char : Char) :
    Option.Rel (Placed origin text) (c.adjacent char) (d.adjacent char) := by
  obtain ⟨n, hn, rfl, rfl⟩ := hcd
  rw [Cursor.adjacent, Cursor.adjacent, h.rest_origin (Nat.le_of_lt hn), rest_start,
    head?_append hn]
  split
  · exact .some ⟨n + 1, hn, (Cursor.skip_add n 1 origin).symm, (Cursor.skip_add n 1 _).symm⟩
  · exact .none

theorem keyword (hcd : Within origin text c d) (k : Keyword) :
    Option.Rel (Placed origin text) (c.keyword k) (d.keyword k) := by
  obtain ⟨m, hm, hc, hd⟩ := h.skipBlanks hcd
  rw [Cursor.keyword_eq, Cursor.keyword_eq, hc, hd, h.rest_origin (Nat.le_of_lt hm), rest_start,
    (h.cutOff.drop hm).spells_append]
  split
  · have hlen := (startsWithLetters_iff.mp (spells_iff.mp ‹_›).1).1
    rw [List.length_drop] at hlen
    rw [← Cursor.skip_add, ← Cursor.skip_add]
    exact .some ⟨_, by omega, rfl, rfl⟩
  · exact .none

theorem word (hcd : Within origin text c d) :
    Option.Rel (TokenPlaced origin text) c.word d.word := by
  obtain ⟨m, hm, hc, hd⟩ := h.skipBlanks hcd
  have hfirst : (text.drop m ++ more).takeWhile isWordChar = (text.drop m).takeWhile isWordChar :=
    (h.cutOff.drop hm).firstWord_append
  have hlen := (List.takeWhile_prefix (l := text.drop m) isWordChar).length_le
  rw [List.length_drop] at hlen
  simp only [Cursor.word, hc, hd, h.rest_origin (Nat.le_of_lt hm), rest_start,
    head?_append hm, hfirst]
  split
  · rw [← Cursor.skip_add, ← Cursor.skip_add]
    exact .some ⟨rfl, _, by omega, rfl, rfl⟩
  · exact .none

theorem identifier (hcd : Within origin text c d) :
    Option.Rel (TokenPlaced origin text) c.identifier d.identifier := by
  have hword := h.word hcd
  rw [Cursor.identifier, Cursor.identifier]
  generalize c.word = x at hword ⊢
  generalize d.word = y at hword ⊢
  cases hword with
  | none => exact .none
  | some hfound =>
    rw [Option.filter_some, Option.filter_some, hfound.1]
    split
    · exact .some hfound
    · exact .none

/-- A symbol that opens something never comes last. -/
theorem opener {char : Char} (hchar : isOpener char = true) (hcd : Within origin text c d) :
    Option.Rel (Within origin text) (c.adjacent char) (d.adjacent char) := by
  obtain ⟨n, hn, rfl, rfl⟩ := hcd
  rw [Cursor.adjacent, Cursor.adjacent, h.rest_origin (Nat.le_of_lt hn), rest_start,
    head?_append hn]
  split
  · rename_i hhead
    refine .some ⟨n + 1, ?_, (Cursor.skip_add n 1 origin).symm, (Cursor.skip_add n 1 _).symm⟩
    refine Nat.lt_of_le_of_ne hn fun heq => ?_
    have hshut := h.shut
    rw [List.getLast?_eq_getElem?, ← heq, Nat.add_sub_cancel, ← List.head?_drop, hhead,
      Option.any_some, hchar] at hshut
    contradiction
  · exact .none

theorem member (hcd : Within origin text c d) :
    Option.Rel (TokenPlaced origin text) c.member d.member := by
  refine Pairing.rel_bind (h.opener (by decide) hcd) fun e f hef => ?_
  have hword := h.word hef
  obtain ⟨n, hn, rfl, rfl⟩ := hef
  rw [h.rest_origin (Nat.le_of_lt hn), rest_start, head?_append hn]
  split
  · exact hword
  · exact .none

theorem number (hcd : Within origin text c d) :
    Option.Rel (TokenPlaced origin text) c.number d.number := by
  obtain ⟨m, hm, hc, hd⟩ := h.skipBlanks hcd
  have hcut := h.cutOff.drop hm
  simp only [Cursor.number, hc, hd, h.rest_origin (Nat.le_of_lt hm), rest_start,
    hcut.readNumber_append]
  cases hread : readNumber (text.drop m) with
  | none => exact .none
  | some found =>
    have hlen := length_le_of_readNumber hread
    rw [List.length_drop] at hlen
    have hafter := hcut.any_head?_drop_of_readNumber hread
    have hword : ((origin.skip m).skip found.2).isAtWordChar =
        (((start text).skip m).skip found.2).isAtWordChar := by
      simp only [Cursor.isAtWordChar, Cursor.rest_skip found.2, h.rest_origin (Nat.le_of_lt hm),
        rest_start, hafter]
    simp only [Option.bind_some, hword]
    split
    · exact .none
    · rw [← Cursor.skip_add, ← Cursor.skip_add]
      exact .some ⟨rfl, _, by omega, rfl, rfl⟩

/-- Where no string is open, the rest of the excerpt leaves none open, or it is the rest of the
source. -/
theorem quoteOpen_drop {m : Nat} (hm : m ≤ text.length) (hc : Balanced origin (origin.skip m)) :
    quoteOpen false (text.drop m) = false ∨ more = [] := by
  by_cases hmore : more = []
  · exact .inr hmore
  have hpos : 0 < more.length := List.length_pos_iff.mpr hmore
  have hrest : origin.rest.length = text.length + more.length := by rw [h.rest, List.length_append]
  have hclosed {n : Nat} (hn : n ≤ text.length) (hplace : Balanced origin (origin.skip n)) :
      quoteOpen false (text.take n) = false := by
    obtain ⟨k, hk, hclosed | hend⟩ := hplace
    · have hlen := congrArg (fun c => c.rest.length) hk
      simp only [Cursor.rest_skip, List.length_drop] at hlen
      obtain rfl : k = n := by omega
      rwa [h.rest, List.take_append_of_le_length hn] at hclosed
    · have hlen := congrArg List.length hend
      simp only [Cursor.rest_skip, List.length_drop, List.length_nil] at hlen
      omega
  have hwhole := hclosed (Nat.le_refl _) h.closed
  rw [List.take_length, ← List.take_append_drop m text, quoteOpen_append, hclosed hm hc] at hwhole
  exact .inl hwhole

theorem quoted (hcd : Within origin text c d) (hc : Balanced origin c) :
    Option.Rel (TokenPlaced origin text) c.quoted d.quoted := by
  have hbalanced : Balanced origin c.skipBlanks := Cursor.Kept.skipBlanks hc
  obtain ⟨m, hm, hc, hd⟩ := h.skipBlanks hcd
  rw [hc] at hbalanced
  have hne : text.drop m ≠ [] := by simpa using hm
  obtain ⟨char, body, hbody⟩ := List.exists_cons_of_ne_nil hne
  simp only [Cursor.quoted, hc, hd, h.rest_origin (Nat.le_of_lt hm), rest_start, hbody,
    List.cons_append]
  by_cases hchar : char = '"'
  · subst hchar
    have hsame : quotedBody (body ++ more) = quotedBody body := by
      rcases h.quoteOpen_drop (Nat.le_of_lt hm) hbalanced with hclosed | rfl
      · rw [hbody, quoteOpen_quote] at hclosed
        refine quotedBody_append_of_closed ?_ hclosed
        exact h.cutOff.not_head_more (by decide) (by decide) (by decide) (by decide)
      · rw [List.append_nil]
    change Option.Rel _ ((quotedBody (body ++ more)).map _) ((quotedBody body).map _)
    rw [hsame]
    cases hfound : quotedBody body with
    | none => exact .none
    | some found =>
      have hline := length_le_of_quotedBody hfound
      have hle := (List.takeWhile_prefix (l := body) (! isBreak ·)).length_le
      have hlen := congrArg List.length hbody
      rw [List.length_drop, List.length_cons] at hlen
      simp only [Option.map_some]
      rw [← Cursor.skip_add, ← Cursor.skip_add]
      exact .some ⟨rfl, _, by omega, rfl, rfl⟩
  · split
    · rename_i heq
      exact absurd (List.cons.inj heq).1 hchar
    · split
      · rename_i heq
        exact absurd (List.cons.inj heq).1 hchar
      · exact .none

theorem exactly {token : List Char} (ht : ∀ char ∈ token, more.head? ≠ some char)
    (hcd : Within origin text c d) :
    Option.Rel (Placed origin text) (c.exactly token) (d.exactly token) := by
  obtain ⟨m, hm, hc, hd⟩ := h.skipBlanks hcd
  simp only [Cursor.exactly, hc, hd, h.rest_origin (Nat.le_of_lt hm), rest_start,
    isPrefixOf_append_of_head ht]
  split
  · have hlen := (List.isPrefixOf_iff_prefix.mp ‹_›).length_le
    rw [List.length_drop] at hlen
    rw [← Cursor.skip_add, ← Cursor.skip_add]
    exact .some ⟨_, by omega, rfl, rfl⟩
  · exact .none

theorem relation (hcd : Within origin text c d) :
    Option.Rel (TokenPlaced origin text) c.relation d.relation := by
  have hsymbols : ∀ entry ∈ Operator.symbols, (entry.1.toList.all fun char =>
      isInk char && ! char.isAlpha && char ≠ ':' && char ≠ '\x27') = true :=
    List.all_iff_forall_prop.mp (by decide)
  unfold Cursor.relation
  generalize Operator.symbols = symbols at hsymbols
  induction symbols with
  | nil => exact .none
  | cons entry rest ih =>
    rw [List.findSome?_cons, List.findSome?_cons]
    have hrest := ih fun other ho => hsymbols other (List.mem_cons_of_mem _ ho)
    have hexactly := h.exactly (fun char hchar => by
      have hsign := List.all_eq_true.mp (hsymbols entry List.mem_cons_self) char hchar
      simp only [Bool.and_eq_true, Bool.not_eq_true', decide_eq_true_eq] at hsign
      exact h.cutOff.not_head_more hsign.1.1.1 hsign.1.1.2 hsign.1.2 hsign.2) hcd
    cases entry.2.relation? with
    | none => exact hrest
    | some relation =>
      generalize c.exactly entry.1.toList = x at hexactly ⊢
      generalize d.exactly entry.1.toList = y at hexactly ⊢
      cases hexactly with
      | none => exact hrest
      | some hplaced => exact .some ⟨rfl, hplaced⟩

/-! ## The end of a line within the excerpt -/

theorem lineBreak (hcd : Within origin text c d) :
    Option.Rel (Placed origin text) c.lineBreak d.lineBreak := by
  obtain ⟨n, hn, rfl, rfl⟩ := hcd
  obtain ⟨hwidth, hlt⟩ := breakWidth_append_of_ink (h.cutOff.drop hn).ink more
  rw [List.length_drop] at hlt
  rw [Cursor.lineBreak, Cursor.lineBreak, h.rest_origin (Nat.le_of_lt hn), rest_start, hwidth]
  generalize breakWidth (text.drop n) = width at hlt
  cases width with
  | zero => exact .none
  | succ width =>
    exact .some ⟨n + (width + 1), by omega, (Cursor.skip_add ..).symm, (Cursor.skip_add ..).symm⟩

theorem blankLine (hcd : Within origin text c d) :
    Option.Rel (Placed origin text) c.blankLine d.blankLine := by
  obtain ⟨n, hn, rfl, rfl⟩ := hcd
  obtain ⟨htake, hlt⟩ := takeWhile_append_of_ink (fun _ => isInk_eq_false_of_isBlank)
    (h.cutOff.drop hn).ink more
  rw [List.length_drop] at hlt
  rw [Cursor.blankLine, Cursor.blankLine, h.rest_origin (Nat.le_of_lt hn), rest_start, htake,
    ← Cursor.skip_add, ← Cursor.skip_add]
  exact h.lineBreak ⟨_, by omega, rfl, rfl⟩

theorem breakOrEnd (hcd : Within origin text c d) :
    Option.Rel (Placed origin text) c.breakOrEnd d.breakOrEnd := by
  have hbreak := h.lineBreak hcd
  obtain ⟨n, hn, rfl, rfl⟩ := hcd
  have hne : text.drop n ≠ [] := by simpa using hn
  have hend : (origin.skip n).isAtEnd = false := by
    rw [Cursor.isAtEnd, h.rest_origin (Nat.le_of_lt hn)]
    simp [hne]
  have hother : ((start text).skip n).isAtEnd = false := by
    rw [Cursor.isAtEnd, rest_start]
    simpa using hn
  rw [Cursor.breakOrEnd, Cursor.breakOrEnd, hend, hother]
  simpa using hbreak

theorem commentMark (hcd : Within origin text c d) :
    Option.Rel (Placed origin text) c.commentMark d.commentMark := by
  have htoken := h.skipBlanks hcd
  exact Pairing.rel_or (h.adjacent htoken _) (h.keyword htoken _)

/-! ## Literals and the texts between places -/

theorem literal (hcd : Within origin text c d) (hc : Balanced origin c) :
    Option.Rel (TokenPlaced origin text) (Grammar.literal c) (Grammar.literal d) := by
  have hconstant (k : Keyword) (value : Literal) : Option.Rel (TokenPlaced origin text)
      ((c.keyword k).map (value, ·)) ((d.keyword k).map (value, ·)) :=
    Pairing.rel_map (h.keyword hcd k) fun _ _ hplaced => ⟨rfl, hplaced⟩
  have hquoted : Option.Rel (TokenPlaced origin text)
      (c.quoted.map fun found => (Literal.string found.1, found.2))
      (d.quoted.map fun found => (Literal.string found.1, found.2)) :=
    Pairing.rel_map (h.quoted hcd hc)
      fun _ _ hplaced => ⟨congrArg Literal.string hplaced.1, hplaced.2⟩
  exact Pairing.rel_or (Pairing.rel_or (Pairing.rel_or (Pairing.rel_or (h.number hcd) hquoted)
    (hconstant .True _)) (hconstant .False _)) (hconstant .Nothing _)

theorem textTo {c' d' : Cursor} (hcd : Placed origin text c d) (hcd' : Placed origin text c' d') :
    c.textTo c' = d.textTo d' := by
  obtain ⟨n, hn, rfl, rfl⟩ := hcd
  obtain ⟨m, hm, rfl, rfl⟩ := hcd'
  simp only [Cursor.textTo, h.rest_origin hn, h.rest_origin hm, rest_start, List.length_append,
    List.length_drop]
  rw [List.take_append_of_le_length (by rw [List.length_drop]; omega)]
  congr 2
  omega

/-! ## After the excerpt -/

theorem more_of_cut : (origin.skip text.length).rest = more := by
  rw [h.rest_origin (Nat.le_refl _), List.drop_length, List.nil_append]

theorem afterBlank_cut : (origin.skip text.length).afterBlank = false := by
  obtain ⟨char, hlast, hink⟩ := (Option.any_eq_true _ _).mp h.cutOff.ink
  rw [Cursor.afterBlank_skip, h.rest, List.take_left, hlast, Option.map_some, Option.getD_some,
    isBlank_eq_false_of_isInk hink]

omit h in
theorem rest_end : ((start text).skip text.length).rest = [] := by
  rw [rest_start, List.drop_length]

theorem startsTerminator : StartsTerminator (origin.skip text.length).skipBlanks.rest := by
  have hstop := h.cutOff.stop
  rwa [Cursor.skipBlanks, Cursor.rest_skip, h.afterBlank_cut, h.more_of_cut]

omit h in
theorem within_or_ended (hcd : Placed origin text c d) :
    Within origin text c d ∨ Ended origin text c d := by
  obtain ⟨n, hn, hc, hd⟩ := hcd
  rcases Nat.lt_or_eq_of_le hn with hlt | rfl
  · exact .inl ⟨n, hlt, hc, hd⟩
  · exact .inr ⟨.inl hc, hd⟩

theorem terminator_of_ended (hcd : Ended origin text c d) :
    StartsTerminator c.skipBlanks.rest ∧ d.rest = [] := by
  obtain ⟨hc, rfl⟩ := hcd
  refine ⟨?_, rest_end⟩
  rcases hc with rfl | rfl
  · exact h.startsTerminator
  · rw [Cursor.skipBlanks_skipBlanks]
    exact h.startsTerminator

theorem terminators_of_ended (hcd : Ended origin text c d) :
    StartsTerminator c.skipBlanks.rest ∧ StartsTerminator d.skipBlanks.rest := by
  obtain ⟨hleft, hright⟩ := h.terminator_of_ended hcd
  refine ⟨hleft, ?_⟩
  rw [Cursor.skipBlanks_of_nil hright, hright]
  exact .inl rfl

/-! ## Past the excerpt -/

/-- Where the source goes on past the excerpt. -/
def Beyond (origin : Cursor) (text : List Char) (c : Cursor) : Prop :=
  Reaches (origin.skip text.length) c ∧ c.rest.length < (origin.skip text.length).rest.length

omit h in
theorem beyond_of_reaches (hc : Beyond origin text c) (hr : Reaches c d) : Beyond origin text d :=
  ⟨hc.1.trans hr, Nat.lt_of_le_of_lt hr.length_le hc.2⟩

theorem not_beyond (hcd : Placed origin text c d) : ¬ Beyond origin text c := by
  obtain ⟨n, hn, rfl, _⟩ := hcd
  rw [Beyond, h.rest_origin hn, h.more_of_cut, List.length_append]
  rintro ⟨_, hlt⟩
  omega

omit h in
/-- What is read after the excerpt goes past it. -/
theorem beyond_of_ended {e : Cursor} (hcd : Ended origin text c d) (hr : Reaches c e)
    (hlt : e.rest.length < c.rest.length) : Beyond origin text e := by
  obtain ⟨rfl | rfl, _⟩ := hcd
  · exact ⟨hr, hlt⟩
  · have hblanks := Cursor.reaches_skipBlanks (origin.skip text.length)
    exact ⟨hblanks.trans hr, Nat.lt_of_lt_of_le hlt hblanks.length_le⟩

omit h in
theorem stays_or_beyond {e : Cursor} (hcd : Ended origin text c d) (hr : Reaches c e) :
    Beyond origin text e ∨ e = c := by
  obtain ⟨n, rfl⟩ := hr
  by_cases hlt : (c.skip n).rest.length < c.rest.length
  · exact .inl (beyond_of_ended hcd (Cursor.reaches_skip n c) hlt)
  · refine .inr ?_
    rw [Cursor.rest_skip, List.length_drop] at hlt
    rcases Nat.eq_zero_or_pos n with rfl | hpos
    · rfl
    · exact Cursor.skip_of_rest_eq_nil (List.length_eq_zero_iff.mp (by omega)) n

/-- Where no line break comes in the rest of the excerpt, its line goes on after it. -/
theorem toLineEnd_eq_cut {n : Nat} (hn : n ≤ text.length)
    (hline : (text.drop n).takeWhile (! isBreak ·) = text.drop n) :
    (origin.skip n).toLineEnd = (origin.skip text.length).toLineEnd := by
  rw [Cursor.toLineEnd, Cursor.toLineEnd, h.rest_origin hn, h.more_of_cut, List.takeWhile_append,
    if_pos (by rw [hline]), List.length_append, List.length_drop, ← Cursor.skip_add,
    ← Cursor.skip_add]
  congr 1
  omega

/-- The line that the excerpt ends in goes on past it, unless the source is over as well. -/
theorem toLineEnd_cut (hmore : more ≠ []) :
    ∃ e, (origin.skip text.length).toLineEnd.breakOrEnd = some e ∧ Beyond origin text e := by
  obtain ⟨e, he⟩ :=
    Option.isSome_iff_exists.mp (Cursor.breakOrEnd_toLineEnd (origin.skip text.length))
  have hline : Reaches (origin.skip text.length) (origin.skip text.length).toLineEnd :=
    Cursor.reaches_skip _ _
  have hbreak := Cursor.reaches_of_breakOrEnd he
  refine ⟨e, he, hline.trans hbreak, ?_⟩
  -- Either the line has more text, or its end comes at once and takes some.
  rcases Nat.eq_or_lt_of_le hline.length_le with hsame | hlt
  · have hne : (origin.skip text.length).toLineEnd.rest ≠ [] := by
      rw [← List.length_pos_iff, hsame, h.more_of_cut]
      exact List.length_pos_iff.mpr hmore
    exact hsame ▸ Cursor.length_lt_of_breakOrEnd he hne
  · exact Nat.lt_of_le_of_lt hbreak.length_le hlt

/-- From a place in the excerpt, the end of the line is in the excerpt, or the line goes on past
it. -/
theorem toLineEnd (hcd : Placed origin text c d) :
    Placed origin text c.toLineEnd d.toLineEnd ∧
        Option.Rel (Placed origin text) c.toLineEnd.breakOrEnd d.toLineEnd.breakOrEnd ∨
      ∃ e, c.toLineEnd.breakOrEnd = some e ∧ Beyond origin text e := by
  obtain ⟨n, hn, rfl, rfl⟩ := hcd
  have hright : ((start text).skip n).toLineEnd =
      (start text).skip (n + ((text.drop n).takeWhile (! isBreak ·)).length) := by
    rw [Cursor.toLineEnd, rest_start, Cursor.skip_add]
  by_cases hline : (text.drop n).takeWhile (! isBreak ·) = text.drop n
  · rw [h.toLineEnd_eq_cut hn hline]
    by_cases hmore : more = []
    · have hcut : (origin.skip text.length).rest = [] := h.more_of_cut.trans hmore
      have hend : n + (text.length - n) = text.length := by omega
      rw [hright, hline, List.length_drop, hend, Cursor.toLineEnd, Cursor.skip_of_rest_eq_nil hcut,
        Cursor.breakOrEnd_of_nil hcut, Cursor.breakOrEnd_of_nil rest_end]
      have hplaced : Placed origin text (origin.skip text.length) ((start text).skip text.length) :=
        ⟨_, Nat.le_refl _, rfl, rfl⟩
      exact .inl ⟨hplaced, .some hplaced⟩
    · exact .inr (h.toLineEnd_cut hmore)
  · have hstarts := List.takeWhile_prefix (l := text.drop n) (! isBreak ·)
    have hne : ((text.drop n).takeWhile (! isBreak ·)).length ≠ (text.drop n).length :=
      fun heq => hline (hstarts.eq_of_length heq)
    have hleft : (origin.skip n).toLineEnd =
        origin.skip (n + ((text.drop n).takeWhile (! isBreak ·)).length) := by
      rw [Cursor.toLineEnd, h.rest_origin hn, List.takeWhile_append, if_neg hne, Cursor.skip_add]
    have hwithin : Within origin text
        (origin.skip (n + ((text.drop n).takeWhile (! isBreak ·)).length))
        ((start text).skip (n + ((text.drop n).takeWhile (! isBreak ·)).length)) := by
      have hle := hstarts.length_le
      rw [List.length_drop] at hle hne
      exact ⟨_, by omega, rfl, rfl⟩
    rw [hleft, hright]
    exact .inl ⟨hwithin.placed, h.breakOrEnd hwithin⟩

/-- The rest of a line after a token in the excerpt. -/
theorem lineEnd (hcd : Within origin text c d) :
    (∃ e, c.lineEnd = some e ∧ Beyond origin text e) ∨
      Option.Rel (Placed origin text) c.lineEnd d.lineEnd := by
  have htoken := h.skipBlanks hcd
  have hmark := h.commentMark htoken
  simp only [Cursor.lineEnd, Cursor.comment, Option.map_map]
  generalize c.skipBlanks.commentMark = x at hmark ⊢
  generalize d.skipBlanks.commentMark = y at hmark ⊢
  cases hmark with
  | none => exact .inr (h.breakOrEnd htoken)
  | some hbody =>
    rcases h.toLineEnd hbody with ⟨_, hend⟩ | hbeyond
    · exact .inr hend
    · exact .inl hbeyond

theorem terminator (hcd : Within origin text c d) :
    (∃ e, c.terminator = some e ∧ Beyond origin text e) ∨
      Option.Rel (Placed origin text) c.terminator d.terminator := by
  have hcolon := h.adjacent (h.skipBlanks hcd) ':'
  rw [Cursor.terminator, Cursor.terminator, Cursor.symbol, Cursor.symbol]
  generalize c.skipBlanks.adjacent ':' = x at hcolon ⊢
  generalize d.skipBlanks.adjacent ':' = y at hcolon ⊢
  cases hcolon with
  | none => exact h.lineEnd hcd
  | some hplaced => exact .inr (.some hplaced)

/-- A comment in the excerpt with its line. -/
theorem comment (hcd : Within origin text c d) :
    (∃ found e, Grammar.comment c = some (found, e) ∧ Beyond origin text e) ∨
      Option.Rel (fun found other => found.1.content = other.1.content ∧
        (∃ stop end', found.1.span = c.skipBlanks.spanTo stop ∧
          other.1.span = d.skipBlanks.spanTo end' ∧ Placed origin text stop end') ∧
        Placed origin text found.2 other.2) (Grammar.comment c) (Grammar.comment d) := by
  have hmark := h.commentMark (h.skipBlanks hcd)
  simp only [Grammar.comment, Cursor.comment]
  generalize c.skipBlanks.commentMark = x at hmark ⊢
  generalize d.skipBlanks.commentMark = y at hmark ⊢
  cases hmark with
  | none => exact .inr .none
  | @some body body' hbody =>
    simp only [Option.map_some, Option.bind_some]
    rcases h.toLineEnd hbody with ⟨hstop, hend⟩ | ⟨e, he, hbeyond⟩
    · exact .inr (Pairing.rel_map hend fun _ _ hafter =>
        ⟨h.textTo hbody hstop, ⟨_, _, rfl, rfl, hstop⟩, hafter⟩)
    · rw [he]
      exact .inl ⟨_, e, rfl, hbeyond⟩

end Excerpt

/-! ## The correspondence -/

/-- A text in a source and by itself. -/
def Pairing.excerpted (origin : Cursor) (text : List Char) : Pairing where
  left := .upTo (origin.skip text.length).offset
  right := .shift origin.offset
  meets c d := (Within origin text c d ∨ Ended origin text c d) ∧ Balanced origin c
  lost _ := False
  past := Excerpt.Beyond origin text
  isStrict := False

namespace Excerpt

open Pairing
open Cursor (Kept)

variable {origin : Cursor} {text more : List Char} {c d : Cursor} (h : Excerpt origin text more)

theorem meets_of_placed (hcd : Placed origin text c d) (hc : Balanced origin c) :
    (excerpted origin text).meets c d := ⟨within_or_ended hcd, hc⟩

theorem rel_meets {x y : Option Cursor} (hxy : Option.Rel (Placed origin text) x y)
    (hx : ∀ e, x = some e → Balanced origin e) : Option.Rel (excerpted origin text).meets x y := by
  cases hxy with
  | some hplaced => exact .some (meets_of_placed hplaced (hx _ rfl))
  | none => exact .none

theorem rel_alive {x y : Option Cursor} (hxy : Option.Rel (Placed origin text) x y)
    (hx : ∀ e, x = some e → Balanced origin e) : Option.Rel (excerpted origin text).Alive x y :=
  rel_mono (fun _ _ hmeets => ⟨hmeets, fun hl => hl⟩) (rel_meets hxy hx)

theorem reads {α γ : Type} {s : Strength} {g : Relabel → α → γ} {x y : Option (α × Cursor)}
    (hxy : Option.Rel (TokenPlaced origin text) x y)
    (hx : ∀ value e, x = some (value, e) → Balanced origin e)
    (hg : ∀ value, g (excerpted origin text).left value = g (excerpted origin text).right value) :
    (excerpted origin text).Reads s ((excerpted origin text).On g) x y := by
  cases hxy with
  | none => exact .none
  | @some found other hfound =>
    refine .some ⟨?_, meets_of_placed hfound.2 (hx _ _ rfl), fun _ hl => hl⟩
    rw [On, hfound.1]
    exact hg other.1

theorem eq_of_ended (hcd : Ended origin text c d) (hc : c.skipBlanks = c) :
    c = (origin.skip text.length).skipBlanks := by
  rcases hcd.1 with rfl | rfl
  · exact hc.symm
  · rfl

include h

theorem offset_eq (hcd : Within origin text c d ∨ Ended origin text c d) :
    min c.offset (origin.skip text.length).offset = d.offset + origin.offset := by
  rcases hcd with ⟨n, hn, rfl, rfl⟩ | ⟨hc, rfl⟩
  · have hreach : Reaches (origin.skip n) (origin.skip text.length) := by
      refine ⟨text.length - n, ?_⟩
      rw [← Cursor.skip_add]
      congr 1
      omega
    rw [Nat.min_eq_left hreach.offset_le, h.offset_origin (Nat.le_of_lt hn)]
  · have hle : (origin.skip text.length).offset ≤ c.offset := by
      rcases hc with rfl | rfl
      · exact Nat.le_refl _
      · exact (Cursor.reaches_skipBlanks _).offset_le
    rw [Nat.min_eq_right hle, h.offset_origin (Nat.le_refl _)]

theorem length_of_within (hcd : Within origin text c d) :
    ∃ n, c.rest.length = n + more.length ∧ d.rest.length = n ∧ 0 < n := by
  obtain ⟨n, hn, rfl, rfl⟩ := hcd
  refine ⟨text.length - n, ?_, ?_, by omega⟩
  · rw [h.rest_origin (Nat.le_of_lt hn), List.length_append, List.length_drop]
  · rw [rest_start, List.length_drop]

theorem length_of_ended (hcd : Ended origin text c d) :
    c.rest.length ≤ more.length ∧ d.rest = [] := by
  obtain ⟨hc, rfl⟩ := hcd
  refine ⟨?_, rest_end⟩
  rw [← h.more_of_cut]
  rcases hc with rfl | rfl
  · exact Nat.le_refl _
  · exact (Cursor.reaches_skipBlanks _).length_le

/-- Places after the excerpt have less text left than places in it, and only one of them starts with
no blank. -/
theorem shorter_iff {c' d' : Cursor} (hcd : Within origin text c d ∨ Ended origin text c d)
    (hcd' : Within origin text c' d' ∨ Ended origin text c' d') (hc : c.skipBlanks = c)
    (hc' : c'.skipBlanks = c') :
    c'.rest.length < c.rest.length ↔ d'.rest.length < d.rest.length := by
  rcases hcd with hcd | hcd
  · obtain ⟨n, hlength, hother, hpos⟩ := h.length_of_within hcd
    rcases hcd' with hcd' | hcd'
    · obtain ⟨m, hlength', hother', _⟩ := h.length_of_within hcd'
      omega
    · obtain ⟨hle, hnil⟩ := h.length_of_ended hcd'
      rw [hnil, List.length_nil]
      omega
  · obtain ⟨hle, hnil⟩ := h.length_of_ended hcd
    rw [hnil, List.length_nil]
    rcases hcd' with hcd' | hcd'
    · obtain ⟨m, hlength', hother', _⟩ := h.length_of_within hcd'
      omega
    · obtain ⟨_, hnil'⟩ := h.length_of_ended hcd'
      rw [eq_of_ended hcd hc, eq_of_ended hcd' hc']
      omega

/-! ## From paired places -/

theorem skipBlanks_of_meets (hcd : (excerpted origin text).meets c d) :
    (excerpted origin text).meets c.skipBlanks d.skipBlanks := by
  obtain ⟨hplace | ⟨hplace, hother⟩, hc⟩ := hcd
  · exact ⟨.inl (h.skipBlanks hplace), Kept.skipBlanks hc⟩
  · refine ⟨.inr ⟨.inr ?_, by rw [hother, Cursor.skipBlanks_of_nil rest_end]⟩, Kept.skipBlanks hc⟩
    rcases hplace with rfl | rfl
    · rfl
    · exact Cursor.skipBlanks_skipBlanks _

/-- A step that starts no terminator is taken on both sides or on neither. -/
theorem step_of_meets {step : Cursor → Option Cursor} (hcd : (excerpted origin text).meets c d)
    (hwithin : Within origin text c d → Option.Rel (Placed origin text) (step c) (step d))
    (hkept : ∀ e, step c = some e → Balanced origin e)
    (hended : ∀ {e : Cursor}, StartsTerminator e.skipBlanks.rest → step e = none) :
    Option.Rel (excerpted origin text).Alive (step c) (step d) := by
  rcases hcd.1 with hplace | hplace
  · exact rel_alive (hwithin hplace) hkept
  · obtain ⟨hleft, hright⟩ := h.terminators_of_ended hplace
    rw [hended hleft, hended hright]
    exact .none

/-- A token that starts no terminator is read on both sides or on neither. -/
theorem token_of_meets {α γ : Type} {s : Strength} {g : Relabel → α → γ}
    {token : Cursor → Option (α × Cursor)} (hcd : (excerpted origin text).meets c d)
    (hwithin : Within origin text c d → Option.Rel (TokenPlaced origin text) (token c) (token d))
    (hkept : ∀ value e, token c = some (value, e) → Balanced origin e)
    (hended : ∀ {e : Cursor}, StartsTerminator e.skipBlanks.rest → token e = none)
    (hg : ∀ value, g (excerpted origin text).left value = g (excerpted origin text).right value) :
    (excerpted origin text).Reads s ((excerpted origin text).On g) (token c) (token d) := by
  rcases hcd.1 with hplace | hplace
  · exact reads (hwithin hplace) hkept hg
  · obtain ⟨hleft, hright⟩ := h.terminators_of_ended hplace
    rw [hended hleft, hended hright]
    exact .none

omit h in
/-- What is read after the excerpt goes past it. -/
theorem passes_or_none {x : Option Cursor} (hcd : Ended origin text c d)
    (hmoves : ∀ e, x = some e → Reaches c e ∧ e.rest.length < c.rest.length) :
    (excerpted origin text).Passes x ∨ x = none := by
  cases x with
  | none => exact .inr rfl
  | some e =>
    obtain ⟨hreach, hlt⟩ := hmoves e rfl
    exact .inl ⟨e, rfl, beyond_of_ended hcd hreach hlt⟩

theorem colon_of_meets (hcd : (excerpted origin text).meets c d) :
    (excerpted origin text).Passes (c.adjacent ':') ∨
      Option.Rel (excerpted origin text).Alive (c.adjacent ':') (d.adjacent ':') := by
  obtain ⟨hplace | hplace, hc⟩ := hcd
  · exact .inr (rel_alive (h.adjacent hplace ':') fun _ => Kept.adjacent hc (by decide))
  · have hright : d.adjacent ':' = none := by
      rw [Cursor.adjacent, (h.terminator_of_ended hplace).2]
      rfl
    have hpasses : (excerpted origin text).Passes (c.adjacent ':') ∨ c.adjacent ':' = none :=
      passes_or_none hplace
        fun e he => ⟨Cursor.reaches_of_adjacent he, Cursor.length_lt_of_adjacent he⟩
    refine hpasses.imp id fun hleft => ?_
    rw [hleft, hright]
    exact .none

theorem peekKeyword_of_meets (hcd : (excerpted origin text).meets c d) :
    c.peekKeyword.filter (· ≠ .Rem) = d.peekKeyword.filter (· ≠ .Rem) := by
  rcases hcd.1 with hplace | hplace
  · have hword := h.word hplace
    rw [Cursor.peekKeyword, Cursor.peekKeyword, Cursor.peekWord, Cursor.peekWord]
    generalize c.word = x at hword ⊢
    generalize d.word = y at hword ⊢
    cases hword with
    | none => rfl
    | some hfound => rw [Option.map_some, Option.map_some, hfound.1]
  · obtain ⟨hleft, hright⟩ := h.terminators_of_ended hplace
    rw [Cursor.peekKeyword_of_terminator hleft, Cursor.peekKeyword_of_terminator hright]

theorem identifier_of_meets (hcd : (excerpted origin text).meets c d) :
    (excerpted origin text).Lapses c.identifier d.identifier ∨
      (excerpted origin text).Reads .sure ((excerpted origin text).On Relabel.text)
        c.identifier d.identifier := by
  obtain ⟨hplace | hplace, hc⟩ := hcd
  · exact .inr (reads (h.identifier hplace) (fun _ _ => Kept.identifier hc) fun _ => rfl)
  · have hright : d.identifier = none := by
      have hnil := (h.terminator_of_ended hplace).2
      rw [Cursor.identifier, Cursor.word, Cursor.skipBlanks_of_nil hnil, hnil]
      rfl
    rw [hright]
    cases hname : c.identifier with
    | none => exact .inr .none
    | some found =>
      have htoken := Cursor.token_of_identifier hname
      exact .inl ⟨⟨found.2, rfl, beyond_of_ended hplace htoken.reaches htoken.length_lt⟩, rfl⟩

/-- An opener is not the end of the excerpt, so the name after it is not past the end. -/
theorem opener_of_meets {e : Cursor} (hcd : (excerpted origin text).meets c d) {char : Char}
    (hchar : isOpener char = true) (he : c.adjacent char = some e) :
    ¬ (excerpted origin text).Passes (e.identifier.map Prod.snd) := by
  rintro ⟨f, hf, hbeyond⟩
  rcases hcd.1 with hplace | hplace
  · have hopen := h.opener hchar hplace
    rw [he] at hopen
    generalize d.adjacent char = y at hopen
    cases hopen with
    | some hopened =>
      have hname := h.identifier hopened
      obtain ⟨found, hfound, rfl⟩ := Option.map_eq_some_iff.mp hf
      rw [hfound] at hname
      generalize Cursor.identifier _ = y at hname
      cases hname with
      | some hplaced => exact h.not_beyond hplaced.2 hbeyond
  · have hopeners : ['(', ',', '.'] ⊆ symbolChars := by simp [symbolChars]
    have hsymbol : char ∈ symbolChars := hopeners (by simpa [isOpener] using hchar)
    rw [Cursor.adjacent_of_terminator (h.terminators_of_ended hplace).1 hsymbol] at he
    contradiction

/-- After the excerpt, a terminator or the rest of a line stays at the same place or goes past
it. -/
theorem terminator_of_meets (hcd : (excerpted origin text).meets c d) :
    (excerpted origin text).Passes c.terminator ∨
      Option.Rel (excerpted origin text).meets c.terminator d.terminator := by
  obtain ⟨hplace | hplace, hc⟩ := hcd
  · exact (h.terminator hplace).imp id fun hr => rel_meets hr fun _ => Kept.terminator hc
  · obtain ⟨hleft, hright⟩ := h.terminators_of_ended hplace
    obtain ⟨e, he⟩ := Option.isSome_iff_exists.mp (Cursor.terminator_isSome_iff.mpr hleft)
    obtain ⟨f, hf⟩ := Option.isSome_iff_exists.mp (Cursor.terminator_isSome_iff.mpr hright)
    obtain rfl := Cursor.eq_of_reaches_of_rest_eq_nil (h.terminator_of_ended hplace).2
      (Cursor.reaches_of_terminator hf)
    rw [he, hf]
    refine (stays_or_beyond hplace (Cursor.reaches_of_terminator he)).imp ?_ ?_
    · exact fun hbeyond => ⟨e, rfl, hbeyond⟩
    · rintro rfl
      exact .some ⟨.inr hplace, hc⟩

theorem lineEnd_of_meets (hcd : (excerpted origin text).meets c d) :
    (excerpted origin text).Passes c.lineEnd ∨
      (excerpted origin text).meets (c.lineEnd.getD c) (d.lineEnd.getD d) := by
  obtain ⟨hplace | hplace, hc⟩ := hcd
  · refine (h.lineEnd hplace).imp id fun hr => ?_
    exact rel_getD (rel_meets hr fun _ => Kept.lineEnd hc) ⟨.inl hplace, hc⟩
  · have hright : d.lineEnd.getD d = d := by
      have hnil := (h.terminator_of_ended hplace).2
      cases hline : d.lineEnd with
      | none => rfl
      | some e => exact Cursor.eq_of_reaches_of_rest_eq_nil hnil (Cursor.reaches_of_lineEnd hline)
    rw [hright]
    cases hline : c.lineEnd with
    | none => exact .inr ⟨.inr hplace, hc⟩
    | some e =>
      refine (stays_or_beyond hplace (Cursor.reaches_of_lineEnd hline)).imp ?_ ?_
      · exact fun hbeyond => ⟨e, rfl, hbeyond⟩
      · rintro rfl
        exact ⟨.inr hplace, hc⟩

theorem blankLine_of_meets (hcd : (excerpted origin text).meets c d) :
    (excerpted origin text).Passes c.blankLine ∨
      Option.Rel (excerpted origin text).meets c.blankLine d.blankLine := by
  obtain ⟨hplace | hplace, hc⟩ := hcd
  · exact .inr (rel_meets (h.blankLine hplace) fun _ => Kept.blankLine hc)
  · have hright : d.blankLine = none := by
      have hnil := (h.terminator_of_ended hplace).2
      rw [Cursor.blankLine, Cursor.skip_of_rest_eq_nil hnil, Cursor.lineBreak, hnil]
      rfl
    have hpasses : (excerpted origin text).Passes c.blankLine ∨ c.blankLine = none :=
      passes_or_none hplace fun e he =>
        ⟨(Cursor.reaches_skip _ c).trans (Cursor.reaches_of_lineBreak he),
          Cursor.length_lt_of_blankLine he⟩
    refine hpasses.imp id fun hleft => ?_
    rw [hleft, hright]
    exact .none

theorem comment_of_meets (hcd : (excerpted origin text).meets c d) :
    (excerpted origin text).Passes ((Grammar.comment c).map Prod.snd) ∨
      (excerpted origin text).Reads .ends ((excerpted origin text).On Comment.relabel)
        (Grammar.comment c) (Grammar.comment d) := by
  obtain ⟨hplace | hplace, hc⟩ := hcd
  · refine (h.comment hplace).imp ?_ fun hr => ?_
    · rintro ⟨found, e, he, hbeyond⟩
      exact ⟨e, by rw [he]; rfl, hbeyond⟩
    · generalize hleft : Grammar.comment c = x at hr ⊢
      generalize Grammar.comment d = y at hr ⊢
      cases hr with
      | none => exact .none
      | some hfound =>
        obtain ⟨hcontent, ⟨stop, last, hspan, hspan', hstop⟩, hafter⟩ := hfound
        refine .some ⟨?_, meets_of_placed hafter (Kept.comment hc hleft), fun _ hl => hl⟩
        have hfirst := h.offset_eq (.inl (h.skipBlanks hplace))
        have hlast := h.offset_eq (within_or_ended hstop)
        simp only [On, Comment.relabel, excerpted, Relabel.upTo, Relabel.shift,
          hcontent, hspan, hspan', Cursor.spanTo, hfirst, hlast]
  · have hright : Grammar.comment d = none := by
      have hnil := (h.terminator_of_ended hplace).2
      cases hcomment : Grammar.comment d with
      | none => rfl
      | some found =>
        have hlt := Grammar.length_lt_of_comment hcomment
        rw [hnil] at hlt
        contradiction
    rw [hright]
    cases hcomment : Grammar.comment c with
    | none => exact .inr .none
    | some found =>
      exact .inl ⟨found.2, rfl, beyond_of_ended hplace (Grammar.comment_regions hcomment).1
        (Grammar.length_lt_of_comment hcomment)⟩

/-- No literal starts where the excerpt is over. -/
theorem textTo_of_literal {c' d' : Cursor} {v w : Literal} (hcd : (excerpted origin text).meets c d)
    (hv : Grammar.literal c = some (v, c')) (hw : Grammar.literal d = some (w, d')) :
    c.textTo c' = d.textTo d' := by
  obtain ⟨hplace | hplace, hc⟩ := hcd
  · have hliteral := h.literal hplace hc
    rw [hv, hw] at hliteral
    cases hliteral with
    | some hfound => exact h.textTo hplace.placed hfound.2
  · have hright := (h.terminators_of_ended hplace).2
    simp only [Grammar.literal, Cursor.number_of_terminator hright,
      Cursor.quoted_of_terminator hright,
      Cursor.keyword_of_terminator hright (k := .True) (by decide),
      Cursor.keyword_of_terminator hright (k := .False) (by decide),
      Cursor.keyword_of_terminator hright (k := .Nothing) (by decide), Option.map_none,
      Option.none_or] at hw
    contradiction

end Excerpt

open Cursor (Kept) in
/-- What starts in an excerpt is read from it as from the source; what starts after it is past
it. -/
def Correspondence.excerpted {origin : Cursor} {text more : List Char}
    (h : Excerpt origin text more) : Correspondence where
  toPairing := Pairing.excerpted origin text
  not_strict _ := fun hs => hs
  rest_of_lost hl := hl.elim
  past_of_reaches hc hr := Excerpt.beyond_of_reaches hc hr
  span_eq := by
    rintro c d c' d' ⟨hcd, _⟩ ⟨hcd', _⟩
    have hstart := h.offset_eq hcd
    have hstop := h.offset_eq hcd'
    simp only [Pairing.excerpted, Relabel.upTo, Relabel.shift, Cursor.spanTo, hstart, hstop]
  shorter_iff hcd hcd' hc hc' := h.shorter_iff hcd.1.1 hcd'.1.1 hc hc'
  dot := rfl
  skipBlanks hcd := ⟨h.skipBlanks_of_meets hcd.1, hcd.2⟩
  adjacent hcd char hchar := by
    have hquote : '"' ∉ symbolChars := by simp [symbolChars]
    exact h.step_of_meets hcd.1 (h.adjacent · char)
      (fun _ => Kept.adjacent hcd.1.2 fun he => hquote (he ▸ hchar))
      (Cursor.adjacent_of_terminator · hchar)
  colon hcd := h.colon_of_meets hcd.1
  keyword hcd k hk :=
    h.step_of_meets hcd.1 (h.keyword · k) (fun _ => Kept.keyword hcd.1.2)
      (Cursor.keyword_of_terminator · hk)
  peekKeyword hcd := h.peekKeyword_of_meets hcd.1
  identifier hcd := h.identifier_of_meets hcd.1
  opener hcd _ hchar he := h.opener_of_meets hcd.1 hchar he
  member hcd := h.token_of_meets hcd.1 h.member (fun _ _ => Kept.member hcd.1.2)
    Cursor.member_of_terminator fun _ => rfl
  number hcd := h.token_of_meets hcd.1 h.number (fun _ _ => Kept.number hcd.1.2)
    Cursor.number_of_terminator fun _ => rfl
  quoted hcd := h.token_of_meets hcd.1 (h.quoted · hcd.1.2) (fun _ _ => Kept.quoted hcd.1.2)
    Cursor.quoted_of_terminator fun _ => rfl
  relation hcd := h.token_of_meets hcd.1 h.relation (fun _ _ => Kept.relation hcd.1.2)
    Cursor.relation_of_terminator fun _ => rfl
  terminator hcd := h.terminator_of_meets hcd.1
  lineEnd hcd := h.lineEnd_of_meets hcd.1
  blankLine hcd := h.blankLine_of_meets hcd.1
  comment hcd := h.comment_of_meets hcd.1
  literalText hcd hv hw :=
    congrArg (Pairing.excerpted origin text).left.text (h.textTo_of_literal hcd.1 hv hw)
  nearMiss hs := hs.elim
  reserved hs := hs.elim
  suggested hs := hs.elim
  isFinished hs := hs.elim

end VisualBasic
