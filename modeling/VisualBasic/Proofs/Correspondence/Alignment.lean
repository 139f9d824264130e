import VisualBasic.Proofs.Cursor.Place
import VisualBasic.Proofs.Parse.Tracking
import VisualBasic.Proofs.Scanner.Token
import VisualBasic.Proofs.Text.Zone

/-!
# Alignments

Two places are abreast when the same text follows both of them and, on either side, every token that
starts in the text ends with it at the latest. Such places meet the same tokens. An alignment is a
pairing of places of two sources in which paired places are abreast; strings, comments and line
breaks may run past the text, so they are asked for on their own, and comments only from where one
may begin. Where every comment may, an alignment is a correspondence up to spans in which nothing
gets lost.
-/

set_option autoImplicit false

namespace VisualBasic

/-- A text in front of which every word, number and symbol ends: no plain character comes first. -/
def Apart (text : List Char) : Prop := text.head?.any isPlain = false

namespace Apart

variable {more : List Char}

theorem nil : Apart [] := rfl

theorem cons {c : Char} (hc : isPlain c = false) (rest : List Char) : Apart (c :: rest) := by
  simp [Apart, hc]

theorem any_eq_false (h : Apart more) {p : Char → Bool} (hp : ∀ c, p c = true → isPlain c = true) :
    more.head?.any p = false := by
  cases more with
  | nil => rfl
  | cons c rest =>
    have hc : isPlain c = false := h
    cases hpc : p c with
    | false => simpa using hpc
    | true => rw [hp c hpc] at hc; contradiction

theorem head?_ne (h : Apart more) {c : Char} (hc : isPlain c = true) : more.head? ≠ some c := by
  intro he
  have hplain : isPlain c = false := by simpa [Apart, he] using h
  rw [hc] at hplain
  contradiction

theorem breaksOff (h : Apart more) : BreaksOff more where
  head := by
    refine h.any_eq_false fun c hc => ?_
    simp only [isJoining, Bool.or_eq_true, List.contains_iff_mem] at hc
    rcases hc with hc | hc
    · exact isPlain_of_isWordChar hc
    · have hall : ['+', '-', '&', '!', '#', '%'].all isPlain = true := by decide
      exact List.all_eq_true.mp hall c hc
  point hmore := absurd (congrArg List.head? hmore) (h.head?_ne (by decide))

/-- The first character of a longer text is of a class of plain ones only if the text's own is. -/
theorem any_head?_append (h : Apart more) {p : Char → Bool}
    (hp : ∀ c, p c = true → isPlain c = true) (text : List Char) :
    (text ++ more).head?.any p = text.head?.any p := by
  cases text with
  | nil => exact h.any_eq_false hp
  | cons => rfl

theorem spells_append (h : Apart more) (k : Keyword) (text : List Char) :
    spells k (text ++ more) = spells k text := by
  rw [spells, spells, firstWord, h.breaksOff.firstWord_append, firstWord]

theorem isPrefixOf_append (h : Apart more) {token : List Char}
    (ht : ∀ c ∈ token, isPlain c = true) (text : List Char) :
    token.isPrefixOf (text ++ more) = token.isPrefixOf text :=
  isPrefixOf_append_of_head (fun c hc => h.head?_ne (ht c hc)) text

end Apart

theorem AtLineEnd.apart {text : List Char} (h : AtLineEnd text) : Apart text := by
  cases text with
  | nil => rfl
  | cons c rest =>
    have hc : isBreak c = true := by simpa [AtLineEnd] using h
    exact .cons (by simp [isPlain, isInk, hc]) rest

/-- A character of the symbols and operators. -/
def isSymbolic (c : Char) : Bool := isPlain c && ! isWordChar c

theorem isPlain_of_isSymbolic {c : Char} (h : isSymbolic c = true) : isPlain c = true := by
  simp only [isSymbolic, Bool.and_eq_true] at h
  exact h.1

theorem isWordChar_of_isSymbolic {c : Char} (h : isSymbolic c = true) : isWordChar c = false := by
  simp only [isSymbolic, Bool.and_eq_true, Bool.not_eq_true'] at h
  exact h.2

/-- Whole words are no longer than the text that they start. -/
theorem length_letters_le {k : Keyword} {text : List Char} (h : spells k text = true) :
    k.letters.length ≤ text.length := by
  rw [length_eq_of_sameLetters h]
  exact (List.takeWhile_prefix isWordChar).length_le

theorem isPlain_of_isWordStart {c : Char} (h : isWordStart c = true) : isPlain c = true :=
  isPlain_of_isWordChar (isWordChar_of_isWordStart h)

/-- A relation between places, carried over to tokens with values. -/
def Valued {α : Type} (R : Cursor → Cursor → Prop) (found other : α × Cursor) : Prop :=
  found.1 = other.1 ∧ R found.2 other.2

section Abreast

variable (meets : Cursor → Cursor → Prop)

/-- Paired places to which the same text leads. -/
def Level (c d e f : Cursor) : Prop := meets e f ∧ c.textTo e = d.textTo f

/-- The same characters on the way make the same text. -/
theorem level_skip {meets : Cursor → Cursor → Prop} {c d : Cursor} {text more more' : List Char}
    (hc : c.rest = text ++ more) (hd : d.rest = text ++ more') {n : Nat} (hn : n ≤ text.length)
    (h : meets (c.skip n) (d.skip n)) : Level meets c d (c.skip n) (d.skip n) := by
  have part {e : Cursor} {rest : List Char} (he : e.rest = text ++ rest) :
      e.textTo (e.skip n) = String.ofList (text.take n) := by
    have hle : n ≤ e.rest.length := by simp [he]; omega
    rw [Cursor.textTo, Cursor.rest_skip, List.length_drop, Nat.sub_sub_self hle, he,
      List.take_append_of_le_length hn]
  exact ⟨h, by rw [part hc, part hd]⟩

structure Abreast (c d : Cursor) (text more more' : List Char) : Prop where
  left : c.rest = text ++ more
  right : d.rest = text ++ more'
  apart : Apart more
  apart' : Apart more'
  ends : more = [] ↔ more' = []
  along {n : Nat} (hn : n ≤ text.length) (hw : Whole (text.take n) (text.drop n)) :
    meets (c.skip n) (d.skip n)

namespace Abreast

variable {meets} {c d : Cursor} {text more more' : List Char}
    (h : Abreast meets c d text more more')
include h

theorem level {n : Nat} (hn : n ≤ text.length) (hw : Whole (text.take n) (text.drop n)) :
    Level meets c d (c.skip n) (d.skip n) :=
  level_skip h.left h.right hn (h.along hn hw)

theorem isAtEnd : c.isAtEnd = d.isAtEnd := by
  rw [Bool.eq_iff_iff]
  simp [Cursor.isAtEnd, h.left, h.right, h.ends]

theorem any_head? {p : Char → Bool} (hp : ∀ c, p c = true → isPlain c = true) :
    c.rest.head?.any p = d.rest.head?.any p := by
  rw [h.left, h.right, h.apart.any_head?_append hp, h.apart'.any_head?_append hp]

theorem isAtWordChar_skip {n : Nat} (hn : n ≤ text.length) :
    (c.skip n).isAtWordChar = (text.drop n).head?.any isWordChar ∧
      (d.skip n).isAtWordChar = (text.drop n).head?.any isWordChar := by
  simp only [Cursor.isAtWordChar, Cursor.rest_skip, h.left, h.right,
    List.drop_append_of_le_length hn, h.apart.any_head?_append fun _ => isPlain_of_isWordChar,
    h.apart'.any_head?_append fun _ => isPlain_of_isWordChar, and_self]

/-- A single character that is none of a word's, before whatever follows. -/
theorem adjacent_of_head {char : Char} (hword : isWordChar char = false)
    (hmore : more.head? ≠ some char) (hmore' : more'.head? ≠ some char) :
    Option.Rel (fun e f => text.head? = some char ∧ e = c.skip 1 ∧ f = d.skip 1 ∧
      Level meets c d e f)
      (c.adjacent char) (d.adjacent char) := by
  have head {rest : List Char} (hrest : rest.head? ≠ some char) :
      (text ++ rest).head? = some char ↔ text.head? = some char := by
    cases text with
    | nil => simpa using hrest
    | cons => simp
  have hleft := head hmore
  have hright := head hmore'
  rw [← h.left] at hleft
  rw [← h.right] at hright
  unfold Cursor.adjacent
  by_cases hfirst : text.head? = some char
  · rw [if_pos (hleft.mpr hfirst), if_pos (hright.mpr hfirst)]
    refine .some ⟨hfirst, rfl, rfl, ?_⟩
    obtain ⟨rest, rfl⟩ := List.head?_eq_some_iff.mp hfirst
    exact h.level (n := 1) (by simp) (.of_getLast (by simpa using hword))
  · rw [if_neg (mt hleft.mp hfirst), if_neg (mt hright.mp hfirst)]
    exact .none

theorem adjacent {char : Char} (hchar : isSymbolic char = true) :
    Option.Rel (Level meets c d) (c.adjacent char) (d.adjacent char) := by
  have hplain := isPlain_of_isSymbolic hchar
  exact Pairing.rel_mono (fun _ _ hl => hl.2.2.2)
    (h.adjacent_of_head (isWordChar_of_isSymbolic hchar)
    (h.apart.head?_ne hplain) (h.apart'.head?_ne hplain))

variable (hc : c.skipBlanks = c) (hd : d.skipBlanks = d)
include hc hd

theorem exactly {token : List Char} (ht : ∀ c ∈ token, isSymbolic c = true) :
    Option.Rel (Level meets c d) (c.exactly token) (d.exactly token) := by
  have hplain : ∀ c ∈ token, isPlain c = true := fun c hc => isPlain_of_isSymbolic (ht c hc)
  simp only [Cursor.exactly, hc, hd]
  rw [h.left, h.right, h.apart.isPrefixOf_append hplain, h.apart'.isPrefixOf_append hplain]
  split
  · rename_i hprefix
    obtain ⟨rest, rfl⟩ := List.isPrefixOf_iff_prefix.mp hprefix
    refine .some (h.level (by simp) (.of_getLast ?_))
    rw [List.take_left]
    cases hlast : token.getLast? with
    | none => rfl
    | some last => exact isWordChar_of_isSymbolic (ht last (List.mem_of_getLast? hlast))
  · exact .none

theorem keyword (k : Keyword) :
    Option.Rel (fun e f => spells k text = true ∧ e = c.skip k.letters.length ∧
        f = d.skip k.letters.length ∧ Level meets c d e f)
      (c.keyword k) (d.keyword k) := by
  rw [Cursor.keyword_eq, Cursor.keyword_eq, hc, hd, h.left, h.right, h.apart.spells_append,
    h.apart'.spells_append]
  split
  · rename_i hspells
    exact .some ⟨hspells, rfl, rfl,
      h.level (length_letters_le hspells) (.of_noWord (spells_iff.mp hspells).2)⟩
  · exact .none

theorem word : Option.Rel (Valued (Level meets c d)) c.word d.word := by
  simp only [Cursor.word, hc, hd, h.any_head? fun _ => isPlain_of_isWordStart]
  rw [h.left, h.right, h.apart.breaksOff.firstWord_append, h.apart'.breaksOff.firstWord_append]
  split
  · exact .some ⟨rfl, h.level (List.takeWhile_prefix isWordChar).length_le
      (.of_noWord (noWord_drop_firstWord text))⟩
  · exact .none

theorem identifier : Option.Rel (Valued (Level meets c d)) c.identifier d.identifier := by
  have hword := h.word hc hd
  unfold Cursor.identifier
  generalize c.word = x at hword ⊢
  generalize d.word = y at hword ⊢
  cases hword with
  | none => exact .none
  | some hword =>
    rw [Option.filter_some, Option.filter_some, hword.1]
    split
    · exact .some hword
    · exact .none

theorem number : Option.Rel (Valued (Level meets c d)) c.number d.number := by
  simp only [Cursor.number, hc, hd]
  rw [h.left, h.right, h.apart.breaksOff.readNumber_append, h.apart'.breaksOff.readNumber_append]
  cases hfound : readNumber text with
  | none => exact .none
  | some found =>
    have hle := length_le_of_readNumber hfound
    obtain ⟨hleft, hright⟩ := h.isAtWordChar_skip hle
    simp only [Option.bind_some, hleft, hright]
    split
    · exact .none
    · rename_i hword
      exact .some ⟨rfl, h.level hle (.of_noWord (by simpa [NoWord] using hword))⟩

theorem relation : Option.Rel (Valued (Level meets c d)) c.relation d.relation := by
  have hsymbolic : ∀ entry ∈ Operator.symbols, entry.1.toList.all isSymbolic = true :=
    List.all_iff_forall_prop.mp (by decide)
  unfold Cursor.relation
  generalize Operator.symbols = symbols at hsymbolic
  induction symbols with
  | nil => exact .none
  | cons entry rest ih =>
    have hrest := ih fun other hother => hsymbolic other (List.mem_cons_of_mem _ hother)
    rw [List.findSome?_cons, List.findSome?_cons]
    cases entry.2.relation? with
    | none => exact hrest
    | some relation =>
      have hexactly := h.exactly hc hd (List.all_eq_true.mp (hsymbolic entry List.mem_cons_self))
      generalize c.exactly entry.1.toList = x at hexactly ⊢
      generalize d.exactly entry.1.toList = y at hexactly ⊢
      cases hexactly with
      | none => exact hrest
      | some hexactly => exact .some ⟨rfl, hexactly⟩

theorem peekWord : c.peekWord = d.peekWord := by
  have hword := h.word hc hd
  unfold Cursor.peekWord
  generalize c.word = x at hword ⊢
  generalize d.word = y at hword ⊢
  cases hword with
  | none => rfl
  | some hword => exact congrArg some hword.1

theorem isAtOperator : c.isAtOperator = d.isAtOperator := by
  have hsymbol : (Operator.symbols.find? fun entry => entry.1.toList.isPrefixOf c.rest) =
      Operator.symbols.find? fun entry => entry.1.toList.isPrefixOf d.rest := by
    have hplain : ∀ entry ∈ Operator.symbols, entry.1.toList.all isPlain = true :=
      List.all_iff_forall_prop.mp (by decide)
    generalize Operator.symbols = symbols at hplain
    induction symbols with
    | nil => rfl
    | cons entry rest ih =>
      have hrest := ih fun other hother => hplain other (List.mem_cons_of_mem _ hother)
      have hentry := List.all_eq_true.mp (hplain entry List.mem_cons_self)
      rw [List.find?_cons, List.find?_cons, hrest, h.left, h.right,
        h.apart.isPrefixOf_append hentry, h.apart'.isPrefixOf_append hentry]
  have hoperator : c.peekOperator = d.peekOperator := by
    simp only [Cursor.peekOperator, hc, hd, hsymbol, h.peekWord hc hd]
  have hnumber : c.number.isNone = d.number.isNone := by
    have hnumber := h.number hc hd
    generalize c.number = x at hnumber ⊢
    generalize d.number = y at hnumber ⊢
    cases hnumber <;> rfl
  simp only [Cursor.isAtOperator, hoperator, hnumber]

/-! Where the text runs to the end of a line on both sides, it holds the strings and the comment. -/

variable (hmore : AtLineEnd more) (hmore' : AtLineEnd more')
include hmore hmore'

theorem quoted : Option.Rel (Valued (Level meets c d)) c.quoted d.quoted := by
  have hquote : isBreak '"' = false := by decide
  cases text with
  | nil =>
    have hleft : c.rest.head? ≠ some '"' := by rw [h.left]; exact hmore.head?_ne hquote
    have hright : d.rest.head? ≠ some '"' := by rw [h.right]; exact hmore'.head?_ne hquote
    rw [Cursor.quoted_eq_none hc hleft, Cursor.quoted_eq_none hd hright]
    exact .none
  | cons first body =>
    by_cases hfirst : first = '"'
    · subst hfirst
      have hleft : c.rest = '"' :: (body ++ more) := h.left
      have hright : d.rest = '"' :: (body ++ more') := h.right
      rw [Cursor.quoted_of_quote hc hleft, Cursor.quoted_of_quote hd hright,
        hmore.quotedBody_append, hmore'.quotedBody_append]
      cases hbody : quotedBody body with
      | none => exact .none
      | some found =>
        have hle : found.2 + 1 ≤ ('"' :: body).length := by
          have hend :=
            Nat.le_trans (length_le_of_quotedBody hbody) (List.takeWhile_prefix _).length_le
          simpa using hend
        obtain ⟨inner, hinner⟩ := getLast?_take_quotedBody hbody
        refine .some ⟨rfl, h.level hle (.of_getLast ?_)⟩
        rw [List.take_succ_cons, hinner, ← List.cons_append, List.getLast?_concat]
        rfl
    · have hleft : c.rest.head? ≠ some '"' := by rw [h.left]; simpa using hfirst
      have hright : d.rest.head? ≠ some '"' := by rw [h.right]; simpa using hfirst
      rw [Cursor.quoted_eq_none hc hleft, Cursor.quoted_eq_none hd hright]
      exact .none

/-- A comment takes the rest of the line. -/
theorem comment (hline : Unbroken text) : Option.Rel (Valued meets) c.comment d.comment := by
  have hmark : Option.Rel (fun e f => ∃ n ≤ text.length, e = c.skip n ∧ f = d.skip n)
      c.commentMark d.commentMark := by
    have hapostrophe : isBreak '\x27' = false := by decide
    simp only [Cursor.commentMark, hc, hd]
    refine Pairing.rel_or (Pairing.rel_mono ?_ (h.adjacent_of_head (by decide)
      (hmore.head?_ne hapostrophe) (hmore'.head?_ne hapostrophe)))
      (Pairing.rel_mono ?_ (h.keyword hc hd .Rem))
    · rintro e f ⟨hhead, he, hf, _⟩
      obtain ⟨rest, rfl⟩ := List.head?_eq_some_iff.mp hhead
      exact ⟨1, by simp, he, hf⟩
    · rintro e f ⟨hspells, he, hf, _⟩
      exact ⟨_, length_letters_le hspells, he, hf⟩
  refine Pairing.rel_map hmark ?_
  rintro e f ⟨n, hn, rfl, rfl⟩
  have hend {e : Cursor} {rest : List Char} (he : e.rest = text ++ rest) (hrest : AtLineEnd rest) :
      (e.skip n).toLineEnd = e.skip text.length ∧
        (e.skip n).textTo (e.skip n).toLineEnd = String.ofList (text.drop n) := by
    have hdrop : (e.skip n).rest = text.drop n ++ rest := by
      rw [Cursor.rest_skip, he, List.drop_append_of_le_length hn]
    have hpart : Unbroken (text.drop n) := fun c hc => hline c (List.mem_of_mem_drop hc)
    have htake : (e.skip n).rest.takeWhile (! isBreak ·) = text.drop n := by
      rw [hdrop]
      exact takeWhile_append_of_head (fun c hc => by simp [hpart c hc]) hrest
    have hlength : n + (text.drop n).length = text.length := by simp; omega
    refine ⟨by rw [Cursor.toLineEnd, htake, ← Cursor.skip_add, hlength], ?_⟩
    have hlineEnd : (e.skip n).toLineEnd.rest = rest := by
      rw [Cursor.toLineEnd, htake, Cursor.rest_skip, hdrop, List.drop_left]
    rw [Cursor.textTo, hlineEnd, hdrop, List.length_append, Nat.add_sub_cancel, List.take_left]
  obtain ⟨hleft, hleftText⟩ := hend h.left hmore
  obtain ⟨hright, hrightText⟩ := hend h.right hmore'
  refine ⟨hleftText.trans hrightText.symm, ?_⟩
  rw [hleft, hright]
  exact h.along (Nat.le_refl _) (.of_noWord (by rw [List.drop_length]; rfl))

end Abreast

end Abreast

/-- Places of two sources that meet the same tokens, line breaks, strings and comments. -/
structure Alignment where
  meets : Cursor → Cursor → Prop
  /-- At which offsets of the left source a comment may begin. -/
  begins : Nat → Prop
  shorter_iff {c d c' d' : Cursor} (h : meets c d) (h' : meets c' d') :
    c'.rest.length < c.rest.length ↔ d'.rest.length < d.rest.length
  abreast {c d : Cursor} (h : meets c d) : ∃ text more more', Abreast meets c d text more more'
  skipBlanks {c d : Cursor} (h : meets c d) : meets c.skipBlanks d.skipBlanks
  lineBreak {c d : Cursor} (h : meets c d) : Option.Rel meets c.lineBreak d.lineBreak
  blankLine {c d : Cursor} (h : meets c d) : Option.Rel meets c.blankLine d.blankLine
  quoted {c d : Cursor} (h : meets c d) (hc : c.skipBlanks = c) (hd : d.skipBlanks = d) :
    Option.Rel (Valued (Level meets c d)) c.quoted d.quoted
  comment {c d : Cursor} (h : meets c d) (hc : c.skipBlanks = c) (hd : d.skipBlanks = d)
    (hb : ∀ n ∈ Scanner.commentOffsets c, begins n) : Option.Rel (Valued meets) c.comment d.comment

namespace Alignment

open Pairing

variable (A : Alignment) (r : Relabel) {c d : Cursor}

/-- A relabelling under which the spans between paired places are the same. -/
def Merges : Prop :=
  ∀ {c d c' d' : Cursor}, A.meets c d → A.meets c' d' → r.span (c.spanTo c') = r.span (d.spanTo d')

/-- The pairing under a relabelling of both sides. -/
def pairing : Pairing := ⟨r, r, A.meets, fun _ => False, fun _ => False, True⟩

theorem merges_erase : A.Merges .erase := fun _ _ => rfl

variable {A r}

theorem alive_iff : (A.pairing r).Alive c d ↔ A.meets c d :=
  ⟨fun h => h.1, fun h => ⟨h, fun hl => hl⟩⟩

theorem reads {α γ : Type} {g : Relabel → α → γ} {s : Strength} {x y : Option (α × Cursor)}
    (h : Option.Rel (Valued A.meets) x y) : (A.pairing r).Reads s ((A.pairing r).On g) x y :=
  rel_mono (fun _ _ hv => ⟨congrArg (g r) hv.1, hv.2, fun _ hl => hl⟩) h

theorem meets_of_level {c d : Cursor} {α : Type} {x y : Option (α × Cursor)}
    (h : Option.Rel (Valued (Level A.meets c d)) x y) : Option.Rel (Valued A.meets) x y :=
  rel_mono (fun _ _ hv => ⟨hv.1, hv.2.1⟩) h

/-- What is met at the next tokens, in terms of the tokens. -/
theorem token {α : Type} {R : α → α → Prop} {read : Cursor → α}
    (hread : ∀ c : Cursor, read c.skipBlanks = read c)
    (h : ∀ {c d : Cursor}, A.meets c d → c.skipBlanks = c → d.skipBlanks = d → R (read c) (read d))
    (hcd : A.meets c d) : R (read c) (read d) := by
  have htoken := h (A.skipBlanks hcd) c.skipBlanks_skipBlanks d.skipBlanks_skipBlanks
  rwa [hread, hread] at htoken

theorem adjacent (h : A.meets c d) {char : Char} (hchar : isSymbolic char = true) :
    Option.Rel A.meets (c.adjacent char) (d.adjacent char) := by
  obtain ⟨text, more, more', habreast⟩ := A.abreast h
  exact rel_mono (fun _ _ hl => hl.1) (habreast.adjacent hchar)

theorem keyword (h : A.meets c d) (k : Keyword) :
    Option.Rel A.meets (c.keyword k) (d.keyword k) := by
  refine token (R := Option.Rel A.meets) (fun e => ?_) (fun h hc hd => ?_) h
  · simp only [Cursor.keyword, Cursor.skipBlanks_skipBlanks]
  · obtain ⟨text, more, more', habreast⟩ := A.abreast h
    exact rel_mono (fun _ _ hl => hl.2.2.2.1) (habreast.keyword hc hd k)

theorem word (h : A.meets c d) : Option.Rel (Valued A.meets) c.word d.word := by
  refine token (R := Option.Rel (Valued A.meets)) Cursor.word_skipBlanks (fun h hc hd => ?_) h
  obtain ⟨text, more, more', habreast⟩ := A.abreast h
  exact meets_of_level (habreast.word hc hd)

theorem peekWord (h : A.meets c d) : c.peekWord = d.peekWord := by
  refine token (R := Eq) (fun e => ?_) (fun h hc hd => ?_) h
  · rw [Cursor.peekWord, Cursor.peekWord, Cursor.word_skipBlanks]
  · obtain ⟨text, more, more', habreast⟩ := A.abreast h
    exact habreast.peekWord hc hd

theorem identifier (h : A.meets c d) : Option.Rel (Valued A.meets) c.identifier d.identifier := by
  refine token (R := Option.Rel (Valued A.meets)) (fun e => ?_) (fun h hc hd => ?_) h
  · rw [Cursor.identifier, Cursor.identifier, Cursor.word_skipBlanks]
  · obtain ⟨text, more, more', habreast⟩ := A.abreast h
    exact meets_of_level (habreast.identifier hc hd)

theorem member (h : A.meets c d) : Option.Rel (Valued A.meets) c.member d.member := by
  refine rel_bind (adjacent h (by decide)) fun e f hef => ?_
  obtain ⟨text, more, more', habreast⟩ := A.abreast hef
  rw [habreast.any_head? fun _ => isPlain_of_isWordStart]
  split
  · exact word hef
  · exact .none

theorem number (h : A.meets c d) : Option.Rel (Valued A.meets) c.number d.number := by
  refine token (R := Option.Rel (Valued A.meets)) (fun e => ?_) (fun h hc hd => ?_) h
  · simp only [Cursor.number, Cursor.skipBlanks_skipBlanks]
  · obtain ⟨text, more, more', habreast⟩ := A.abreast h
    exact meets_of_level (habreast.number hc hd)

theorem relation (h : A.meets c d) : Option.Rel (Valued A.meets) c.relation d.relation := by
  refine token (R := Option.Rel (Valued A.meets)) (fun e => ?_) (fun h hc hd => ?_) h
  · simp only [Cursor.relation, Cursor.exactly, Cursor.skipBlanks_skipBlanks]
  · obtain ⟨text, more, more', habreast⟩ := A.abreast h
    exact meets_of_level (habreast.relation hc hd)

theorem string (h : A.meets c d) : Option.Rel (Valued A.meets) c.quoted d.quoted := by
  refine token (R := Option.Rel (Valued A.meets)) (fun e => ?_)
    (fun h hc hd => meets_of_level (A.quoted h hc hd)) h
  simp only [Cursor.quoted, Cursor.skipBlanks_skipBlanks]

theorem isAtEnd (h : A.meets c d) : c.isAtEnd = d.isAtEnd := by
  obtain ⟨text, more, more', habreast⟩ := A.abreast h
  exact habreast.isAtEnd

theorem isFinished (h : A.meets c d) : Grammar.isFinished c = Grammar.isFinished d :=
  isAtEnd (A.skipBlanks h)

/-! ## The ends of lines -/

theorem breakOrEnd (h : A.meets c d) : Option.Rel A.meets c.breakOrEnd d.breakOrEnd := by
  refine rel_or (A.lineBreak h) ?_
  rw [isAtEnd h]
  split
  · exact .some h
  · exact .none

section Comments

variable (h : A.meets c d) (hb : ∀ n ∈ Scanner.commentOffsets c, A.begins n)
include h hb

theorem comment_token : Option.Rel (Valued A.meets) c.skipBlanks.comment d.skipBlanks.comment :=
  A.comment (A.skipBlanks h) c.skipBlanks_skipBlanks d.skipBlanks_skipBlanks
    (by rwa [Scanner.commentOffsets_skipBlanks])

theorem lineEnd : Option.Rel A.meets c.lineEnd d.lineEnd :=
  breakOrEnd (rel_getD (rel_map (comment_token h hb) fun _ _ hv => hv.2) (A.skipBlanks h))

theorem terminator : Option.Rel A.meets c.terminator d.terminator :=
  rel_or (adjacent (A.skipBlanks h) (by decide)) (lineEnd h hb)

theorem comment_reads (hr : A.Merges r) :
    (A.pairing r).Reads .ends ((A.pairing r).On Comment.relabel) (Grammar.comment c)
      (Grammar.comment d) := by
  refine rel_bind (comment_token h hb) fun found other hv => ?_
  refine rel_map (breakOrEnd hv.2) fun e f hef => ⟨?_, hef, fun _ hl => hl⟩
  simp only [On, Comment.relabel, pairing, hv.1, hr (A.skipBlanks h) hv.2]

end Comments

/-! ## Literals -/

theorem literal_level (h : A.meets c d) (hc : c.skipBlanks = c) (hd : d.skipBlanks = d) :
    Option.Rel (Valued (Level A.meets c d)) (Grammar.literal c) (Grammar.literal d) := by
  obtain ⟨text, more, more', habreast⟩ := A.abreast h
  have hstring : Option.Rel (Valued (Level A.meets c d))
      (c.quoted.map fun found => (Literal.string found.1, found.2))
      (d.quoted.map fun found => (Literal.string found.1, found.2)) :=
    rel_map (A.quoted h hc hd) fun _ _ hv => ⟨congrArg Literal.string hv.1, hv.2⟩
  have hconstant (k : Keyword) (value : Literal) : Option.Rel (Valued (Level A.meets c d))
      ((c.keyword k).map (value, ·)) ((d.keyword k).map (value, ·)) :=
    rel_map (habreast.keyword hc hd k) fun _ _ hl => ⟨rfl, hl.2.2.2⟩
  exact rel_or (rel_or (rel_or (rel_or (habreast.number hc hd) hstring) (hconstant .True _))
    (hconstant .False _)) (hconstant .Nothing _)

theorem textTo_of_literal {c' d' : Cursor} {v w : Literal} (h : A.meets c.skipBlanks d.skipBlanks)
    (hv : Grammar.literal c.skipBlanks = some (v, c'))
    (hw : Grammar.literal d.skipBlanks = some (w, d')) :
    c.skipBlanks.textTo c' = d.skipBlanks.textTo d' := by
  have hliteral := literal_level h c.skipBlanks_skipBlanks d.skipBlanks_skipBlanks
  rw [hv, hw] at hliteral
  cases hliteral with
  | some hliteral => exact hliteral.2.2

theorem isAtOperator (h : A.meets c d) (hc : c.skipBlanks = c) (hd : d.skipBlanks = d) :
    c.isAtOperator = d.isAtOperator := by
  obtain ⟨text, more, more', habreast⟩ := A.abreast h
  exact habreast.isAtOperator hc hd

end Alignment

section

variable (A : Alignment)

/-- What is met at paired places, under a relabelling that merges their spans. -/
def Lexicon.aligned {r : Relabel} (hr : A.Merges r) : Lexicon where
  toPairing := A.pairing r
  past_of_reaches h := h.elim
  span_eq := hr
  shorter_iff h h' _ _ := A.shorter_iff h.1 h'.1
  dot := rfl
  skipBlanks h := Alignment.alive_iff.mpr (A.skipBlanks h.1)
  adjacent h _ hc := by
    have hsymbolic : symbolChars.all isSymbolic = true := by decide
    exact Pairing.rel_mono (fun _ _ => Alignment.alive_iff.mpr)
      (Alignment.adjacent h.1 (List.all_eq_true.mp hsymbolic _ hc))
  keyword h k _ := Pairing.rel_mono (fun _ _ => Alignment.alive_iff.mpr) (Alignment.keyword h.1 k)
  identifier h := .inr (Alignment.reads (Alignment.identifier h.1))
  opener _ _ _ _ h := h.elim fun _ h => h.2
  member h := Alignment.reads (Alignment.member h.1)
  number h := Alignment.reads (Alignment.number h.1)
  quoted h := Alignment.reads (Alignment.string h.1)

/-- An alignment up to spans in which comments may begin anywhere. -/
def Correspondence.aligned (hb : ∀ n, A.begins n) : Correspondence where
  toLexicon := .aligned A A.merges_erase
  not_strict h := h.elim False.elim False.elim
  rest_of_lost h := h.elim
  colon h :=
    .inr
      (Pairing.rel_mono (fun _ _ => Alignment.alive_iff.mpr) (Alignment.adjacent h.1 (by decide)))
  peekKeyword h := by rw [Cursor.peekKeyword, Cursor.peekKeyword, Alignment.peekWord h.1]
  relation h := Alignment.reads (Alignment.relation h.1)
  terminator h := .inr (Alignment.terminator h.1 fun n _ => hb n)
  lineEnd h := .inr (Pairing.rel_getD (Alignment.lineEnd h.1 fun n _ => hb n) h.1)
  blankLine h := .inr (A.blankLine h.1)
  comment h := .inr (Alignment.comment_reads h.1 (fun n _ => hb n) A.merges_erase)
  literalText h hv hw := congrArg (Relabel.text .erase) (Alignment.textTo_of_literal h.1 hv hw)
  nearMiss _ h k := by rw [Alignment.peekWord h.1]
  reserved _ h := by rw [Alignment.peekWord h.1]; rfl
  suggested _ h := by rw [Alignment.peekWord h.1]
  isFinished _ h := Alignment.isFinished h.1

end

end VisualBasic
