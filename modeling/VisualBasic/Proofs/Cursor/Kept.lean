import VisualBasic.Grammar.Trivia
import VisualBasic.Proofs.Parse.Correspondence
import VisualBasic.Proofs.Text.Quote

/-!
# What tokens keep

A property of places that goes on over text without quotes, over whole strings and past the end of a
line goes on over every token and every terminator. One such property is that no string is open.
-/

set_option autoImplicit false

namespace VisualBasic

namespace Cursor

class Kept (I : Cursor → Prop) : Prop where
  plain {c : Cursor} {n : Nat} (h : I c) (hn : '"' ∉ c.rest.take n) : I (c.skip n)
  quoted {c d : Cursor} {value : String} (h : I c) (hq : c.quoted = some (value, d)) : I d
  line {c d e : Cursor} (h : I c) (hr : Reaches c d) (he : d.breakOrEnd = some e) : I e

namespace Kept

variable {I : Cursor → Prop} [Kept I] {c d : Cursor} (h : I c)
include h

theorem skipBlanks : I c.skipBlanks := plain h (quote_notMem_blanks _ _)

theorem adjacent {char : Char} (hchar : char ≠ '"') (hd : c.adjacent char = some d) : I d := by
  obtain ⟨hhead, rfl⟩ := adjacent_eq_some_iff.mp hd
  obtain ⟨rest, hrest⟩ := List.head?_eq_some_iff.mp hhead
  exact plain h (by simpa [hrest] using Ne.symm hchar)

theorem keyword {k : Keyword} (hd : c.keyword k = some d) : I d := by
  rw [keyword_eq] at hd
  split at hd
  · rename_i hspells
    cases hd
    exact plain (skipBlanks h) (by rw [take_letters hspells]; exact quote_notMem_word _)
  · contradiction

theorem word {text : String} (hd : c.word = some (text, d)) : I d := by
  simp only [Cursor.word] at hd
  split at hd
  · cases hd
    exact plain (skipBlanks h) (by rw [take_length_takeWhile]; exact quote_notMem_word _)
  · contradiction

theorem identifier {text : String} (hd : c.identifier = some (text, d)) : I d :=
  word h (identifier_eq_some_iff.mp hd).1

theorem member {text : String} (hd : c.member = some (text, d)) : I d := by
  obtain ⟨e, he, hd⟩ := Option.bind_eq_some_iff.mp hd
  split at hd
  · exact word (adjacent h (by decide) he) hd
  · contradiction

theorem number {value : Literal} (hd : c.number = some (value, d)) : I d := by
  obtain ⟨⟨found, n⟩, hn, hd⟩ := Option.bind_eq_some_iff.mp hd
  dsimp only at hd
  split at hd
  · contradiction
  · cases hd
    exact plain (skipBlanks h) (quote_notMem_number hn)

theorem relation {value : Relation} (hd : c.relation = some (value, d)) : I d := by
  obtain ⟨entry, hentry, hd⟩ := List.exists_of_findSome?_eq_some hd
  obtain ⟨found, _, hd⟩ := Option.bind_eq_some_iff.mp hd
  obtain ⟨after, hafter, hd⟩ := Option.map_eq_some_iff.mp hd
  cases hd
  have hquote : Operator.symbols.all (fun entry => ! entry.1.toList.contains '"') = true := by
    decide
  have hentry := List.all_eq_true.mp hquote entry hentry
  simp only [exactly] at hafter
  split at hafter
  · rename_i htoken
    cases hafter
    obtain ⟨rest, hrest⟩ := List.isPrefixOf_iff_prefix.mp htoken
    refine plain (skipBlanks h) ?_
    rw [← hrest, List.take_left]
    simpa using hentry
  · contradiction

theorem lineEnd (hd : c.lineEnd = some d) : I d := by
  simp only [Cursor.lineEnd] at hd
  refine line h ?_ hd
  refine (reaches_skipBlanks c).trans ?_
  cases hcomment : c.skipBlanks.comment with
  | none => exact Reaches.refl _
  | some found => exact reaches_of_comment hcomment

theorem terminator (hd : c.terminator = some d) : I d := by
  rcases Option.or_eq_some_iff.mp hd with hd | ⟨_, hd⟩
  · exact adjacent (skipBlanks h) (by decide) hd
  · exact lineEnd h hd

theorem blankLine (hd : c.blankLine = some d) : I d := by
  have hbreak : (c.skip (c.rest.takeWhile isBlank).length).lineBreak = some d := hd
  exact line h (reaches_skip _ c) (by rw [breakOrEnd, hbreak, Option.some_or])

theorem comment {note : Comment} (hd : Grammar.comment c = some (note, d)) : I d := by
  obtain ⟨⟨content, stop⟩, hstop, hd⟩ := Option.bind_eq_some_iff.mp hd
  obtain ⟨after, hafter, hd⟩ := Option.map_eq_some_iff.mp hd
  cases hd
  exact line h ((reaches_skipBlanks c).trans (reaches_of_comment hstop)) hafter

end Kept

/-! ## Outside strings -/

/-- A place after an origin at which no string is open, or the end of the source. -/
def Balanced (origin c : Cursor) : Prop :=
  ∃ n, c = origin.skip n ∧ (quoteOpen false (origin.rest.take n) = false ∨ c.rest = [])

variable {origin c d : Cursor}

theorem Balanced.reaches (h : Balanced origin c) : Reaches origin c := by
  obtain ⟨n, rfl, _⟩ := h
  exact reaches_skip n origin

/-- Over a text at whose end no string is open if none is at its start. -/
theorem Balanced.skip {n : Nat} (h : Balanced origin c)
    (hn : quoteOpen false (c.rest.take n) = false) : Balanced origin (c.skip n) := by
  obtain ⟨m, rfl, hm⟩ := h
  refine ⟨m + n, (skip_add m n origin).symm, hm.imp (fun hclosed => ?_) fun hend => ?_⟩
  · rw [List.take_add, quoteOpen_append, hclosed, ← rest_skip, hn]
  · rw [rest_skip, hend, List.drop_nil]

theorem Balanced.quoted {value : String} (h : Balanced origin c) (hd : c.quoted = some (value, d)) :
    Balanced origin d := by
  unfold Cursor.quoted at hd
  dsimp only at hd
  split at hd
  · rename_i body hbody
    obtain ⟨found, hfound, hd⟩ := Option.map_eq_some_iff.mp hd
    cases hd
    have hblanks := h.skip (quoteOpen_of_notMem (quote_notMem_blanks c.afterBlank c.rest))
    refine Balanced.skip hblanks ?_
    rw [hbody, List.take_succ_cons, quoteOpen_quote]
    exact quoteOpen_take_quotedBody hfound
  · contradiction

/-- Every line starts outside strings. -/
theorem Balanced.line {e : Cursor} (h : Balanced origin c) (hr : Reaches c d)
    (he : d.breakOrEnd = some e) : Balanced origin e := by
  obtain ⟨n, rfl⟩ := h.reaches.trans hr
  rcases Option.or_eq_some_iff.mp he with he | ⟨_, he⟩
  · unfold lineBreak at he
    split at he
    · contradiction
    · rename_i hne
      cases he
      obtain ⟨char, hlast, hbreak⟩ := getLast?_take_breakWidth hne
      refine ⟨_, (skip_add n _ origin).symm, .inl ?_⟩
      rw [List.take_add, quoteOpen_append, ← rest_skip]
      exact quoteOpen_of_getLast (by rw [hlast]; exact hbreak)
  · split at he
    · rename_i hend
      cases he
      exact ⟨n, rfl, .inr (List.isEmpty_iff.mp hend)⟩
    · contradiction

instance (origin : Cursor) : Kept (Balanced origin) where
  plain h hn := h.skip (quoteOpen_of_notMem hn)
  quoted := Balanced.quoted
  line := Balanced.line

end Cursor

end VisualBasic
