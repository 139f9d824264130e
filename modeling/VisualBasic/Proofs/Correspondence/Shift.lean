import VisualBasic.Proofs.Correspondence.Module

/-!
# Parsing further on

What is met at a place depends on the text that follows and on whether a blank comes before, never
on the offset. So a text is parsed further on in a source as it is at the start of one, with all
spans moved.
-/

set_option autoImplicit false

namespace VisualBasic

namespace Cursor

/-- The same text a number of bytes further on. -/
def shift (bytes : Nat) (c : Cursor) : Cursor := { c with offset := c.offset + bytes }

variable (k : Nat) (c d : Cursor)

@[simp] theorem rest_shift : (c.shift k).rest = c.rest := rfl

@[simp] theorem afterBlank_shift : (c.shift k).afterBlank = c.afterBlank := rfl

@[simp] theorem isAtEnd_shift : (c.shift k).isAtEnd = c.isAtEnd := rfl

@[simp] theorem isAtWordChar_shift : (c.shift k).isAtWordChar = c.isAtWordChar := rfl

@[simp] theorem offset_shift : (c.shift k).offset = c.offset + k := rfl

theorem next_shift : (c.shift k).next = c.next.shift k := by
  obtain ⟨offset, afterBlank, rest⟩ := c
  cases rest with
  | nil => rfl
  | cons char rest => simp [shift, next, Nat.add_right_comm]

@[simp] theorem skip_shift (n : Nat) : (c.shift k).skip n = (c.skip n).shift k := by
  induction n generalizing c with
  | zero => rfl
  | succ n ih => rw [skip_succ, skip_succ, next_shift, ih]

@[simp] theorem skipBlanks_shift : (c.shift k).skipBlanks = c.skipBlanks.shift k := by
  simp [skipBlanks]

@[simp] theorem textTo_shift : (c.shift k).textTo (d.shift k) = c.textTo d := rfl

theorem adjacent_shift (char : Char) :
    (c.shift k).adjacent char = (c.adjacent char).map (shift k) := by
  simp only [adjacent, rest_shift, next_shift]
  split <;> rfl

theorem exactly_shift (text : List Char) :
    (c.shift k).exactly text = (c.exactly text).map (shift k) := by
  simp only [exactly, skipBlanks_shift, rest_shift, skip_shift]
  split <;> rfl

theorem keyword_shift (w : Keyword) : (c.shift k).keyword w = (c.keyword w).map (shift k) := by
  simp only [keyword, skipBlanks_shift, rest_shift, skip_shift, isAtWordChar_shift]
  split <;> rfl

/-- A token with its value, further on. -/
def shiftFound {α : Type} (found : α × Cursor) : α × Cursor := (found.1, found.2.shift k)

theorem word_shift : (c.shift k).word = c.word.map (shiftFound k) := by
  simp only [word, skipBlanks_shift, rest_shift, skip_shift]
  split <;> rfl

theorem peekWord_shift : (c.shift k).peekWord = c.peekWord := by
  simp only [peekWord, word_shift, Option.map_map]
  rfl

theorem identifier_shift : (c.shift k).identifier = c.identifier.map (shiftFound k) := by
  rw [identifier, identifier, word_shift]
  cases c.word with
  | none => rfl
  | some found =>
    simp only [Option.map_some, Option.filter_some, shiftFound]
    split <;> rfl

theorem member_shift : (c.shift k).member = c.member.map (shiftFound k) := by
  rw [member, member, adjacent_shift]
  cases c.adjacent '.' with
  | none => rfl
  | some d =>
    simp only [Option.map_some, Option.bind_some, rest_shift, word_shift]
    split <;> rfl

theorem number_shift : (c.shift k).number = c.number.map (shiftFound k) := by
  simp only [number, skipBlanks_shift, rest_shift]
  cases readNumber c.skipBlanks.rest with
  | none => rfl
  | some found =>
    simp only [Option.bind_some, skip_shift, isAtWordChar_shift]
    split <;> rfl

theorem quoted_shift : (c.shift k).quoted = c.quoted.map (shiftFound k) := by
  simp only [quoted, skipBlanks_shift, rest_shift, skip_shift]
  split
  · rw [Option.map_map]
    rfl
  · rfl

theorem relation_shift : (c.shift k).relation = c.relation.map (shiftFound k) := by
  unfold relation
  generalize Operator.symbols = symbols
  induction symbols with
  | nil => rfl
  | cons entry rest ih =>
    rw [List.findSome?_cons, List.findSome?_cons, exactly_shift]
    cases entry.2.relation? with
    | none => exact ih
    | some relation =>
      cases c.exactly entry.1.toList with
      | none => exact ih
      | some after => rfl

theorem lineBreak_shift : (c.shift k).lineBreak = c.lineBreak.map (shift k) := by
  simp only [lineBreak, rest_shift, skip_shift]
  split <;> rfl

theorem blankLine_shift : (c.shift k).blankLine = c.blankLine.map (shift k) := by
  simp only [blankLine, rest_shift, skip_shift, lineBreak_shift]

theorem commentMark_shift : (c.shift k).commentMark = c.commentMark.map (shift k) := by
  simp only [commentMark, skipBlanks_shift, adjacent_shift, keyword_shift, Option.map_or]

theorem toLineEnd_shift : (c.shift k).toLineEnd = c.toLineEnd.shift k := by
  simp only [toLineEnd, rest_shift, skip_shift]

theorem comment_shift : (c.shift k).comment = c.comment.map (shiftFound k) := by
  simp only [comment, commentMark_shift, Option.map_map]
  congr 1
  funext body
  simp [shiftFound, toLineEnd_shift]

theorem breakOrEnd_shift : (c.shift k).breakOrEnd = c.breakOrEnd.map (shift k) := by
  unfold breakOrEnd
  rw [lineBreak_shift, Option.map_or]
  by_cases h : c.isAtEnd = true
  · have h' : (c.shift k).isAtEnd = true := h
    rw [if_pos h, if_pos h', Option.map_some]
  · have h' : ¬ (c.shift k).isAtEnd = true := h
    rw [if_neg h, if_neg h', Option.map_none]

theorem lineEnd_shift : (c.shift k).lineEnd = c.lineEnd.map (shift k) := by
  simp only [lineEnd, skipBlanks_shift, comment_shift]
  cases c.skipBlanks.comment with
  | none => exact breakOrEnd_shift k c.skipBlanks
  | some found => exact breakOrEnd_shift k found.2

theorem terminator_shift : (c.shift k).terminator = c.terminator.map (shift k) := by
  simp only [terminator, symbol, skipBlanks_shift, adjacent_shift, lineEnd_shift, Option.map_or]

end Cursor

namespace Grammar

open Cursor (shift shiftFound)

theorem comment_shift (k : Nat) (c : Cursor) :
    comment (c.shift k) =
      (comment c).map fun found => (found.1.relabel (.shift k), found.2.shift k) := by
  simp only [comment, Cursor.skipBlanks_shift, Cursor.comment_shift]
  cases c.skipBlanks.comment with
  | none => rfl
  | some found =>
    simp only [Option.map_some, Option.bind_some, shiftFound, Cursor.breakOrEnd_shift,
      Option.map_map]
    rfl

theorem literal_shift (k : Nat) (c : Cursor) :
    literal (c.shift k) = (literal c).map (shiftFound k) := by
  simp only [literal, Cursor.number_shift, Cursor.quoted_shift, Cursor.keyword_shift,
    Option.map_or, Option.map_map]
  rfl

end Grammar

namespace Pairing

open Cursor (shift shiftFound)

/-- The text at a place, and the same text further on. -/
def shifted (k : Nat) : Pairing :=
  ⟨.shift k, .same, fun c d => d = c.shift k, fun _ => False, fun _ => False, True⟩

theorem rel_map_self {α β : Type} {R : α → β → Prop} {f : α → β} (h : ∀ a, R a (f a))
    (x : Option α) : Option.Rel R x (x.map f) := by
  cases x with
  | none => exact .none
  | some a => exact .some (h a)

theorem shifted_reads {α : Type} {k : Nat} {s : Strength} {g : Relabel → α → α}
    (hg : ∀ value, g (.shift k) value = g .same value) (x : Option (α × Cursor)) :
    (shifted k).Reads s ((shifted k).On g) x (x.map (shiftFound k)) :=
  rel_map_self (fun found => ⟨hg found.1, rfl, fun _ h => h⟩) x

theorem shifted_alive {k : Nat} (x : Option Cursor) :
    Option.Rel (shifted k).Alive x (x.map (shift k)) :=
  rel_map_self (fun _ => ⟨rfl, fun h => h⟩) x

theorem shifted_meets {k : Nat} (x : Option Cursor) :
    Option.Rel (shifted k).meets x (x.map (shift k)) :=
  rel_map_self (R := (shifted k).meets) (fun _ => rfl) x

end Pairing

open Pairing in
def Correspondence.shifted (k : Nat) : Correspondence where
  toPairing := Pairing.shifted k
  not_strict h := h.elim False.elim False.elim
  rest_of_lost h := h.elim
  past_of_reaches h := h.elim
  span_eq := by
    rintro c _ c' _ rfl rfl
    rfl
  shorter_iff := by
    rintro c _ c' _ ⟨rfl, _⟩ ⟨rfl, _⟩ _ _
    rfl
  dot := rfl
  skipBlanks := by
    rintro c _ ⟨rfl, h⟩
    exact ⟨Cursor.skipBlanks_shift k c, h⟩
  adjacent := by
    rintro c _ ⟨rfl, _⟩ char _
    rw [Cursor.adjacent_shift]
    exact shifted_alive _
  colon := by
    rintro c _ ⟨rfl, _⟩
    rw [Cursor.adjacent_shift]
    exact .inr (shifted_alive _)
  keyword := by
    rintro c _ ⟨rfl, _⟩ w _
    rw [Cursor.keyword_shift]
    exact shifted_alive _
  peekKeyword := by
    rintro c _ ⟨rfl, _⟩
    rw [Cursor.peekKeyword, Cursor.peekKeyword, Cursor.peekWord_shift]
  identifier := by
    rintro c _ ⟨rfl, _⟩
    rw [Cursor.identifier_shift]
    exact .inr (shifted_reads (fun _ => rfl) _)
  opener _ _ _ _ h := h.elim fun _ h => h.2
  member := by
    rintro c _ ⟨rfl, _⟩
    rw [Cursor.member_shift]
    exact shifted_reads (fun _ => rfl) _
  number := by
    rintro c _ ⟨rfl, _⟩
    rw [Cursor.number_shift]
    exact shifted_reads (fun _ => rfl) _
  quoted := by
    rintro c _ ⟨rfl, _⟩
    rw [Cursor.quoted_shift]
    exact shifted_reads (fun _ => rfl) _
  relation := by
    rintro c _ ⟨rfl, _⟩
    rw [Cursor.relation_shift]
    exact shifted_reads (fun _ => rfl) _
  terminator := by
    rintro c _ ⟨rfl, _⟩
    rw [Cursor.terminator_shift]
    exact .inr (shifted_meets _)
  lineEnd := by
    rintro c _ ⟨rfl, h⟩
    rw [Cursor.lineEnd_shift]
    exact .inr (rel_getD (shifted_meets _) rfl)
  blankLine := by
    rintro c _ ⟨rfl, _⟩
    rw [Cursor.blankLine_shift]
    exact .inr (shifted_meets _)
  comment := by
    rintro c _ ⟨rfl, _⟩
    rw [Grammar.comment_shift]
    exact .inr (rel_map_self (fun found => ⟨rfl, rfl, fun _ h => h⟩) _)
  literalText := by
    rintro c d c' d' v w ⟨h, _⟩ hc hd
    have h : d.skipBlanks = c.skipBlanks.shift k := h
    rw [h, Grammar.literal_shift, hc] at hd
    cases hd
    rw [h]
    rfl
  nearMiss := by
    rintro c _ _ ⟨rfl, _⟩ w
    rw [Cursor.peekWord_shift]
  reserved := by
    rintro c _ _ ⟨rfl, _⟩
    rw [Cursor.peekWord_shift]
    rfl
  suggested := by
    rintro c _ _ ⟨rfl, _⟩
    rw [Cursor.peekWord_shift]
  isFinished := by
    rintro c _ _ ⟨rfl, _⟩
    rw [Grammar.isFinished, Grammar.isFinished, Cursor.skipBlanks_shift, Cursor.isAtEnd_shift]

namespace Grammar

/-- A whole text that starts a number of bytes into a source. -/
theorem module_shift (k : Nat) (inside : List Construct) (c : Cursor) :
    (Correspondence.shifted k).Follows .sure ((Correspondence.shifted k).On Module.relabel)
      (module inside c) (module inside (c.shift k)) :=
  keeps_module (K := Correspondence.shifted k) trivial inside inside c (c.shift k) (fun _ => rfl)
    ⟨rfl, fun h => h⟩

end Grammar

end VisualBasic
