import VisualBasic.Proofs.Correspondence.Shift
import VisualBasic.Proofs.Cursor.Place
import VisualBasic.Proofs.Text.Folding

/-!
# Parsing in any case

The same tokens are met in a text and in the folded one, with the letters of their texts folded.
Words are compared with keywords, operators and near misses without regard to case, so folding
changes neither what is met nor what is suggested.
-/

set_option autoImplicit false

namespace VisualBasic

/-! ## Words -/

section Words

variable {word : List Char} (h : ∀ c ∈ word, isWordChar c = true)
include h

theorem lookup_fold :
    Keyword.lookup (String.ofList (fold word)) = Keyword.lookup (String.ofList word) := by
  simp only [Keyword.lookup, String.toList_ofList, sameLetters_fold h]

theorem isReservedWord_fold :
    isReservedWord (String.ofList (fold word)) = isReservedWord (String.ofList word) := by
  rw [isReservedWord, lookup_fold h, isReservedWord]

theorem toLower_fold : (String.ofList (fold word)).toLower = (String.ofList word).toLower := by
  delta String.toLower
  simp only [String.map_eq_internal, String.toList_ofList, map_toLower_fold h]

theorem suggestKeyword_fold :
    suggestKeyword (String.ofList (fold word)) = suggestKeyword (String.ofList word) := by
  have hempty : (String.ofList (fold word)).isEmpty = (String.ofList word).isEmpty := by
    rw [Bool.eq_iff_iff]
    simp
  simp only [suggestKeyword, hempty, lookup_fold h, closestBy_eq_of_toLower_eq (toLower_fold h)]

theorem isNearMiss_fold (k : Keyword) :
    isNearMiss (String.ofList (fold word)) k = isNearMiss (String.ofList word) k := by
  simp only [isNearMiss, foldedDistance_eq_of_toLower_eq (toLower_fold h),
    tolerance_eq_of_toLower_eq (toLower_fold h)]

end Words

/-- Folds texts and leaves spans as they are. -/
def Relabel.folding : Relabel := ⟨id, foldChar, fun content => String.ofList (fold content.toList)⟩

theorem Relabel.text_folding (word : List Char) :
    Relabel.folding.text (String.ofList word) = String.ofList (fold word) := by
  rw [Relabel.text, String.toList_ofList]
  rfl

/-! ## Tokens -/

namespace Cursor

/-- The same place in the folded text. -/
def folded (c : Cursor) : Cursor := { c with rest := fold c.rest }

variable (c d : Cursor)

@[simp] theorem rest_folded : c.folded.rest = fold c.rest := rfl

@[simp] theorem offset_folded : c.folded.offset = c.offset := rfl

@[simp] theorem afterBlank_folded : c.folded.afterBlank = c.afterBlank := rfl

@[simp] theorem isAtEnd_folded : c.folded.isAtEnd = c.isAtEnd := isEmpty_fold c.rest

@[simp] theorem isAtWordChar_folded : c.folded.isAtWordChar = c.isAtWordChar :=
  any_head?_fold isWordChar_foldChar c.rest

theorem next_folded : c.folded.next = c.next.folded := by
  obtain ⟨offset, afterBlank, rest⟩ := c
  cases rest with
  | nil => rfl
  | cons char rest => simp [folded, next]

@[simp] theorem skip_folded (n : Nat) : c.folded.skip n = (c.skip n).folded := by
  induction n generalizing c with
  | zero => rfl
  | succ n ih => rw [skip_succ, skip_succ, next_folded, ih]

@[simp] theorem skipBlanks_folded : c.folded.skipBlanks = c.skipBlanks.folded := by
  simp [skipBlanks]

theorem textTo_folded : c.folded.textTo d.folded = Relabel.folding.text (c.textTo d) := by
  simp [textTo, Relabel.text_folding]

/-- A character of its own in either text: neither a letter nor a blank. -/
def IsSign (char : Char) : Prop := char.isAlpha = false ∧ isBlank char = false

instance (char : Char) : Decidable (IsSign char) := inferInstanceAs (Decidable (_ ∧ _))

theorem adjacent_folded {char : Char} (h : IsSign char) :
    c.folded.adjacent char = (c.adjacent char).map folded := by
  simp only [adjacent, rest_folded, head?_fold_eq_iff h, next_folded]
  split <;> rfl

theorem exactly_folded {text : List Char} (h : ∀ char ∈ text, IsSign char) :
    c.folded.exactly text = (c.exactly text).map folded := by
  simp only [exactly, skipBlanks_folded, rest_folded, isPrefixOf_fold h, skip_folded]
  split <;> rfl

theorem keyword_folded (k : Keyword) : c.folded.keyword k = (c.keyword k).map folded := by
  rw [keyword_eq, keyword_eq]
  simp only [skipBlanks_folded, rest_folded, spells_fold, skip_folded]
  split <;> rfl

/-- A token in the folded text, given what becomes of its value. -/
def foldedFound {α : Type} (f : α → α) (found : α × Cursor) : α × Cursor :=
  (f found.1, found.2.folded)

theorem word_folded : c.folded.word = c.word.map (foldedFound Relabel.folding.text) := by
  simp only [word, skipBlanks_folded, rest_folded, any_head?_fold isWordStart_foldChar,
    takeWhile_fold isWordChar_foldChar, length_fold, skip_folded]
  split
  · rw [Option.map_some, foldedFound, Relabel.text_folding]
  · rfl

variable {c} in
/-- A word is made of word characters. -/
theorem exists_word {found : String × Cursor} (h : c.word = some found) :
    ∃ word, found.1 = String.ofList word ∧ ∀ char ∈ word, isWordChar char = true := by
  simp only [word] at h
  split at h
  · cases h
    exact ⟨_, rfl, fun char hchar => of_mem_takeWhile hchar⟩
  · contradiction

/-- The next word, and the next word in the folded text. -/
theorem peekWord_folded :
    Option.Rel (fun found other => ∃ word, (∀ char ∈ word, isWordChar char = true) ∧
      found = String.ofList word ∧ other = String.ofList (fold word)) c.peekWord
        c.folded.peekWord := by
  rw [peekWord, peekWord, word_folded, Option.map_map]
  cases h : c.word with
  | none => exact .none
  | some found =>
    obtain ⟨word, hword, hchars⟩ := exists_word h
    refine .some ⟨word, hchars, hword, ?_⟩
    rw [← Relabel.text_folding, ← hword]
    rfl

theorem bind_peekWord_folded {α : Type} {f : String → Option α}
    (hf : ∀ word : List Char, (∀ char ∈ word, isWordChar char = true) →
      f (String.ofList (fold word)) = f (String.ofList word)) :
    c.folded.peekWord.bind f = c.peekWord.bind f := by
  have hword := c.peekWord_folded
  generalize c.peekWord = x at hword ⊢
  generalize c.folded.peekWord = y at hword ⊢
  cases hword with
  | none => rfl
  | some hword =>
    obtain ⟨word, hchars, rfl, rfl⟩ := hword
    exact hf word hchars

theorem peekKeyword_folded : c.folded.peekKeyword = c.peekKeyword :=
  c.bind_peekWord_folded fun _ => lookup_fold

theorem identifier_folded :
    c.folded.identifier = c.identifier.map (foldedFound Relabel.folding.text) := by
  rw [identifier, identifier, word_folded]
  cases h : c.word with
  | none => rfl
  | some found =>
    obtain ⟨word, hword, hchars⟩ := exists_word h
    simp only [Option.map_some, Option.filter_some, foldedFound, hword, Relabel.text_folding,
      isReservedWord_fold hchars]
    split
    · rw [Option.map_some, foldedFound, hword, Relabel.text_folding]
    · rfl

theorem member_folded : c.folded.member = c.member.map (foldedFound Relabel.folding.text) := by
  rw [member, member, adjacent_folded _ (by decide)]
  cases c.adjacent '.' with
  | none => rfl
  | some d =>
    simp only [Option.map_some, Option.bind_some, rest_folded, any_head?_fold isWordStart_foldChar,
      word_folded]
    split <;> rfl

theorem number_folded : c.folded.number = c.number.map (foldedFound id) := by
  simp only [number, skipBlanks_folded, rest_folded, readNumber_fold]
  cases readNumber c.skipBlanks.rest with
  | none => rfl
  | some found =>
    simp only [Option.bind_some, skip_folded, isAtWordChar_folded]
    split <;> rfl

theorem quoted_folded : c.folded.quoted = c.quoted.map (foldedFound Relabel.folding.text) := by
  have hquote : IsSign '"' := by decide
  have hc := c.skipBlanks_skipBlanks
  have hfolded : c.folded.skipBlanks.skipBlanks = c.folded.skipBlanks := skipBlanks_skipBlanks _
  have htoken (c : Cursor) : c.quoted = c.skipBlanks.quoted := by
    simp only [quoted, skipBlanks_skipBlanks]
  rw [htoken c, htoken c.folded]
  by_cases hhead : c.skipBlanks.rest.head? = some '"'
  · obtain ⟨rest, hrest⟩ := List.head?_eq_some_iff.mp hhead
    have hfold : c.folded.skipBlanks.rest = '"' :: fold rest := by
      rw [skipBlanks_folded, rest_folded, hrest]
      rfl
    rw [quoted_of_quote hc hrest, quoted_of_quote hfolded hfold, quotedBody_fold, Option.map_map,
      Option.map_map]
    refine congrArg (Option.map · (quotedBody rest)) (funext fun found => ?_)
    simp only [Function.comp_apply, foldedFound, Relabel.text_folding,
      skipBlanks_folded, skip_folded]
  · have hfold : c.folded.skipBlanks.rest.head? ≠ some '"' := by
      rw [skipBlanks_folded, rest_folded]
      exact mt (head?_fold_eq_iff hquote _).mp hhead
    rw [quoted_eq_none hc hhead, quoted_eq_none hfolded hfold]
    rfl

theorem isSign_symbols {entry : String × Operator} (he : entry ∈ Operator.symbols) {char : Char}
    (hc : char ∈ entry.1.toList) : IsSign char := by
  have hall : (Operator.symbols.all fun entry => entry.1.toList.all (decide <| IsSign ·)) =
      true := by
    decide
  exact of_decide_eq_true (List.all_eq_true.mp (List.all_eq_true.mp hall entry he) char hc)

theorem relation_folded : c.folded.relation = c.relation.map (foldedFound id) := by
  unfold relation
  have hsign := @isSign_symbols
  generalize Operator.symbols = symbols at hsign
  induction symbols with
  | nil => rfl
  | cons entry rest ih =>
    have hrest := ih fun hother => hsign (List.mem_cons_of_mem _ hother)
    rw [List.findSome?_cons, List.findSome?_cons,
      exactly_folded _ fun _ => hsign List.mem_cons_self]
    cases entry.2.relation? with
    | none => exact hrest
    | some relation =>
      cases c.exactly entry.1.toList with
      | none => exact hrest
      | some after => rfl

theorem peekOperator_folded : c.folded.peekOperator = c.peekOperator := by
  have hsymbol : (Operator.symbols.find? fun entry =>
        entry.1.toList.isPrefixOf (fold c.skipBlanks.rest)) =
      Operator.symbols.find? fun entry => entry.1.toList.isPrefixOf c.skipBlanks.rest := by
    have hsign := @isSign_symbols
    generalize Operator.symbols = symbols at hsign
    induction symbols with
    | nil => rfl
    | cons entry rest ih =>
      have hrest := ih fun hother => hsign (List.mem_cons_of_mem _ hother)
      rw [List.find?_cons, List.find?_cons, hrest, isPrefixOf_fold
        fun _ => hsign List.mem_cons_self]
  simp only [peekOperator, skipBlanks_folded, rest_folded, hsymbol]
  split
  · rfl
  · refine c.skipBlanks.bind_peekWord_folded fun word hchars => ?_
    simp only [String.toList_ofList, sameLetters_fold hchars]

theorem isAtOperator_folded : c.folded.isAtOperator = c.isAtOperator := by
  simp only [isAtOperator, peekOperator_folded, number_folded, Option.isNone_map]

theorem lineBreak_folded : c.folded.lineBreak = c.lineBreak.map folded := by
  simp only [lineBreak, rest_folded, breakWidth_fold, skip_folded]
  split <;> rfl

theorem blankLine_folded : c.folded.blankLine = c.blankLine.map folded := by
  simp only [blankLine, rest_folded, takeWhile_fold isBlank_foldChar, length_fold, skip_folded,
    lineBreak_folded]

theorem commentMark_folded : c.folded.commentMark = c.commentMark.map folded := by
  have hmark : IsSign '\x27' := by decide
  simp only [commentMark, skipBlanks_folded, adjacent_folded _ hmark, keyword_folded, Option.map_or]

theorem toLineEnd_folded : c.folded.toLineEnd = c.toLineEnd.folded := by
  have hbreak (char : Char) : (! isBreak (foldChar char)) = ! isBreak char := by simp
  have hline := takeWhile_fold (p := (! isBreak ·)) hbreak c.rest
  simp only [toLineEnd, rest_folded, hline, length_fold, skip_folded]

theorem comment_folded : c.folded.comment = c.comment.map (foldedFound Relabel.folding.text) := by
  simp only [comment, commentMark_folded, Option.map_map]
  refine congrArg (Option.map · c.commentMark) (funext fun body => ?_)
  simp [foldedFound, toLineEnd_folded, textTo_folded]

theorem breakOrEnd_folded : c.folded.breakOrEnd = c.breakOrEnd.map folded := by
  unfold breakOrEnd
  rw [lineBreak_folded, Option.map_or, isAtEnd_folded]
  split <;> rfl

theorem lineEnd_folded : c.folded.lineEnd = c.lineEnd.map folded := by
  simp only [lineEnd, skipBlanks_folded, comment_folded]
  cases c.skipBlanks.comment with
  | none => exact breakOrEnd_folded c.skipBlanks
  | some found => exact breakOrEnd_folded found.2

theorem terminator_folded : c.folded.terminator = c.terminator.map folded := by
  have hcolon : IsSign ':' := by decide
  simp only [terminator, symbol, skipBlanks_folded, adjacent_folded _ hcolon, lineEnd_folded,
    Option.map_or]

end Cursor

namespace Grammar

open Cursor (folded foldedFound)
open Pairing (rel_map_self rel_map rel_or)

theorem comment_folded (c : Cursor) :
    comment c.folded =
      (comment c).map fun found => (found.1.relabel .folding, found.2.folded) := by
  simp only [comment, Cursor.skipBlanks_folded, Cursor.comment_folded]
  cases c.skipBlanks.comment with
  | none => rfl
  | some found =>
    simp only [Option.map_some, Option.bind_some, foldedFound, Cursor.breakOrEnd_folded,
      Option.map_map]
    rfl

/-- Tokens that end at the same place of a text and of the folded one. -/
def EndsFolded {α : Type} (found other : α × Cursor) : Prop := other.2 = found.2.folded

theorem endsFolded_map {α : Type} (f : α → α) (x : Option (α × Cursor)) :
    Option.Rel EndsFolded x (x.map (foldedFound f)) := by
  cases x with
  | none => exact .none
  | some found => exact .some rfl

theorem literal_folded (c : Cursor) : Option.Rel EndsFolded (literal c) (literal c.folded) := by
  have hnumber : Option.Rel EndsFolded c.number c.folded.number := by
    rw [Cursor.number_folded]
    exact endsFolded_map _ _
  have hstring : Option.Rel EndsFolded c.quoted c.folded.quoted := by
    rw [Cursor.quoted_folded]
    exact endsFolded_map _ _
  have hconstant (k : Keyword) (value : Literal) :
      Option.Rel EndsFolded ((c.keyword k).map (value, ·))
        ((c.folded.keyword k).map (value, ·)) := by
    rw [Cursor.keyword_folded, Option.map_map]
    cases c.keyword k with
    | none => exact .none
    | some after => exact .some rfl
  exact rel_or
    (rel_or (rel_or (rel_or hnumber (rel_map hstring fun _ _ h => h)) (hconstant .True _))
    (hconstant .False _)) (hconstant .Nothing _)

end Grammar

namespace Pairing

open Cursor (folded foldedFound)

/-- A text and the folded one. -/
def folding : Pairing :=
  ⟨.folding, .same, fun c d => d = c.folded, fun _ => False, fun _ => False, True⟩

theorem folding_alive (x : Option Cursor) : Option.Rel folding.Alive x (x.map folded) :=
  rel_map_self (fun _ => ⟨rfl, fun h => h⟩) x

theorem folding_reads {α : Type} {s : Strength} {f : α → α} {g : Relabel → α → α}
    (hg : ∀ value, g .folding value = g .same (f value)) (x : Option (α × Cursor)) :
    folding.Reads s (folding.On g) x (x.map (foldedFound f)) :=
  rel_map_self (fun found => ⟨hg found.1, rfl, fun _ h => h⟩) x

end Pairing

open Pairing in
def Correspondence.folding : Correspondence where
  toPairing := Pairing.folding
  not_strict h := h.elim False.elim False.elim
  rest_of_lost h := h.elim
  past_of_reaches h := h.elim
  span_eq := by
    rintro c _ c' _ rfl rfl
    rfl
  shorter_iff := by
    rintro c _ c' _ ⟨rfl, _⟩ ⟨rfl, _⟩ _ _
    simp
  dot := rfl
  skipBlanks := by
    rintro c _ ⟨rfl, h⟩
    exact ⟨c.skipBlanks_folded, h⟩
  adjacent := by
    rintro c _ ⟨rfl, _⟩ char hc
    have hsign : ∀ char ∈ symbolChars, Cursor.IsSign char := List.all_iff_forall_prop.mp (by decide)
    rw [Cursor.adjacent_folded c (hsign char hc)]
    exact folding_alive _
  colon := by
    rintro c _ ⟨rfl, _⟩
    have hsign : Cursor.IsSign ':' := by decide
    rw [Cursor.adjacent_folded c hsign]
    exact .inr (folding_alive _)
  keyword := by
    rintro c _ ⟨rfl, _⟩ k _
    rw [Cursor.keyword_folded]
    exact folding_alive _
  peekKeyword := by
    rintro c _ ⟨rfl, _⟩
    rw [c.peekKeyword_folded]
  identifier := by
    rintro c _ ⟨rfl, _⟩
    rw [Cursor.identifier_folded]
    exact .inr (folding_reads (fun _ => (Relabel.text_same _).symm) _)
  opener _ _ _ _ h := h.elim fun _ h => h.2
  member := by
    rintro c _ ⟨rfl, _⟩
    rw [Cursor.member_folded]
    exact folding_reads (fun _ => (Relabel.text_same _).symm) _
  number := by
    rintro c _ ⟨rfl, _⟩
    rw [Cursor.number_folded]
    exact folding_reads (fun _ => rfl) _
  quoted := by
    rintro c _ ⟨rfl, _⟩
    rw [Cursor.quoted_folded]
    exact folding_reads (fun _ => (Relabel.text_same _).symm) _
  relation := by
    rintro c _ ⟨rfl, _⟩
    rw [Cursor.relation_folded]
    exact folding_reads (fun _ => rfl) _
  terminator := by
    rintro c _ ⟨rfl, _⟩
    rw [Cursor.terminator_folded]
    exact .inr (rel_mono (fun _ _ h => h.1) (folding_alive _))
  lineEnd := by
    rintro c _ ⟨rfl, h⟩
    rw [Cursor.lineEnd_folded]
    exact .inr (rel_getD (folding_alive _) ⟨rfl, h⟩).1
  blankLine := by
    rintro c _ ⟨rfl, _⟩
    rw [Cursor.blankLine_folded]
    exact .inr (rel_mono (fun _ _ h => h.1) (folding_alive _))
  comment := by
    rintro c _ ⟨rfl, _⟩
    rw [Grammar.comment_folded]
    exact .inr (rel_map_self (fun found => ⟨rfl, rfl, fun _ h => h⟩) _)
  literalText := by
    rintro c d c' d' v w ⟨h, _⟩ hc hd
    have h : d.skipBlanks = c.skipBlanks.folded := h
    have hliteral := Grammar.literal_folded c.skipBlanks
    rw [← h, hc, hd] at hliteral
    cases hliteral with
    | some hliteral =>
      have hliteral : d' = c'.folded := hliteral
      rw [h, hliteral, Cursor.textTo_folded]
      exact (Relabel.text_same _).symm
  nearMiss := by
    rintro c _ _ ⟨rfl, _⟩ k
    have hword := c.peekWord_folded
    generalize c.peekWord = x at hword ⊢
    generalize c.folded.peekWord = y at hword ⊢
    cases hword with
    | none => rfl
    | some hword =>
      obtain ⟨word, hchars, rfl, rfl⟩ := hword
      exact (isNearMiss_fold hchars k).symm
  reserved := by
    rintro c _ _ ⟨rfl, _⟩
    have hword := c.peekWord_folded
    generalize c.peekWord = x at hword ⊢
    generalize c.folded.peekWord = y at hword ⊢
    cases hword with
    | none => rfl
    | some hword =>
      obtain ⟨word, hchars, rfl, rfl⟩ := hword
      rw [Option.filter_some, Option.filter_some, isReservedWord_fold hchars]
      split
      · exact congrArg some ((Relabel.text_folding word).trans (Relabel.text_same _).symm)
      · rfl
  suggested := by
    rintro c _ _ ⟨rfl, _⟩
    exact (c.bind_peekWord_folded fun _ => suggestKeyword_fold).symm
  isFinished := by
    rintro c _ _ ⟨rfl, _⟩
    rw [Grammar.isFinished, Grammar.isFinished, Cursor.skipBlanks_folded, Cursor.isAtEnd_folded]

end VisualBasic
