import VisualBasic.Cursor.Comment
import VisualBasic.Cursor.Quoted
import VisualBasic.Proofs.Cursor.Place
import VisualBasic.Proofs.Cursor.Token
import VisualBasic.Scanner.Token

/-!
# What scanners find

Every scanner finds what the reader of the same token meets, and stops where that ends. Where there
is no token, the cursor is back at the place where the scanner started.
-/

set_option autoImplicit false

namespace VisualBasic

namespace Scanned

variable {α β : Type}

/-- The outcome of a scanner that passes over a token, if it is there. -/
def passed (token : Option Cursor) (c : Cursor) : Scanned Bool := ⟨token.isSome, token.getD c, []⟩

/-- The outcome of a scanner that takes the value of a token, if it is there. -/
def taken (found : Option (α × Cursor)) (c : Cursor) : Scanned (Option α) :=
  ⟨found.map Prod.fst, (found.map Prod.snd).getD c, []⟩

theorem passed_eq_true_iff {token : Option Cursor} {c d : Cursor} :
    passed token c = ⟨true, d, []⟩ ↔ token = some d := by
  cases token <;> simp [passed]

theorem taken_eq_some_iff {found : Option (α × Cursor)} {c d : Cursor} {value : α} :
    taken found c = ⟨some value, d, []⟩ ↔ found = some (value, d) := by
  cases found <;> simp [taken, Prod.ext_iff]

theorem taken_eq_none_iff {found : Option (α × Cursor)} {c : Cursor} :
    taken found c = ⟨none, c, []⟩ ↔ found = none := by
  cases found <;> simp [taken]

/-- An outcome after comments that were begun before. -/
def after (notes : List Nat) (last : Scanned α) : Scanned α :=
  ⟨last.value, last.cursor, notes ++ last.comments⟩

@[simp] theorem after_nil (last : Scanned α) : last.after [] = last := rfl

@[simp] theorem mk_andThen (value : α) (c : Cursor) (notes : List Nat)
    (next : α → Cursor → Scanned β) :
    (Scanned.mk value c notes).andThen next = (next value c).after notes := rfl

end Scanned

namespace Scanner

variable {α β σ : Type}

/-! ## Steps of a scanner -/

@[simp] theorem run_pure (value : α) (c : Cursor) :
    (pure value : Scanner α).run c = ⟨value, c, []⟩ := rfl

@[simp] theorem run_bind (m : Scanner α) (f : α → Scanner β) (c : Cursor) :
    (m >>= f).run c = (m.run c).andThen fun value d => (f value).run d := rfl

@[simp] theorem run_if (p : Prop) [Decidable p] (m m' : Scanner α) (c : Cursor) :
    (if p then m else m').run c = if p then m.run c else m'.run c := by
  split <;> rfl

@[simp] theorem run_place (c : Cursor) : place.run c = ⟨c, c, []⟩ := rfl

@[simp] theorem run_moveTo (start c : Cursor) : (moveTo start).run c = ⟨(), start, []⟩ := rfl

@[simp] theorem run_rest (c : Cursor) : rest.run c = ⟨c.rest, c, []⟩ := rfl

@[simp] theorem run_peekChar (c : Cursor) : peekChar.run c = ⟨c.rest.head?, c, []⟩ := rfl

@[simp] theorem run_isAtEnd (c : Cursor) : isAtEnd.run c = ⟨c.isAtEnd, c, []⟩ := rfl

@[simp] theorem run_isAfterBlank (c : Cursor) : isAfterBlank.run c = ⟨c.afterBlank, c, []⟩ := rfl

@[simp] theorem run_bump (c : Cursor) : bump.run c = ⟨(), c.next, []⟩ := rfl

@[simp] theorem run_advance (n : Nat) (c : Cursor) : (advance n).run c = ⟨(), c.skip n, []⟩ := rfl

@[simp] theorem run_noteComment (mark c : Cursor) :
    (noteComment mark).run c = ⟨(), c, [mark.offset]⟩ := rfl

/-- What has been passed over since a place is the text from there. -/
theorem run_passedSince {n : Nat} {c : Cursor} (h : n ≤ c.rest.length) :
    (passedSince c).run (c.skip n) = ⟨c.rest.take n, c.skip n, []⟩ := by
  simp only [passedSince, Cursor.rest_skip, List.length_drop, Nat.sub_sub_self h]

theorem loopFrom_of_done {turn : σ → Scanner (ForInStep σ)} {state last : σ} {c d : Cursor}
    {notes : List Nat}
    (h : (turn state).run c = ⟨.done last, d, notes⟩) :
    loopFrom turn state c = ⟨last, d, notes⟩ := by
  rw [loopFrom, h, Scanned.mk_andThen]
  simp [Scanned.after]

theorem loopFrom_of_yield {turn : σ → Scanner (ForInStep σ)} {state : σ} {c : Cursor} (next : σ)
    (d : Cursor) (h : (turn state).run c = ⟨.yield next, d, []⟩)
    (hlt : d.rest.length < c.rest.length) :
    loopFrom turn state c = loopFrom turn next d := by
  rw [loopFrom, h, Scanned.mk_andThen, Scanned.after_nil]
  exact if_pos hlt

theorem run_skipTurn (p : Char → Bool) (c : Cursor) :
    (skipTurn p ()).run c =
      if c.rest.head?.any p then ⟨.yield (), c.next, []⟩ else ⟨.done (), c, []⟩ := by
  simp only [skipTurn, run_bind, run_peekChar, Scanned.mk_andThen, Scanned.after_nil, run_if]
  split
  · rw [run_bump, Scanned.mk_andThen]
    rfl
  · rfl

@[simp] theorem run_skipWhile (p : Char → Bool) (c : Cursor) :
    (skipWhile p).run c = ⟨(), c.skip (c.rest.takeWhile p).length, []⟩ := by
  obtain ⟨n, hn⟩ : ∃ n, c.rest.length = n := ⟨_, rfl⟩
  induction n generalizing c with
  | zero =>
    have hrest : c.rest = [] := List.length_eq_zero_iff.mp hn
    apply loopFrom_of_done
    simp [run_skipTurn, hrest]
  | succ n ih =>
    obtain ⟨char, rest, hrest⟩ := List.exists_cons_of_length_eq_add_one hn
    by_cases hp : p char = true
    · have hnext : c.next.rest = rest := by
        rw [Cursor.rest_next, hrest, List.drop_one, List.tail_cons]
      have hlength : c.next.rest.length = n := by rw [hnext]; simpa [hrest] using hn
      have hturn : loopFrom _ () c.next = _ := ih c.next hlength
      change loopFrom _ () c = _
      rw [loopFrom_of_yield () c.next (by simp [run_skipTurn, hrest, hp]) (by omega), hturn]
      simp [hrest, hp]
    · apply loopFrom_of_done
      simp [run_skipTurn, hrest, hp]

/-! ## Blanks and line breaks -/

@[simp] theorem run_lineBreak (c : Cursor) : lineBreak.run c = .passed c.lineBreak c := by
  obtain ⟨offset, afterBlank, text⟩ := c
  simp only [lineBreak, Scanned.passed, Cursor.lineBreak, run_bind, run_rest, Scanned.mk_andThen,
    Scanned.after_nil]
  split
  · rfl
  · rfl
  · rename_i rest hpair
    have hwidth : breakWidth ('\r' :: rest) = 1 := by
      rw [breakWidth]
      exact hpair
    rw [hwidth]
    rfl
  · rename_i hpair hfeed hreturn
    have hwidth : breakWidth text = 0 := by
      unfold breakWidth
      split <;> simp_all
    rw [hwidth]
    rfl

theorem run_lineContinuation (c : Cursor) :
    lineContinuation.run c =
      if c.afterBlank && c.rest.head? = some '_' then
        .passed ((continuationWidth (c.rest.drop 1)).map fun n => c.skip (n + 1)) c
      else ⟨false, c, []⟩ := by
  by_cases h : (c.afterBlank && c.rest.head? = some '_') = true
  · have hbreak : (c.next.skip ((c.rest.drop 1).takeWhile isBlank).length).lineBreak =
        (continuationWidth (c.rest.drop 1)).map fun n => c.skip (n + 1) := by
      rw [Cursor.lineBreak, continuationWidth, Cursor.rest_skip, Cursor.rest_next]
      cases breakWidth ((c.rest.drop 1).drop ((c.rest.drop 1).takeWhile isBlank).length) with
      | zero => rfl
      | succ n => simp [Cursor.skip_add]
    simp only [lineContinuation, run_bind, run_rest, run_isAfterBlank, run_place,
      run_if, h, if_true, run_bump, run_skipWhile, run_lineBreak, Scanned.mk_andThen,
      Scanned.after_nil, Scanned.passed,
      Cursor.rest_next, hbreak]
    cases continuationWidth (c.rest.drop 1) <;> rfl
  · simp only [lineContinuation, run_bind, run_rest, run_isAfterBlank, run_if, if_neg h,
      Scanned.mk_andThen, Scanned.after_nil, run_pure]

theorem run_blanksTurn (c : Cursor) :
    (blanksTurn ()).run c =
      (lineContinuation.run (c.skip (c.rest.takeWhile isBlank).length)).andThen fun isMet d =>
        ⟨if isMet then .yield () else .done (), d, []⟩ := by
  simp only [blanksTurn, run_bind, run_skipWhile, Scanned.mk_andThen, Scanned.after_nil]
  congr 1
  funext isMet d
  cases isMet <;> rfl

@[simp] theorem run_skipBlanks (c : Cursor) : skipBlanks.run c = ⟨(), c.skipBlanks, []⟩ := by
  obtain ⟨n, hn⟩ : ∃ n, c.rest.length = n := ⟨_, rfl⟩
  induction n using Nat.strongRecOn generalizing c with
  | ind n ih =>
    change loopFrom _ () c = _
    have hle : (c.skip (c.rest.takeWhile isBlank).length).rest.length ≤ n := by
      rw [Cursor.rest_skip, List.length_drop]
      omega
    have hhead : (c.skip (c.rest.takeWhile isBlank).length).rest.head?.any isBlank = false := by
      rw [Cursor.rest_skip, drop_length_takeWhile]
      exact any_head?_dropWhile isBlank c.rest
    have hturn := run_lineContinuation (c.skip (c.rest.takeWhile isBlank).length)
    rw [← Cursor.skipBlanks_skip_blanks]
    generalize hd : c.skip (c.rest.takeWhile isBlank).length = d at hle hhead hturn ⊢
    by_cases hmark : (d.afterBlank && d.rest.head? = some '_') = true
    · obtain ⟨hafter, hmark'⟩ : d.afterBlank = true ∧ d.rest.head? = some '_' := by
        simpa using hmark
      obtain ⟨rest, hrest⟩ := List.head?_eq_some_iff.mp hmark'
      rw [if_pos hmark, hrest, List.drop_one, List.tail_cons] at hturn
      cases hwidth : continuationWidth rest with
      | none =>
        have hstay : d.skipBlanks = d := d.skipBlanks_eq_self hrest rfl fun _ => hwidth
        apply loopFrom_of_done
        simp [run_blanksTurn, hd, hturn, hwidth, hstay, Scanned.passed]
      | some n =>
        have hlt : (d.skip (n + 1)).rest.length < c.rest.length := by
          simp [hrest] at hle ⊢
          omega
        rw [Cursor.skipBlanks_of_continuation hrest hafter hwidth,
          loopFrom_of_yield () (d.skip (n + 1)) ?_ hlt]
        · exact ih _ (by omega) _ rfl
        · simp [run_blanksTurn, hd, hturn, hwidth, Scanned.passed]
    · have hstay : d.skipBlanks = d := by
        cases hrest : d.rest with
        | nil => exact Cursor.skipBlanks_of_nil hrest
        | cons char rest =>
          have hchar : isBlank char = false := by simpa [hrest] using hhead
          rw [Cursor.skipBlanks, hrest, blankWidth_cons_eq_zero hchar, Cursor.skip_zero]
          intro hafter hunderscore
          simp [hafter, hrest, hunderscore] at hmark
      apply loopFrom_of_done
      rw [run_blanksTurn, hd, hturn, if_neg hmark, hstay]
      rfl

@[simp] theorem run_blankLine (c : Cursor) : blankLine.run c = .passed c.blankLine c := by
  simp only [blankLine, Scanned.passed, Cursor.blankLine, run_bind, run_place,
    run_skipWhile, run_lineBreak, Scanned.mk_andThen, Scanned.after_nil]
  cases (c.skip (c.rest.takeWhile isBlank).length).lineBreak <;> rfl

/-! ## Symbols, words and strings -/

@[simp] theorem run_symbol (char : Char) (c : Cursor) :
    (symbol char).run c = .passed (c.symbol char) c := by
  by_cases h : c.skipBlanks.rest.head? = some char <;>
    simp [symbol, Scanned.passed, Cursor.symbol, Cursor.adjacent, h]

@[simp] theorem run_adjacent (char : Char) (c : Cursor) :
    (adjacent char).run c = .passed (c.adjacent char) c := by
  by_cases h : c.rest.head? = some char <;> simp [adjacent, Scanned.passed, Cursor.adjacent, h]

@[simp] theorem run_exactly (text : List Char) (c : Cursor) :
    (exactly text).run c = .passed (c.exactly text) c := by
  by_cases h : text <+: c.skipBlanks.rest <;> simp [exactly, Scanned.passed, Cursor.exactly, h]

@[simp] theorem run_keyword (k : Keyword) (c : Cursor) :
    (keyword k).run c = .passed (c.keyword k) c := by
  simp only [keyword, Scanned.passed, Cursor.keyword, Cursor.isAtWordChar,
    Cursor.rest_skip, run_bind, run_place, run_skipBlanks, run_rest, Scanned.mk_andThen,
    Scanned.after_nil, run_if]
  split <;> simp

@[simp] theorem run_peekKeyword (k : Keyword) (c : Cursor) :
    (peekKeyword k).run c = ⟨(c.keyword k).isSome, c, []⟩ := by
  simp [peekKeyword, Scanned.passed]

@[simp] theorem run_word (c : Cursor) : word.run c = .taken c.word c := by
  simp only [word, Cursor.word, run_bind, run_place, run_skipBlanks, run_peekChar,
    run_if, run_moveTo, run_pure, Scanned.mk_andThen, Scanned.after_nil]
  by_cases h : c.skipBlanks.rest.head?.any isWordStart = true
  · obtain ⟨char, rest, hrest, hstart⟩ : ∃ char rest, c.skipBlanks.rest = char :: rest ∧
      isWordStart char = true := by
      cases hrest : c.skipBlanks.rest with
      | nil => simp [hrest] at h
      | cons char rest => exact ⟨char, rest, rfl, by simpa [hrest] using h⟩
    have hchar : isWordChar char = true := isWordChar_of_isWordStart hstart
    have hwidth : (c.skipBlanks.rest.takeWhile isWordChar).length =
        (rest.takeWhile isWordChar).length + 1 := by
      rw [hrest, List.takeWhile_cons_of_pos hchar, List.length_cons]
    have hend : c.skipBlanks.next.skip (c.skipBlanks.next.rest.takeWhile isWordChar).length =
        c.skipBlanks.skip (c.skipBlanks.rest.takeWhile isWordChar).length := by
      rw [Cursor.rest_next, hwidth, Cursor.skip_succ, hrest, List.drop_one, List.tail_cons]
    have hpassed := run_passedSince (c := c.skipBlanks) (List.takeWhile_prefix isWordChar).length_le
    simp only [h, if_true, run_bump, run_skipWhile, Scanned.mk_andThen,
      Scanned.after_nil, hend, hpassed, take_length_takeWhile]
    rfl
  · simp only [h, Bool.false_eq_true, if_false]
    rfl

@[simp] theorem run_peekWord (c : Cursor) : peekWord.run c = ⟨c.peekWord, c, []⟩ := by
  simp [peekWord, Scanned.taken, Cursor.peekWord]

@[simp] theorem run_identifier (c : Cursor) : identifier.run c = .taken c.identifier c := by
  simp only [identifier, Scanned.taken, Cursor.identifier, run_bind, run_place, run_word,
    Scanned.mk_andThen, Scanned.after_nil]
  cases c.word with
  | none => rfl
  | some found =>
    by_cases h : isReservedWord found.1 = true <;> simp [Option.filter, h]

/-- Turn by turn a string is read up to its closing quote, or it has none. -/
theorem loopFrom_quotedTurn (value : List Char) (c : Cursor) :
    match quotedBody c.rest with
    | some (body, n) => loopFrom quotedTurn (value, false) c = ⟨(value ++ body, true), c.skip n, []⟩
    | none => ∃ text d, loopFrom quotedTurn (value, false) c = ⟨(text, false), d, []⟩ := by
  generalize hrest : c.rest = text
  fun_induction quotedBody text generalizing c value with
  | case1 => exact ⟨value, c, loopFrom_of_done (by simp [quotedTurn, hrest])⟩
  | case2 rest ih =>
    have hnext : (c.skip 2).rest = rest := by rw [Cursor.rest_skip, hrest]; rfl
    have hstep : loopFrom quotedTurn (value, false) c = loopFrom quotedTurn (value ++ ['"'], false)
        (c.skip 2) := by
      apply loopFrom_of_yield
      · simp [quotedTurn, hrest]
      · simp only [hnext, hrest, List.length_cons]
        omega
    have hlast := ih (value ++ ['"']) (c.skip 2) hnext
    rw [hstep]
    cases hbody : quotedBody rest with
    | none => rwa [hbody] at hlast
    | some found =>
      simp only [hbody] at hlast
      simp only [Option.map_some, hlast, List.append_assoc, List.singleton_append,
        Nat.add_comm found.2 2, Cursor.skip_add]
  | case3 rest hpair =>
    have hsecond : rest.head? ≠ some '"' := by
      intro h
      obtain ⟨tail, rfl⟩ := List.head?_eq_some_iff.mp h
      exact hpair tail rfl
    apply loopFrom_of_done
    simp [quotedTurn, hrest, hsecond]
  | case4 first rest hpair hquote hbreak =>
    refine ⟨value, c, loopFrom_of_done ?_⟩
    simp only [isBreak, Bool.or_eq_true, decide_eq_true_eq] at hbreak
    rcases hbreak with rfl | rfl <;> simp [quotedTurn, hrest]
  | case5 first rest hpair hquote hbreak ih =>
    have hnext : c.next.rest = rest := by rw [Cursor.rest_next, hrest]; rfl
    have hstep : loopFrom quotedTurn (value, false) c =
        loopFrom quotedTurn (value ++ [first], false) c.next := by
      apply loopFrom_of_yield
      · simp only [isBreak, Bool.or_eq_true, decide_eq_true_eq, not_or] at hbreak
        simp only [quotedTurn, run_bind, run_peekChar, hrest, List.head?_cons, Scanned.mk_andThen,
          Scanned.after_nil]
        split <;> simp_all
      · simp [hrest]
    have hlast := ih (value ++ [first]) c.next hnext
    rw [hstep]
    cases hbody : quotedBody rest with
    | none => rwa [hbody] at hlast
    | some found =>
      simp only [hbody] at hlast
      simp only [Option.map_some, hlast, List.append_assoc, List.singleton_append, Cursor.skip_succ]

@[simp] theorem run_quoted (c : Cursor) : quoted.run c = .taken c.quoted c := by
  by_cases h : c.skipBlanks.rest.head? = some '"'
  · obtain ⟨body, hrest⟩ := List.head?_eq_some_iff.mp h
    have hnext : c.skipBlanks.next.rest = body := by rw [Cursor.rest_next, hrest]; rfl
    have hbody := loopFrom_quotedTurn [] c.skipBlanks.next
    rw [hnext] at hbody
    simp only [quoted, Cursor.quoted, hrest, run_bind, run_place, run_skipBlanks, run_peekChar,
      run_if, run_bump, Scanned.mk_andThen, Scanned.after_nil, List.head?_cons, ne_eq,
      not_true_eq_false, if_false, loop]
    cases hfound : quotedBody body with
    | none =>
      rw [hfound] at hbody
      obtain ⟨text, d, hbody⟩ := hbody
      simp [hbody, Scanned.taken]
    | some found =>
      simp only [hfound] at hbody
      simp [hbody, Scanned.taken]
  · simp only [quoted, Cursor.quoted, run_bind, run_place, run_skipBlanks, run_peekChar,
      run_if, run_moveTo, run_pure, Scanned.mk_andThen, Scanned.after_nil, ne_eq, h,
      not_false_eq_true, if_true]
    split
    · rename_i hrest
      simp [hrest] at h
    · rfl

/-! ## Comments and the ends of statements -/

/-- The offset of the comment that is the next token. -/
def commentOffsets (c : Cursor) : List Nat := if c.comment.isSome then [c.skipBlanks.offset] else []

theorem comment_skipBlanks (c : Cursor) : c.skipBlanks.comment = c.comment := by
  simp only [Cursor.comment, Cursor.commentMark, Cursor.skipBlanks_skipBlanks]

theorem commentOffsets_skipBlanks (c : Cursor) :
    commentOffsets c.skipBlanks = commentOffsets c := by
  rw [commentOffsets, comment_skipBlanks, Cursor.skipBlanks_skipBlanks, commentOffsets]

theorem run_commentMark (c : Cursor) :
    commentMark.run c.skipBlanks = .passed c.commentMark c.skipBlanks := by
  simp only [commentMark, Cursor.commentMark, Cursor.adjacent, run_bind, run_peekChar,
    Scanned.mk_andThen, Scanned.after_nil, run_if, run_keyword]
  split
  · rfl
  · rw [Option.none_or]

@[simp] theorem run_comment (c : Cursor) :
    comment.run c = (Scanned.taken c.comment c).after (commentOffsets c) := by
  have hmark := run_commentMark c
  cases hfound : c.commentMark with
  | none =>
    rw [hfound] at hmark
    have hnone : c.comment = none := by rw [Cursor.comment, hfound, Option.map_none]
    simp [comment, commentOffsets, hmark, hnone, Scanned.passed, Scanned.taken]
  | some body =>
    rw [hfound] at hmark
    have hpassed := run_passedSince (c := body) (List.takeWhile_prefix (! isBreak ·)).length_le
    have htext : body.textTo body.toLineEnd =
        String.ofList (body.rest.takeWhile (! isBreak ·)) := by
      rw [Cursor.textTo, Cursor.toLineEnd, Cursor.rest_skip, List.length_drop,
        Nat.sub_sub_self (List.takeWhile_prefix _).length_le, take_length_takeWhile]
    have hsome : c.comment =
        some (String.ofList (body.rest.takeWhile (! isBreak ·)), body.toLineEnd) := by
      rw [Cursor.comment, hfound, Option.map_some, htext]
    simp [comment, commentOffsets, hmark, hsome, hpassed, Scanned.passed, Scanned.taken,
      Cursor.toLineEnd, Scanned.after]

@[simp] theorem run_lineEnd (c : Cursor) :
    lineEnd.run c = (Scanned.passed c.lineEnd c).after (commentOffsets c) := by
  have hcomment := run_comment c.skipBlanks
  rw [commentOffsets_skipBlanks, Scanned.taken] at hcomment
  simp only [lineEnd, Cursor.lineEnd, run_bind, run_place, run_skipBlanks, hcomment,
    Scanned.mk_andThen, Scanned.after_nil]
  generalize ((c.skipBlanks.comment.map Prod.snd).getD c.skipBlanks) = d
  cases hbreak : d.lineBreak with
  | some e => simp [Scanned.passed, Cursor.breakOrEnd, Scanned.after, hbreak]
  | none =>
    by_cases hend : d.isAtEnd = true <;>
      simp [Scanned.passed, Cursor.breakOrEnd, Scanned.after, hbreak, hend]

@[simp] theorem run_terminator (c : Cursor) :
    terminator.run c =
      (Scanned.passed c.terminator c).after (if (c.symbol ':').isSome then []
      else commentOffsets c) := by
  simp only [terminator, Cursor.terminator, run_bind, run_symbol, Scanned.passed,
    Scanned.mk_andThen, Scanned.after_nil, run_if, run_lineEnd]
  cases c.symbol ':' <;> rfl

/-! ## Operators -/

@[simp] theorem run_peekOperator (c : Cursor) : peekOperator.run c = ⟨c.peekOperator, c, []⟩ := by
  simp only [peekOperator, Cursor.peekOperator, run_bind, run_place, run_skipBlanks,
    run_rest, run_peekWord, run_moveTo, run_pure, Scanned.mk_andThen, Scanned.after_nil]
  cases Operator.symbols.find? fun entry => entry.1.toList.isPrefixOf c.skipBlanks.rest <;> rfl

@[simp] theorem run_relation (c : Cursor) : relation.run c = .taken c.relation c := by
  simp only [relation, Cursor.relation]
  induction Operator.symbols with
  | nil => rfl
  | cons entry rest ih =>
    rw [firstRelation, List.findSome?_cons]
    cases entry.2.relation? with
    | none => exact ih
    | some relation =>
      simp only [run_bind, run_exactly, Scanned.passed, Scanned.mk_andThen,
        Scanned.after_nil, run_if]
      cases c.exactly entry.1.toList with
      | none => exact ih
      | some after => rfl

end Scanner

end VisualBasic
