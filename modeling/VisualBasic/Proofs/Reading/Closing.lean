import VisualBasic.Proofs.Correspondence.Alignment
import VisualBasic.Proofs.Gap.Frame
import VisualBasic.Proofs.Reading.Procedure
import VisualBasic.Proofs.Text.Zone

/-!
# Arguments without their parentheses

A text of arguments is read with a closing parenthesis after it and without one. Its expressions are
the same either way, but for a call that lacks its parenthesis: with it the call ends the text, and
then the arguments around it are not closed. So the arguments in a pair of parentheses are also a
list of expressions.
-/

set_option autoImplicit false

namespace VisualBasic

/-! ## Blanks and strings before a parenthesis -/

section Ink

variable {char : Char} (hink : isInk char = true)
include hink

theorem continuationWidth_append_ink (text tail : List Char) :
    continuationWidth (text ++ char :: tail) = continuationWidth text := by
  have hblank : (char :: tail).head?.any isBlank = false := by simp [isBlank_eq_false_of_isInk hink]
  have hwidth (text : List Char) : breakWidth (text ++ char :: tail) = breakWidth text := by
    have hbreak := isBreak_eq_false_of_isInk hink
    cases text with
    | nil => exact breakWidth_eq_zero hbreak tail
    | cons first rest =>
      refine breakWidth_append (by simp) fun hhead => ?_
      obtain rfl : char = '\n' := by simpa using hhead
      contradiction
  simp only [continuationWidth, takeWhile_append_of_any hblank, drop_takeWhile_append, hwidth]

theorem blankWidth_append_ink (hunder : char ≠ '_') (flag : Bool) (text tail : List Char) :
    blankWidth flag (text ++ char :: tail) = blankWidth flag text := by
  fun_induction blankWidth flag text with
  | case1 =>
    exact blankWidth_cons_eq_zero (isBlank_eq_false_of_isInk hink) fun _ h => absurd h hunder
  | case2 flag c rest hc ih => rw [List.cons_append, blankWidth, if_pos hc, ih]
  | case3 flag c rest hc hu n hn ih =>
    have hle : n ≤ rest.length := by
      have hwidth := blankWidth_le true ('_' :: rest)
      rw [blankWidth_continuation hn, List.length_cons] at hwidth
      omega
    rw [List.cons_append, blankWidth, if_neg hc, if_pos hu, continuationWidth_append_ink hink, hn]
    dsimp only
    rw [List.drop_append_of_le_length hle, ih]
  | case4 flag c rest hc hu hn =>
    rw [List.cons_append, blankWidth, if_neg hc, if_pos hu, continuationWidth_append_ink hink, hn]
  | case5 flag c rest hc hu => rw [List.cons_append, blankWidth, if_neg hc, if_neg hu]

end Ink

theorem quotedBody_append_of_none {more : List Char} (hmore : quotedBody more = none)
    (hhead : more.head? ≠ some '"') (text : List Char) :
    quotedBody (text ++ more) = quotedBody text := by
  fun_induction quotedBody text with
  | case1 => exact hmore
  | case2 rest ih => rw [List.cons_append, List.cons_append, quotedBody, ih]
  | case3 rest hquote =>
    refine quotedBody_quote ?_
    cases rest with
    | nil => exact hhead
    | cons char rest =>
      intro hchar
      obtain rfl : char = '"' := by simpa using hchar
      exact hquote rest rfl
  | case4 char rest _ _ hbreak => rw [List.cons_append, quotedBody_break hbreak]
  | case5 char rest _ hquote hbreak ih => rw [List.cons_append, quotedBody_cons hquote hbreak, ih]

namespace Cursor

variable {c d : Cursor}

/-- The same place in a text that a closing parenthesis ends. -/
abbrev close (c : Cursor) : Cursor := c.extend [')']

abbrev closeFound {α : Type} (found : α × Cursor) : α × Cursor := extendFound [')'] found

theorem skipBlanks_close (c : Cursor) : c.close.skipBlanks = c.skipBlanks.close := by
  rw [skipBlanks, skipBlanks, afterBlank_extend, rest_extend,
    blankWidth_append_ink (by decide) (by decide), skip_extend (blankWidth_le _ _)]

theorem identifier_close (c : Cursor) : c.close.identifier = c.identifier.map closeFound :=
  identifier_extend c.skipBlanks_close rfl

theorem adjacent_close {char : Char} (hchar : char ≠ ')') (c : Cursor) :
    c.close.adjacent char = (c.adjacent char).map close :=
  adjacent_extend (by simpa using hchar.symm)

theorem symbol_close {char : Char} (hchar : char ≠ ')') (c : Cursor) :
    c.close.symbol char = (c.symbol char).map close := by
  rw [symbol, skipBlanks_close, adjacent_close hchar, symbol]

/-- A parenthesis that the text holds is met, and if there is none, the one after the text. -/
theorem symbol_close_paren (c : Cursor) :
    c.close.symbol ')' = (c.symbol ')').map close ∨
      c.skipBlanks.rest = [] ∧ ∃ d, c.close.symbol ')' = some d ∧ d.rest = [] := by
  rw [symbol, skipBlanks_close, symbol, adjacent, adjacent, rest_extend]
  cases hrest : c.skipBlanks.rest with
  | nil => exact .inr ⟨rfl, _, rfl, by simp [hrest]⟩
  | cons char rest =>
    left
    rw [List.cons_append, List.head?_cons, List.head?_cons, next_extend (by simp [hrest])]
    split <;> rfl

theorem keyword_close (k : Keyword) (c : Cursor) : c.close.keyword k = (c.keyword k).map close := by
  have hends : BreaksOff [')'] := .cons rfl (by decide) []
  have hspells : spells k (c.skipBlanks.rest ++ [')']) = spells k c.skipBlanks.rest := by
    rw [spells, spells, firstWord, hends.firstWord_append, firstWord]
  rw [keyword_eq, keyword_eq, skipBlanks_close, rest_extend, hspells]
  split
  · rename_i hword
    rw [skip_extend (length_letters_le hword), Option.map_some]
  · rfl

theorem number_close (c : Cursor) : c.close.number = c.number.map closeFound := by
  have hends : BreaksOff [')'] := .cons rfl (by decide) []
  simp only [number, skipBlanks_close, rest_extend, hends.readNumber_append]
  cases hnumber : readNumber c.skipBlanks.rest with
  | none => rfl
  | some found =>
    have hword : ((c.skipBlanks.skip found.2).extend [')']).isAtWordChar =
        (c.skipBlanks.skip found.2).isAtWordChar := by
      unfold isAtWordChar
      rw [rest_extend]
      cases (c.skipBlanks.skip found.2).rest <;> rfl
    simp only [Option.bind_some, skip_extend (length_le_of_readNumber hnumber), hword]
    split <;> rfl

theorem quoted_close (c : Cursor) : c.close.quoted = c.quoted.map closeFound := by
  unfold quoted
  simp only [skipBlanks_close, rest_extend]
  cases hrest : c.skipBlanks.rest with
  | nil => rfl
  | cons char body =>
    by_cases hchar : char = '"'
    · subst hchar
      have hclose : quotedBody (body ++ [')']) = quotedBody body :=
        quotedBody_append_of_none (by rfl) (by decide) body
      simp only [List.cons_append, hclose, Option.map_map]
      cases hbody : quotedBody body with
      | none => rfl
      | some found =>
        have hle := Nat.le_trans (length_le_of_quotedBody hbody) (List.takeWhile_prefix _).length_le
        have hlength : found.2 + 1 ≤ c.skipBlanks.rest.length := by
          rw [hrest, List.length_cons]
          omega
        simp only [Option.map_some, Function.comp_apply, skip_extend hlength, extendFound]
    · simp [hchar]

theorem symbol_eq_none_of_nil (h : c.rest = []) (char : Char) : c.symbol char = none := by
  rw [symbol, skipBlanks_of_nil h, adjacent, h]
  rfl

/-- Of two symbols only one comes next. -/
theorem symbol_eq_none_of_symbol {char other : Char} (h : (c.symbol char).isSome)
    (hne : char ≠ other) : c.symbol other = none := by
  obtain ⟨d, hd⟩ := Option.isSome_iff_exists.mp h
  rw [symbol, adjacent, (adjacent_eq_some_iff.mp hd).1, if_neg (by simpa using hne)]

end Cursor

namespace Grammar

open Parse
open Cursor (close closeFound)

theorem literal_close (c : Cursor) : literal c.close = (literal c).map closeFound := by
  simp only [literal, Cursor.number_close, Cursor.quoted_close, Cursor.keyword_close, Option.map_or,
    Option.map_map]
  rfl

/-! ## Expressions before a parenthesis -/

/-- Read alike with the parenthesis and without it, or only with it, which then ends the text. -/
inductive Closes {α : Type} : Option (α × Cursor) → Option (α × Cursor) → Prop
  | alike (found : Option (α × Cursor)) : Closes (found.map closeFound) found
  | ended {value : α} {d : Cursor} (h : d.rest = []) : Closes (some (value, d)) none

/-- Read alike, or up to the end of the text with the parenthesis; without it there may be the name
of a call that is not closed. -/
inductive Encloses : Option (Expression × Cursor) → Option (Expression × Cursor) → Prop
  | alike (found : Option (Expression × Cursor)) : Encloses (found.map closeFound) found
  | ended {value : Expression} {d : Cursor} {found : Option (Expression × Cursor)} (h : d.rest = [])
    (opened : ∀ other, found = some other → (other.2.symbol '(').isSome) :
    Encloses (some (value, d)) found

theorem Closes.map {α β : Type} {x y : Option (α × Cursor)} (h : Closes x y) (f : α → β) :
    Closes (x.map fun found => (f found.1, found.2)) (y.map fun found => (f found.1, found.2)) := by
  cases h with
  | alike =>
    cases y with
    | none => exact .alike none
    | some found => exact .alike (some (f found.1, found.2))
  | ended h => exact .ended h

theorem toOption_map {ε α β : Type} (f : α → β) (x : Except ε α) :
    (x.map f).toOption = x.toOption.map f := by
  cases x <;> rfl

section Knot

variable {r r' : Reader Expression} (he : ∀ d, Encloses (r' d.close) (r d))
include he

theorem moreArguments_closes (c : Cursor) :
    Closes (moreArguments r' c.close).toOption (moreArguments r c).toOption := by
  induction hn : c.rest.length using Nat.strongRecOn generalizing c with
  | _ n ih =>
    rw [moreArguments, moreArguments]
    have hfirst := he c
    generalize r' c.close = x at hfirst ⊢
    generalize r c = y at hfirst ⊢
    cases hfirst with
    | ended hend opened =>
      simp only [Cursor.symbol_eq_none_of_nil hend]
      cases y with
      | none => exact .alike none
      | some other =>
        have hopen := opened other rfl
        simp only [Cursor.symbol_eq_none_of_symbol hopen (show '(' ≠ ')' by decide),
          Cursor.symbol_eq_none_of_symbol hopen (show '(' ≠ ',' by decide)]
        exact .alike none
    | alike =>
      cases y with
      | none => exact .alike none
      | some found =>
        obtain ⟨value, d⟩ := found
        simp only [Option.map_some, Cursor.extendFound]
        rcases d.symbol_close_paren with hclose | ⟨hnil, after, hclose, hafter⟩
        · rw [hclose]
          cases d.symbol ')' with
          | some closed => exact .alike (some ([value], closed))
          | none =>
            simp only [Option.map_none, Cursor.symbol_close (show ',' ≠ ')' by decide)]
            cases d.symbol ',' with
            | none => exact .alike none
            | some next =>
              simp only [Option.map_some, Cursor.rest_extend, List.length_append,
                Nat.add_lt_add_iff_right]
              split
              · rename_i hlt
                rw [toOption_map, toOption_map]
                exact (ih _ (hn ▸ hlt) next rfl).map (value :: ·)
              · exact .alike none
        · have hshut : d.symbol ')' = none := by
            rw [Cursor.symbol, Cursor.adjacent, hnil]
            rfl
          have hcomma : d.symbol ',' = none := by
            rw [Cursor.symbol, Cursor.adjacent, hnil]
            rfl
          simp only [hclose, hshut, hcomma]
          exact .ended hafter

variable (hnil : ∀ d, d.skipBlanks.rest = [] → r d = none)
include hnil

theorem arguments_closes (c : Cursor) :
    Closes (arguments r' c.close).toOption (arguments r c).toOption := by
  unfold arguments
  rcases c.symbol_close_paren with hclose | ⟨hend, after, hclose, hafter⟩
  · rw [hclose]
    cases c.symbol ')' with
    | some closed => exact .alike (some ([], closed))
    | none => exact moreArguments_closes he c
  · have hshut : c.symbol ')' = none := by
      rw [Cursor.symbol, Cursor.adjacent, hend]
      rfl
    rw [hclose, hshut]
    dsimp only
    rw [moreArguments, hnil c hend]
    exact .ended hafter

theorem call_closes (c : Cursor) : Closes (call r' c.close) (call r c) := by
  simp only [call, Cursor.skipBlanks_close, Cursor.identifier_close]
  cases c.skipBlanks.identifier with
  | none => exact .alike none
  | some found =>
    simp only [Option.map_some, Cursor.extendFound, Option.bind_eq_bind, Option.bind_some,
      Cursor.symbol_close (show '(' ≠ ')' by decide)]
    cases found.2.symbol '(' with
    | none => exact .alike none
    | some inner =>
      have harguments := arguments_closes he hnil inner
      simp only [Option.map_some, Option.bind_some]
      generalize (arguments r' inner.close).toOption = x at harguments ⊢
      generalize (arguments r inner).toOption = y at harguments ⊢
      cases harguments with
      | ended hend => exact .ended hend
      | alike =>
        cases y with
        | none => exact .alike none
        | some values =>
          exact .alike (some (Call.mk found.1 values.1 (c.skipBlanks.spanTo values.2), values.2))

omit he hnil in
/-- A name before an opening parenthesis. -/
theorem opened_of_call {c : Cursor} {found : Call × Cursor} (h : call r' c.close = some found) :
    ∃ name e, c.identifier = some (name, e) ∧ (e.symbol '(').isSome := by
  simp only [call, Cursor.skipBlanks_close, Cursor.identifier_close, Option.bind_eq_bind,
    Option.bind_eq_some_iff, Cursor.identifier_skipBlanks] at h
  obtain ⟨_, hname, after, hopen, _⟩ := h
  obtain ⟨⟨name, e⟩, hfirst, rfl⟩ := Option.map_eq_some_iff.mp hname
  obtain ⟨inner, hinner, _⟩ :=
    Option.map_eq_some_iff.mp ((Cursor.symbol_close (by decide) e).symm.trans hopen)
  exact ⟨name, e, hfirst, by rw [hinner]; rfl⟩

omit he hnil in
theorem segment_eq_none_of_opened {c e : Cursor} {name : String} (hcall : call r c = none)
    (hname : c.identifier = some (name, e)) (hopen : (e.symbol '(').isSome) :
    segment r c = none := by
  have hdot : e.adjacent '.' = none := by
    rw [Option.eq_none_iff_forall_ne_some]
    intro f hf
    rw [symbol_eq_none_of_adjacent hf (by decide) (by decide) (by decide)] at hopen
    contradiction
  simp [segment, hcall, hname, hdot]

/-- A segment needs a dot after it. -/
theorem segment_close (c : Cursor) : segment r' c.close = (segment r c).map closeFound := by
  have hcall := call_closes he hnil c
  generalize hleft : call r' c.close = x at hcall
  generalize hright : call r c = y at hcall
  cases hcall with
  | ended hend =>
    obtain ⟨name, e, hname, hopen⟩ := opened_of_call hleft
    rw [segment_eq_none_of_opened hright hname hopen]
    simp [segment, hleft, Cursor.adjacent, hend]
  | alike =>
    simp only [segment, hleft, hright, Cursor.identifier_close]
    cases y with
    | some found =>
      simp only [Option.map_some, Option.some_or, Option.bind_eq_bind, Option.bind_some,
        Cursor.extendFound, Cursor.adjacent_close (show '.' ≠ ')' by decide)]
      cases found.2.adjacent '.' <;> rfl
    | none =>
      cases c.identifier with
      | none => rfl
      | some found =>
        simp only [Option.map_some, Option.map_none, Option.none_or, Option.bind_eq_bind,
          Option.bind_some, Cursor.extendFound, Cursor.adjacent_close (show '.' ≠ ')' by decide)]
        cases found.2.adjacent '.' <;> rfl

theorem segments_close (c : Cursor) :
    segments r' c.close = ((segments r c).1, (segments r c).2.close) := by
  induction hn : c.rest.length using Nat.strongRecOn generalizing c with
  | _ n ih =>
    rw [segments, segments, segment_close he hnil]
    cases segment r c with
    | none => rfl
    | some found =>
      simp only [Option.map_some, Cursor.extendFound, Cursor.rest_extend, List.length_append,
        Nat.add_lt_add_iff_right]
      split
      · rename_i hlt
        rw [ih _ (hn ▸ hlt) found.2 rfl]
      · rfl

theorem qualifier_close (c : Cursor) :
    qualifier r' c.close = ((qualifier r c).1, (qualifier r c).2.close) := by
  have hdot : c.skipBlanks.close.adjacent '.' = (c.skipBlanks.adjacent '.').map close :=
    Cursor.adjacent_close (by decide) _
  have hsegments : segments r' ((c.skipBlanks.close.adjacent '.').getD c.skipBlanks.close) =
      ((segments r ((c.skipBlanks.adjacent '.').getD c.skipBlanks)).1,
        (segments r ((c.skipBlanks.adjacent '.').getD c.skipBlanks)).2.close) := by
    rw [hdot]
    cases c.skipBlanks.adjacent '.' <;> exact segments_close he hnil _
  simp only [qualifier, Cursor.skipBlanks_close, hsegments]
  simp only [hdot, Option.isNone_map, Option.isSome_map]
  split <;> rfl

theorem reference_close (c : Cursor) : reference r' c.close = (reference r c).map closeFound := by
  simp only [reference, Cursor.skipBlanks_close, qualifier_close he hnil, Cursor.identifier_close]
  cases (qualifier r c.skipBlanks).2.identifier <;> rfl

omit he hnil in
/-- The name of a call that is not closed is a reference. -/
theorem reference_of_opened {c e f : Cursor} {name : String} {target : Reference}
    (hcall : call r c.skipBlanks = none) (hname : c.identifier = some (name, e))
    (hopen : (e.symbol '(').isSome) (h : reference r c = some (target, f)) : f = e := by
  have hstart : c.skipBlanks.identifier = some (name, e) := by
    rw [Cursor.identifier_skipBlanks, hname]
  have hdot : c.skipBlanks.adjacent '.' = none :=
    Cursor.adjacent_eq_none_of_word (Cursor.identifier_eq_some_iff.mp hname).1 rfl
  have hsegments : segments r c.skipBlanks = ([], c.skipBlanks) := by
    rw [segments, segment_eq_none_of_opened hcall hstart hopen]
  simp only [reference, qualifier, Cursor.skipBlanks_skipBlanks, hdot, Option.getD_none, hsegments,
    Option.isNone_none, List.isEmpty_nil, Bool.and_self, if_true, hstart] at h
  cases h
  rfl

theorem expressionWith_encloses (c : Cursor) :
    Encloses (expressionWith r' c.close) (expressionWith r c) := by
  have hcall := call_closes he hnil c.skipBlanks
  simp only [expressionWith, Cursor.skipBlanks_close, literal_close, reference_close he hnil]
  cases literal c.skipBlanks with
  | some found =>
    exact .alike (some (Expression.literal found.1 (c.skipBlanks.spanTo found.2), found.2))
  | none =>
    generalize hleft : call r' c.skipBlanks.close = x at hcall ⊢
    generalize hright : call r c.skipBlanks = y at hcall ⊢
    cases hcall with
    | alike =>
      cases y with
      | some found => exact .alike (some (.call found.1, found.2))
      | none =>
        cases reference r c.skipBlanks with
        | none => exact .alike none
        | some found => exact .alike (some (.reference found.1, found.2))
    | ended hend =>
      refine .ended hend fun other hother => ?_
      obtain ⟨name, e, hname, hopen⟩ := opened_of_call hleft
      simp only [Option.map_none, Option.none_or, Option.map_eq_some_iff] at hother
      obtain ⟨found, hfound, rfl⟩ := hother
      have hcall : call r c.skipBlanks.skipBlanks = none := by rwa [Cursor.skipBlanks_skipBlanks]
      have hfound : reference r c.skipBlanks = some (found.1, found.2) := hfound
      rw [reference_of_opened hcall hname hopen hfound]
      exact hopen

end Knot

theorem expression_encloses (c : Cursor) : Encloses (expression c.close) (expression c) := by
  induction hn : c.rest.length using Nat.strongRecOn generalizing c with
  | _ n ih =>
    rw [expression, expression]
    refine expressionWith_encloses (fun d => ?_) (fun d hd => ?_) c
    · simp only [Cursor.rest_extend, List.length_append, Nat.add_lt_add_iff_right]
      split
      · rename_i hlt
        exact ih _ (hn ▸ hlt) d rfl
      · exact .alike none
    · rw [expression_eq_none (by rw [hd]; rfl), ite_self]

/-! ## Lists of expressions -/

section List

variable {inside : List Construct} {c d next : Cursor} {value : Expression}

theorem expressionList_last (h : expression c = some (value, d)) (hcomma : d.symbol ',' = none) :
    expressionList inside c = .matched [value] d := by
  have hmore : (symbol ',' *> requireExpression "expression") inside d = .unmatched := by
    change (symbol ',' >>= fun _ => requireExpression "expression") inside d = _
    rw [bind_apply, symbol, Parse.pass, hcomma]
  rw [expressionList, separated, bind_apply, read_eq_matched h]
  simp only [bind_apply]
  rw [many, hmore]
  rfl

theorem expressionList_cons {values : List Expression} {g : Cursor}
    (h : expression c = some (value, d))
    (hcomma : d.symbol ',' = some next) (hrest : expressionList inside next = .matched values g) :
    expressionList inside c = .matched (value :: values) g := by
  obtain ⟨head, e, hhead, hrest⟩ := matched_bind hrest
  obtain ⟨tail, after, htail, hrest⟩ := matched_bind hrest
  cases hrest
  have hrequire : requireExpression "expression" inside next = .matched head e := by
    rw [requireExpression, require, orElse, hhead]
  have hmore : (symbol ',' *> requireExpression "expression") inside d = .matched head e := by
    change (symbol ',' >>= fun _ => requireExpression "expression") inside d = _
    rw [bind_apply, symbol, Parse.pass, hcomma]
    exact hrequire
  have hlt : e.rest.length < d.rest.length :=
    Nat.lt_of_le_of_lt (expression_lays.length_le _ _ _ (matched_read hhead))
      (Cursor.length_lt_of_symbol hcomma)
  rw [expressionList, separated, bind_apply, read_eq_matched h]
  simp only [bind_apply]
  rw [many, hmore]
  simp only [if_pos hlt, htail]
  rfl

/-- Arguments that the parenthesis after the text closes are a list of expressions, with nothing but
blanks after it. -/
theorem expressionList_of_closed {values : List Expression} {f : Cursor}
    (h : moreArguments expression c.close = .ok (values, f)) (hend : f.rest = []) :
    ∃ g, expressionList inside c = .matched values g ∧ g.skipBlanks.rest = [] := by
  induction hn : c.rest.length using Nat.strongRecOn generalizing c values with
  | _ n ih =>
    rw [moreArguments] at h
    have hfirst := expression_encloses c
    generalize expression c.close = x at h hfirst
    generalize hright : expression c = y at hfirst
    cases hfirst with
    | ended hnil =>
      simp [Cursor.symbol_eq_none_of_nil hnil] at h
    | alike =>
      cases y with
      | none => contradiction
      | some found =>
        obtain ⟨value, d⟩ := found
        simp only [Option.map_some, Cursor.extendFound] at h
        rcases d.symbol_close_paren with hclose | ⟨hnil, after, hclose, hafter⟩
        · rw [hclose] at h
          cases hshut : d.symbol ')' with
          | some closed =>
            simp only [hshut, Option.map_some] at h
            cases h
            simp at hend
          | none =>
            simp only [hshut, Option.map_none, Cursor.symbol_close (show ',' ≠ ')' by decide)] at h
            cases hcomma : d.symbol ',' with
            | none => simp [hcomma] at h
            | some next =>
              simp only [hcomma, Option.map_some, Cursor.rest_extend, List.length_append,
                Nat.add_lt_add_iff_right] at h
              split at h
              · rename_i hlt
                cases hmore : moreArguments expression next.close with
                | error stopped =>
                  rw [hmore] at h
                  contradiction
                | ok found =>
                  obtain ⟨rest, closed⟩ := found
                  rw [hmore] at h
                  cases h
                  obtain ⟨g, hlist, hblank⟩ := ih _ (hn ▸ hlt) hmore rfl
                  exact ⟨g, expressionList_cons hright hcomma hlist, hblank⟩
              · contradiction
        · rw [hclose] at h
          cases h
          have hcomma : d.symbol ',' = none := by
            rw [Cursor.symbol, Cursor.adjacent, hnil]
            rfl
          exact ⟨d, expressionList_last hright hcomma, hnil⟩

end List

end Grammar

end VisualBasic
