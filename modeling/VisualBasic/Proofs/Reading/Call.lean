import VisualBasic.Proofs.Correspondence.Twin
import VisualBasic.Proofs.Reading.Closing

/-!
# Spellings of a call

A call is written with the keyword and parentheses, with parentheses alone, or with neither. The
keyword may be left out, and if there are any arguments, so may the parentheses: the call is of the
same procedure with the same arguments.
-/

set_option autoImplicit false

namespace VisualBasic

/-! ## Blanks before arguments -/

theorem continuationWidth_cons_ink {char : Char} (h : isInk char = true) (rest : List Char) :
    continuationWidth (char :: rest) = none := by
  rw [← List.nil_append (char :: rest), continuationWidth_append_ink h]
  rfl

theorem continuationWidth_blank (rest : List Char) (h : continuationWidth rest = none) :
    continuationWidth (' ' :: rest) = none := by
  have hblank : isBlank ' ' = true := rfl
  simp only [continuationWidth, List.takeWhile_cons, hblank, if_true, List.length_cons,
    List.drop_succ_cons] at h ⊢
  split at h
  · rfl
  · contradiction

namespace Cursor

variable {c : Cursor}

/-- What goes on with a line continuation after its underscore is a line of blanks. -/
theorem blankLine_isSome_iff : c.blankLine.isSome ↔ (continuationWidth c.rest).isSome := by
  rw [blankLine_eq, Option.isSome_map]

theorem symbol_eq_none_of_blankLine (h : c.blankLine.isSome) {char : Char}
    (hchar : isBreak char = false) : c.symbol char = none := by
  obtain ⟨first, rest, hrest, hbreak⟩ := exists_isBreak_of_blankLine h
  rw [symbol, adjacent, hrest, if_neg]
  intro hfirst
  obtain rfl : first = char := by simpa using hfirst
  rw [hchar] at hbreak
  contradiction

/-- Nothing but blanks ends a statement at the end of the source. -/
theorem terminator_of_blank (h : c.skipBlanks.rest = []) :
    c.terminator = some c.skipBlanks := by
  have hsymbol : c.symbol ':' = none := by
    rw [symbol, adjacent, h]
    rfl
  have hcomment : c.skipBlanks.comment = none := by
    rw [comment, commentMark, skipBlanks_skipBlanks, adjacent, h,
      keyword_of_rest_eq_nil h]
    rfl
  have hbreak : c.skipBlanks.lineBreak = none := by
    rw [lineBreak, h]
    rfl
  rw [terminator, hsymbol, Option.none_or, lineEnd, hcomment, Option.map_none, Option.getD_none,
    breakOrEnd, hbreak, isAtEnd, h]
  rfl

end Cursor

namespace Grammar

open Parse
open Cursor (close)

variable {inside : List Construct} {c d e f stop after : Cursor} {name called : String}
  {args values : List Expression} {span : Span} {n a more : List Char}

@[simp] theorem procedureName_skipBlanks (c : Cursor) :
    procedureName c.skipBlanks = procedureName c := by
  simp only [procedureName, Cursor.skipBlanks_skipBlanks]

/-! ## The parts of a call -/

theorem parts_of_explicitCall (h : explicitCall inside c =
      .matched (.call called args true span) after) :
    ∃ d e f stop, c.skipBlanks.keyword .Call = some d ∧ procedureName d = some (called, e) ∧
      e.symbol '(' = some f ∧ arguments expression f = .ok (args, stop) ∧
      span = c.skipBlanks.spanTo stop := by
  obtain ⟨build, stop, h, hvalue, _⟩ := matched_sentence h
  obtain ⟨_, d, hkeyword, h⟩ := matched_bind h
  obtain ⟨_, d', hmark, h⟩ := matched_bind h
  cases hmark
  obtain ⟨found, e, hname, h⟩ := matched_bind h
  obtain ⟨_, f, hopen, h⟩ := matched_bind h
  obtain ⟨values, g, harguments, h⟩ := matched_bind h
  cases h
  cases hvalue
  have hname := matched_read (matched_require hname)
  rw [procedureName_skipBlanks] at hname
  refine ⟨d, e, f, stop, matched_pass hkeyword, hname,
    matched_pass (matched_require hopen), ?_, rfl⟩
  unfold requireArguments at harguments
  split at harguments
  · cases harguments
    assumption
  · contradiction

theorem implicitCall_of_whole (hname : procedureName c = some (name, e))
    (h : wholeArguments e = some ((values, stop), after)) :
    implicitCall inside c =
    .matched (.call name values false (c.skipBlanks.spanTo stop)) after := by
  have hname : procedureName c.skipBlanks = some (name, e) := by
    rw [procedureName_skipBlanks, hname]
  simp only [implicitCall, within, mark, bind_apply, read_eq_matched hname, orElse,
    read_eq_matched h]
  rfl

theorem implicitCall_of_loose (hname : procedureName c = some (name, e))
    (hwhole : wholeArguments e = none)
    (h : expressionList (.call :: inside) e = .matched values stop)
    (hend : stop.terminator = some after) :
    implicitCall inside c =
    .matched (.call name values false (c.skipBlanks.spanTo stop)) after := by
  have hname : procedureName c.skipBlanks = some (name, e) := by
    rw [procedureName_skipBlanks, hname]
  have hopt : opt expressionList (.call :: inside) e = .matched (some values) stop := by
    rw [opt, orElse, Parse.bind, h]
    rfl
  have hterminator : requireTerminator (.call :: inside) stop = .matched () after := by
    rw [requireTerminator, require, orElse, Parse.pass, hend]
  simp only [implicitCall, within, mark, bind_apply, read_eq_matched hname, orElse,
    read_eq_unmatched hwhole, looseArguments, hopt, here, hterminator]
  rfl

/-- A list of expressions is told from the first one. -/
theorem expressionList_congr (h : expression c = expression d) :
    expressionList inside c = expressionList inside d := by
  have hread : Parse.read expression inside c = Parse.read expression inside d := by
    rw [Parse.read, Parse.read, h]
  rw [expressionList, separated, bind_apply, bind_apply, hread]

/-! ## Where the arguments stand -/

theorem moreArguments_of_arguments (h : arguments expression c = .ok (args, stop))
    (hne : args ≠ []) :
    moreArguments expression c = .ok (args, stop) := by
  unfold arguments at h
  split at h
  · cases h
    exact absurd rfl hne
  · exact h

/-- The first of some arguments is an expression. -/
theorem expression_of_moreArguments (h : moreArguments expression c = .ok (args, stop)) :
    ∃ value d, expression c = some (value, d) ∧ (d.symbol ')' = none → d.symbol ',' ≠ none) := by
  rw [moreArguments] at h
  split at h
  · contradiction
  · rename_i value d hfirst
    refine ⟨value, d, hfirst, fun hshut hcomma => ?_⟩
    simp only [hshut, hcomma] at h
    contradiction

theorem starts_of_expression {value : Expression} (h : expression c = some (value, d)) :
    c.skipBlanks.rest.head?.any startsExpression = true := by
  cases hstart : c.skipBlanks.rest.head?.any startsExpression with
  | true => rfl
  | false =>
    rw [expression_eq_none hstart] at h
    contradiction

/-- No argument is a lone underscore at the end of its line. -/
theorem continuationWidth_of_moreArguments {rest : List Char}
    (h : moreArguments expression c = .ok (args, stop)) (hflag : c.afterBlank = false)
    (hrest : c.rest = '_' :: rest) : continuationWidth rest = none := by
  rw [← Option.not_isSome_iff_eq_none]
  intro hwidth
  have hplace : c.skipBlanks = c := by
    rw [Cursor.skipBlanks, hrest, blankWidth_cons_eq_zero rfl fun hc => ?_, Cursor.skip_zero]
    rw [hflag] at hc
    contradiction
  have hnext : (c.skip 1).rest = rest := by rw [Cursor.rest_skip, hrest]; rfl
  have hline : (c.skip 1).blankLine.isSome := by rwa [Cursor.blankLine_isSome_iff, hnext]
  have hhead {p : Char → Bool} (hp : ∀ char, p char = true → isInk char = true) :
      rest.head?.any p = false := by
    cases rest with
    | nil => rfl
    | cons char rest =>
      cases hchar : p char with
      | false => exact hchar
      | true =>
        rw [continuationWidth_cons_ink (hp char hchar)] at hwidth
        contradiction
  have hword : c.word = some ("_", c.skip 1) := by
    have htake : rest.takeWhile isWordChar = [] := by
      have hfirst := hhead fun _ => isInk_of_isWordChar
      cases rest with
      | nil => rfl
      | cons char rest => simpa using hfirst
    rw [Cursor.word, hplace, hrest]
    simp only [List.takeWhile_cons, htake]
    rfl
  have hdot : (c.skip 1).adjacent '.' = none := by
    rw [Cursor.adjacent, hnext, if_neg]
    intro hfirst
    have hany := hhead (p := (· == '.')) fun char hchar => by
      rw [beq_iff_eq.mp hchar]
      rfl
    simp [hfirst] at hany
  obtain ⟨value, d, hfirst, hafter⟩ := expression_of_moreArguments h
  obtain rfl := expression_of_word hword hdot (Cursor.symbol_eq_none_of_blankLine hline rfl) hfirst
  exact hafter (Cursor.symbol_eq_none_of_blankLine hline rfl)
    (Cursor.symbol_eq_none_of_blankLine hline rfl)

/-- Before the name of a procedure no underscore ends its line. -/
theorem continuationWidth_of_procedureName {rest : List Char} (h : procedureName c = some (name, e))
    (hend : e.rest = []) (hflag : c.afterBlank = false) (hmore : EndsMembers more)
    (hrest : c.rest ++ more = '_' :: rest) : continuationWidth rest = none := by
  cases htext : c.rest with
  | nil =>
    have hne := (parted_of_procedureName h hend hmore).2
    rw [Cursor.eq_of_reaches_of_rest_eq_nil htext c.reaches_pastDot, htext] at hne
    contradiction
  | cons char tail =>
    rw [htext] at hrest
    obtain ⟨rfl, rfl⟩ := List.cons.inj hrest
    have hplace : c.skipBlanks = c := by
      rw [Cursor.skipBlanks, htext, blankWidth_cons_eq_zero rfl fun hc => ?_, Cursor.skip_zero]
      rw [hflag] at hc
      contradiction
    have hpast : c.pastDot = c := by
      rw [Cursor.pastDot, hplace, Cursor.adjacent, htext]
      rfl
    cases tail with
    | nil => exact hmore.still
    | cons first tail =>
      cases hfirst : isWordChar first with
      | true => exact continuationWidth_cons_ink (isInk_of_isWordChar hfirst) _
      | false =>
        -- the name is the underscore alone, so a dot must follow
        obtain ⟨word, d, hword, hmembers⟩ := pastDot_of_procedureName h
        have hword := (Cursor.identifier_eq_some_iff.mp hword).1
        have hd : d = c.skip 1 := by
          rw [hpast, Cursor.word, hplace, htext] at hword
          simp only [List.head?_cons, Option.any_some, List.takeWhile_cons, hfirst] at hword
          exact (Prod.mk.inj (Option.some.inj hword)).2.symm
        have hrest : d.rest = first :: tail := by rw [hd, Cursor.rest_skip, htext]; rfl
        rw [memberNames_eq] at hmembers
        cases hmember : d.member with
        | none =>
          simp only [hmember] at hmembers
          rw [hmembers, hend] at hrest
          contradiction
        | some found =>
          obtain ⟨_, hdot, _⟩ := Option.bind_eq_some_iff.mp hmember
          obtain ⟨hhead, _⟩ := Cursor.adjacent_eq_some_iff.mp hdot
          rw [hrest] at hhead
          obtain rfl : first = '.' := by simpa using hhead
          exact continuationWidth_cons_ink rfl _

/-- With the keyword the name is read as without it, and then come the parenthesis and the
arguments. -/
theorem arguments_of_explicitCall (hname : procedureName (.start n) = some (name, e))
    (hend : e.rest = [])
    (h : explicitCall inside (.start ("Call ".toList ++ n ++ '(' :: a ++ [')'])) =
      .matched (.call called args true ⟨0, byteLength ("Call ".toList ++ n ++ '(' :: a ++ [')'])⟩)
        after) :
    called = name ∧ ∃ f stop, f.rest = a ++ [')'] ∧ f.afterBlank = false ∧
      arguments expression f = .ok (args, stop) ∧ stop.rest = [] := by
  obtain ⟨d, x, f, stop, hkeyword, hcalled, hopen, harguments, hspan⟩ := parts_of_explicitCall h
  generalize hsource : "Call ".toList ++ n ++ '(' :: a ++ [')'] = source at *
  have hmore : EndsMembers ('(' :: a ++ [')']) := ⟨rfl, by simp, continuationWidth_cons_ink rfl _⟩
  have hsource : source = 'C' :: 'a' :: 'l' :: 'l' :: ' ' :: (n ++ ('(' :: a ++ [')'])) := by
    simp [← hsource]
  have hstart : (Cursor.start source).skipBlanks = Cursor.start source :=
    Cursor.skipBlanks_eq_self hsource rfl (by simp)
  rw [hstart] at hkeyword hspan
  have hd : d = (Cursor.start source).skip 4 := by
    rw [Cursor.keyword_eq, hstart] at hkeyword
    split at hkeyword
    · exact (Option.some.inj hkeyword).symm
    · contradiction
  have hrest : d.rest = ' ' :: (n ++ ('(' :: a ++ [')'])) := by
    rw [hd, Cursor.rest_skip, Cursor.start, hsource]
    rfl
  have htwin : Twin (d.skip 1) ((Cursor.start n).extend ('(' :: a ++ [')'])) := by
    have hnext : (d.skip 1).rest = n ++ ('(' :: a ++ [')']) := by rw [Cursor.rest_skip, hrest]; rfl
    refine ⟨hnext, ?_⟩
    rw [hnext]
    exact blankWidth_eq (fun rest => continuationWidth_of_procedureName hname hend rfl hmore) _ _
  have hcalled : procedureName (d.skip 1) = some (called, x) := by
    rw [← procedureName_skipBlanks, ← Cursor.skipBlanks_of_blank hrest rfl,
      procedureName_skipBlanks, hcalled]
  obtain ⟨y, hy, hxy⟩ := htwin.procedureName hcalled
  rw [procedureName_extend hname hend hmore] at hy
  cases hy
  have hparen : x.rest = '(' :: a ++ [')'] := by rw [hxy.rest, Cursor.rest_extend, hend]; rfl
  have hf : f = x.skip 1 := by
    rw [Cursor.symbol, Cursor.skipBlanks_eq_self hparen rfl (by simp)] at hopen
    exact (Cursor.adjacent_eq_some_iff.mp hopen).2
  refine ⟨rfl, f, stop, ?_, ?_, harguments, ?_⟩
  · rw [hf, Cursor.rest_skip, hparen]
    rfl
  · rw [hf, Cursor.afterBlank_skip, hparen]
    rfl
  · have hreach : Cursor.Reaches (Cursor.start source) stop :=
      ((((Cursor.reaches_of_keyword hkeyword).trans (Cursor.reaches_skip 1 d)).trans
        (token_of_procedureName hcalled).reaches).trans (Cursor.reaches_of_symbol hopen)).trans
        (arguments_lays expression_lays harguments).1.reaches
    exact Cursor.rest_eq_nil_of_offset hreach (congrArg Span.stop hspan).symm

/-! ## The spellings -/

/-- Without the keyword. -/
theorem statement_of_parentheses (hname : procedureName (.start n) = some (name, e))
    (hend : e.rest = [])
    (hword : (Cursor.start n).peekKeyword = none) (hf : f.rest = a ++ [')'])
    (hflag : f.afterBlank = false)
    (harguments : arguments expression f = .ok (args, stop)) (hstop : stop.rest = []) :
    ∃ others place after, statement inside (.start (n ++ '(' :: a ++ [')'])) =
        .matched (.call name others false place) after ∧ after.rest = [] ∧
      others.map (Expression.relabel .erase) = args.map (Expression.relabel .erase) := by
  have hmore : EndsMembers ('(' :: a ++ [')']) := ⟨rfl, by simp, continuationWidth_cons_ink rfl _⟩
  have hsource : n ++ '(' :: a ++ [')'] = n ++ ('(' :: a ++ [')']) := by simp
  have hstart : procedureName ((Cursor.start n).extend ('(' :: a ++ [')'])) =
      some (name, e.extend ('(' :: a ++ [')'])) := procedureName_extend hname hend hmore
  have hrest : (e.extend ('(' :: a ++ [')'])).rest = '(' :: (a ++ [')']) := by
    rw [Cursor.rest_extend, hend]
    rfl
  generalize e.extend ('(' :: a ++ [')']) = x at hstart hrest
  have hplace : x.skipBlanks = x := Cursor.skipBlanks_eq_self hrest rfl (by simp)
  have hopen : x.symbol '(' = some (x.skip 1) := by
    rw [Cursor.symbol, hplace]
    exact Cursor.adjacent_eq_some_iff.mpr ⟨by rw [hrest]; rfl, rfl⟩
  have htwin : Twin f (x.skip 1) := by
    have hnext : (x.skip 1).rest = a ++ [')'] := by rw [Cursor.rest_skip, hrest]; rfl
    have hflag' : (x.skip 1).afterBlank = false := by
      rw [Cursor.afterBlank_skip, hrest]
      rfl
    exact ⟨by rw [hf, hnext], by rw [hf, hnext, hflag, hflag']⟩
  obtain ⟨others, last, hothers, hlast, hvalues⟩ := htwin.arguments harguments
  have hnil : last.rest = [] := hlast.rest ▸ hstop
  have hclear (char : Char) (hchar : '(' ≠ char) : x.adjacent char = none := by
    rw [Cursor.adjacent, hrest, List.head?_cons, if_neg (by simpa using hchar)]
  have hunqualified : Unqualified x := by
    intro g values after hg hvalues
    rw [hopen] at hg
    cases hg
    rw [hothers] at hvalues
    cases hvalues
    rw [Cursor.adjacent, hnil]
    rfl
  have hwhole : wholeArguments x = some ((others, last), last.skipBlanks) := by
    have hblank : last.skipBlanks.rest = [] := by rw [Cursor.skipBlanks_of_nil hnil, hnil]
    simp only [wholeArguments, hopen, Option.bind_eq_bind, Option.bind_some, hothers,
      Except.toOption, Cursor.terminator_of_blank hblank]
    rfl
  have hkeyword := peekKeyword_extend_of_procedureName hname hend hmore
  have hcall : statement inside _ = implicitCall inside _ :=
    statement_eq_implicitCall hstart (hkeyword.trans hword)
      (hclear '.' (by decide)) (hclear ':' (by decide))
      (by rw [Cursor.symbol, hplace, hclear '=' (by decide)]) hunqualified
  rw [implicitCall_of_whole hstart hwhole] at hcall
  rw [hsource]
  refine ⟨others, _, last.skipBlanks, hcall, ?_, hvalues⟩
  rw [Cursor.skipBlanks_of_nil hnil, hnil]

/-- Without the keyword and the parentheses. -/
theorem statement_of_list (hname : procedureName (.start n) = some (name, e)) (hend : e.rest = [])
    (hword : (Cursor.start n).peekKeyword = none) (hf : f.rest = a ++ [')'])
    (hflag : f.afterBlank = false)
    (harguments : arguments expression f = .ok (args, stop)) (hstop : stop.rest = [])
    (hne : args ≠ []) :
    ∃ others place after, statement inside (.start (n ++ ' ' :: a)) =
        .matched (.call name others false place) after ∧ after.rest = [] ∧
      others.map (Expression.relabel .erase) = args.map (Expression.relabel .erase) := by
  have hmoreArguments := moreArguments_of_arguments harguments hne
  obtain ⟨value, d, hfirst, _⟩ := expression_of_moreArguments hmoreArguments
  have hstarts := starts_of_expression hfirst
  have hwidth : continuationWidth a = none := by
    rw [← continuationWidth_append_ink (show isInk ')' = true from rfl) a [], ← hf,
      ← Option.not_isSome_iff_eq_none, ← Cursor.blankLine_isSome_iff]
    intro hline
    obtain ⟨char, rest, hrest, hbreak⟩ := Cursor.exists_isBreak_of_blankLine hline
    rw [hrest, List.head?_cons, Option.any_some] at hstarts
    simp only [isBreak, Bool.or_eq_true, decide_eq_true_eq] at hbreak
    rcases hbreak with rfl | rfl <;> contradiction
  have hmore : EndsMembers (' ' :: a) := ⟨rfl, by simp, continuationWidth_blank a hwidth⟩
  have hstart : procedureName ((Cursor.start n).extend (' ' :: a)) =
      some (name, e.extend (' ' :: a)) := procedureName_extend hname hend hmore
  have hrest : (e.extend (' ' :: a)).rest = ' ' :: a := by
    rw [Cursor.rest_extend, hend]
    rfl
  generalize e.extend (' ' :: a) = x at hstart hrest
  obtain ⟨c, rfl⟩ : ∃ c : Cursor, f = c.close :=
    ⟨⟨f.offset, f.afterBlank, a⟩, by cases f; cases hf; rfl⟩
  have hc : c.rest = a := List.append_cancel_right hf
  obtain ⟨g, hlist, hg⟩ : ∃ g, expressionList (.call :: inside) c = .matched args g ∧
      g.skipBlanks.rest = [] := expressionList_of_closed hmoreArguments hstop
  have htwin : Twin c (x.skip 1) := by
    have hnext : (x.skip 1).rest = a := by rw [Cursor.rest_skip, hrest]; rfl
    refine ⟨by rw [hc, hnext], ?_⟩
    rw [hc, hnext]
    refine blankWidth_eq (fun rest ha => ?_) _ _
    rw [← continuationWidth_append_ink (show isInk ')' = true from rfl) rest []]
    exact continuationWidth_of_moreArguments hmoreArguments hflag (by rw [hf, ha]; rfl)
  obtain ⟨others, last, hothers, hlast, hvalues⟩ := htwin.expressionList hlist
  have hnil : last.skipBlanks.rest = [] := hlast.skipBlanks.rest ▸ hg
  have hblanks : x.skipBlanks = (x.skip 1).skipBlanks := Cursor.skipBlanks_of_blank hrest rfl
  have hclear (char : Char) (hchar : startsExpression char = false) : x.symbol char = none := by
    obtain ⟨value, d, hfirst, _⟩ := matched_bind hothers
    have hstarts := starts_of_expression (matched_read hfirst)
    rw [Cursor.symbol, hblanks, Cursor.adjacent, if_neg]
    intro hhead
    rw [hhead, Option.any_some, hchar] at hstarts
    contradiction
  have hloose : expressionList (.call :: inside) x = .matched others last := by
    rw [← hothers]
    refine expressionList_congr ?_
    rw [← expression_skipBlanks, hblanks, expression_skipBlanks]
  have hwhole : wholeArguments x = none := by
    rw [wholeArguments, hclear '(' rfl]
    rfl
  have hhead (char : Char) (hchar : ' ' ≠ char) : x.adjacent char = none := by
    rw [Cursor.adjacent, hrest, List.head?_cons, if_neg (by simpa using hchar)]
  have hkeyword := peekKeyword_extend_of_procedureName hname hend hmore
  have hcall : statement inside _ = implicitCall inside _ :=
    statement_eq_implicitCall hstart (hkeyword.trans hword)
      (hhead '.' (by decide)) (hhead ':' (by decide)) (hclear '=' rfl)
      (unqualified_of_symbol (hclear '(' rfl))
  rw [implicitCall_of_loose hstart hwhole hloose (Cursor.terminator_of_blank hnil)] at hcall
  exact ⟨others, _, last.skipBlanks, hcall, hnil, hvalues⟩

theorem statement_of_spelling {others : List Construct}
    (hname : procedureName (.start n) = some (name, e)) (hend : e.rest = [])
    (hword : (Cursor.start n).peekKeyword = none)
    (h : explicitCall others (.start ("Call ".toList ++ n ++ '(' :: a ++ [')'])) =
      .matched (.call called args true ⟨0, byteLength ("Call ".toList ++ n ++ '(' :: a ++ [')'])⟩)
        after) :
    ∀ text, text = n ++ '(' :: a ++ [')'] ∨ text = n ++ ' ' :: a ∧ args ≠ [] →
      ∃ values place stop, statement inside (.start text) =
      .matched (.call called values false place) stop ∧
        stop.rest = [] ∧
        values.map (Expression.relabel .erase) = args.map (Expression.relabel .erase) := by
  obtain ⟨rfl, f, stop, hf, hflag, harguments, hstop⟩ := arguments_of_explicitCall hname hend h
  rintro text (rfl | ⟨rfl, hne⟩)
  · exact statement_of_parentheses hname hend hword hf hflag harguments hstop
  · exact statement_of_list hname hend hword hf hflag harguments hstop hne

end Grammar

namespace Routine

theorem tracks_explicitCall : Guide.same.Tracks .kept explicitCall Grammar.explicitCall Eq :=
  Guide.tracks_explicitCall.exact Statement.relabel_same

/-- A call with the keyword that takes a whole text is met without the keyword too: with its
arguments in parentheses, and if there are any, also without them. -/
theorem statement_of_explicitCall {n a : List Char} {name called : String} {e after : Cursor}
    {args : List Expression} {s : Session}
    (hname : Scanner.procedureName.run (.start n) = ⟨some name, e, []⟩) (hend : e.rest = [])
    (hword : (Scanner.peekWord.run (.start n)).value.bind Keyword.lookup = none)
    (hs : s.cursor = .start ("Call ".toList ++ n ++ '(' :: a ++ [')']))
    (h : explicitCall.Matches s
      (.call called args true ⟨0, byteLength ("Call ".toList ++ n ++ '(' :: a ++ [')'])⟩) after) :
    ∀ (text : List Char) (t : Session),
      text = n ++ '(' :: a ++ [')'] ∨ text = n ++ ' ' :: a ∧ args ≠ [] → t.cursor = .start text →
      ∃ values span stop, statement.Matches t (.call called values false span) stop ∧
        stop.rest = [] ∧
        values.map (Expression.relabel .erase) = args.map (Expression.relabel .erase) := by
  intro text t htext ht
  have hexplicit := tracks_explicitCall.matches_iff.mp h
  rw [hs] at hexplicit
  rw [Scanner.run_procedureName] at hname
  rw [Scanner.run_peekWord] at hword
  obtain ⟨values, span, stop, hstatement, hall, hvalues⟩ :
      ∃ values span stop, Grammar.statement t.inside t.cursor =
        .matched (.call called values false span) stop ∧ stop.rest = [] ∧
          values.map (Expression.relabel .erase) = args.map (Expression.relabel .erase) := by
    rw [ht]
    exact Grammar.statement_of_spelling (Scanned.taken_eq_some_iff.mp hname) hend hword hexplicit
      text htext
  exact ⟨values, span, stop, Guide.tracks_statement_exactly.matches_iff.mpr hstatement, hall,
    hvalues⟩

/-- A member of the object of a `With` block, named by a reserved word, with a call among its
arguments. -/
theorem statement_of_explicitCall_member :
    let s := Session.start "Call .log.End(f(1), x)" Settings.standard
    let t := Session.start ".log.End f(1), x" Settings.standard
    ∃ args after, explicitCall.Matches s (.call ".log.End" args true ⟨0, 22⟩) after ∧
      args.length = 2 ∧
      ∃ values span stop, statement.Matches t (.call ".log.End" values false span) stop ∧
        stop.rest = [] ∧
        values.map (Expression.relabel .erase) = args.map (Expression.relabel .erase) := by
  intro s t
  have hname : Scanner.procedureName.run (.start ".log.End".toList) =
      ⟨some ".log.End", ⟨8, false, []⟩, []⟩ := by
    decide +kernel
  have hread : (match Grammar.explicitCall s.inside s.cursor with
      | .matched (.call called args true span) _ => some (called, args.length, span)
      | _ => none) = some (".log.End", 2, ⟨0, 22⟩) := by
    decide +kernel
  split at hread
  · rename_i called args span after hmatched
    simp only [Option.some.injEq, Prod.mk.injEq] at hread
    obtain ⟨rfl, hlength, rfl⟩ := hread
    have hne : args ≠ [] := by
      rintro rfl
      contradiction
    have hexplicit := tracks_explicitCall.matches_iff.mpr hmatched
    exact ⟨args, after, hexplicit, hlength,
      statement_of_explicitCall (n := ".log.End".toList) (a := "f(1), x".toList) hname rfl
        (by decide +kernel) rfl hexplicit _ t (.inr ⟨rfl, hne⟩) rfl⟩
  · contradiction

end Routine

end VisualBasic
