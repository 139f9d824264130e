import VisualBasic.Proofs.Span.Statement

/-!
# Unrolling expressions and statements

Parsers that agree wherever less text is left give the same result inside a larger construct, since
a construct passes over some text before it comes to a construct inside it. So the guards in the
definitions of `expression` and `statement` never stop them.
-/

set_option autoImplicit false

namespace VisualBasic

namespace Grammar

open Cursor (Reaches)

/-! ## Expressions -/

/-- Two readers that agree where less than some text is left. -/
def ReadersAgree {α : Type} (n : Nat) (f g : Reader α) : Prop := ∀ d, d.rest.length < n → f d = g d

variable {f g : Reader Expression} {c : Cursor}

theorem ReadersAgree.mono {m n : Nat} (h : ReadersAgree n f g) (hm : m ≤ n) : ReadersAgree m f g :=
  fun d hd => h d (Nat.lt_of_lt_of_le hd hm)

theorem moreArguments_congr {n : Nat} (h : ReadersAgree n f g) (hc : c.rest.length < n) :
    moreArguments f c = moreArguments g c := by
  induction hm : c.rest.length using Nat.strongRecOn generalizing c with
  | _ m ih =>
    rw [moreArguments, moreArguments, h c hc]
    split
    · rfl
    · split
      · rfl
      · split
        · rfl
        · split
          · rename_i hlt
            rw [ih _ (by omega) (by omega) rfl]
          · rfl

theorem call_congr (h : ReadersAgree c.rest.length f g) : call f c = call g c := by
  unfold call
  simp only
  cases hname : c.skipBlanks.identifier with
  | none => rfl
  | some found =>
    obtain ⟨name, d⟩ := found
    simp only [Option.bind_eq_bind, Option.bind_some]
    cases hopen : d.symbol '(' with
    | none => rfl
    | some e =>
      have hlt : e.rest.length < c.rest.length :=
        Nat.lt_of_lt_of_le (Cursor.length_lt_of_symbol hopen)
          ((Cursor.reaches_skipBlanks c).trans (Cursor.reaches_of_identifier hname)).length_le
      have harguments : arguments f e = arguments g e := by
        unfold arguments
        split
        · rfl
        · exact moreArguments_congr h hlt
      simp only [Option.bind_some, harguments]

theorem segment_congr (h : ReadersAgree c.rest.length f g) : segment f c = segment g c := by
  rw [segment, segment, call_congr h]

theorem segments_congr (h : ReadersAgree c.rest.length f g) : segments f c = segments g c := by
  induction hn : c.rest.length using Nat.strongRecOn generalizing c with
  | _ n ih =>
    rw [segments, segments, segment_congr h]
    split
    · rfl
    · split
      · rename_i hlt
        rw [ih _ (by omega) (h.mono (Nat.le_of_lt hlt)) rfl]
      · rfl

theorem reference_congr (h : ReadersAgree c.rest.length f g) : reference f c = reference g c := by
  have hstart (d : Cursor) (hd : d.rest.length ≤ c.rest.length) : segments f d = segments g d :=
    segments_congr (h.mono hd)
  have hblanks := (Cursor.reaches_skipBlanks c).trans (Cursor.reaches_skipBlanks c.skipBlanks)
  have hbody : segments f ((c.skipBlanks.skipBlanks.adjacent '.').getD c.skipBlanks.skipBlanks) =
      segments g ((c.skipBlanks.skipBlanks.adjacent '.').getD c.skipBlanks.skipBlanks) := by
    cases hdot : c.skipBlanks.skipBlanks.adjacent '.' with
    | none => exact hstart _ hblanks.length_le
    | some d => exact hstart d (hblanks.trans (Cursor.reaches_of_adjacent hdot)).length_le
  rw [reference, reference]
  simp only [qualifier, hbody]

theorem expressionWith_congr (h : ReadersAgree c.skipBlanks.rest.length f g) :
    expressionWith f c = expressionWith g c := by
  rw [expressionWith, expressionWith, call_congr h, reference_congr h]

theorem expression_eq : expression = expressionWith expression := by
  funext c
  rw [expression]
  exact expressionWith_congr fun d hd =>
    if_pos (Nat.lt_of_lt_of_le hd (Cursor.reaches_skipBlanks c).length_le)

@[simp] theorem expression_skipBlanks (c : Cursor) : expression c.skipBlanks = expression c := by
  rw [expression_eq, expressionWith, expressionWith, Cursor.skipBlanks_skipBlanks]

end Grammar

namespace Parse

open Cursor (Token Opened)

/-! ## Parsers inside parsers -/

/-- Two parsers that agree where less than some text is left. -/
def Agree {α : Type} (n : Nat) (p q : Parse α) : Prop :=
  ∀ inside c, c.rest.length < n → p inside c = q inside c

variable {α β : Type} {n : Nat} {p p' q q' : Parse α}

theorem Agree.refl (p : Parse α) : Agree n p p := fun _ _ _ => rfl

theorem Agree.andThen {f f' : α → Parse β} (h : Agree n p p') (hp : Advances p')
    (hf : ∀ value, Agree n (f value) (f' value)) : Agree n (p >>= f) (p' >>= f') := by
  intro inside c hc
  rw [bind_apply, bind_apply, h inside c hc]
  cases hm : p' inside c with
  | unmatched => rfl
  | failed failure => rfl
  | matched value after =>
    exact hf value inside after (Nat.lt_of_le_of_lt (hp _ _ _ _ hm).length_le hc)

/-- What comes after a parser that stays the same. -/
theorem Agree.after {f f' : α → Parse β} (hp : Advances p)
    (hf : ∀ value, Agree n (f value) (f' value)) : Agree n (p >>= f) (p >>= f') :=
  (Agree.refl p).andThen hp hf

theorem Agree.orElse (hp : Agree n p p') (hq : Agree n q q') :
    Agree n (p.orElse q) (p'.orElse q') := by
  intro inside c hc
  rw [Parse.orElse, Parse.orElse, hp inside c hc, hq inside c hc]

theorem Agree.opt (h : Agree n p p') (hp : Advances p') : Agree n (Parse.opt p) (Parse.opt p') :=
  Agree.orElse (h.andThen hp fun _ => .refl _) (.refl _)

theorem Agree.many (h : Agree n p p') : Agree n (Parse.many p) (Parse.many p') := by
  intro inside c hc
  induction hm : c.rest.length using Nat.strongRecOn generalizing c with
  | _ m ih =>
    rw [Parse.many, Parse.many, h inside c hc]
    split
    · rfl
    · rfl
    · split
      · rename_i hlt
        rw [ih _ (by omega) _ (by omega) rfl]
      · rfl

theorem Agree.mono {m : Nat} (h : Agree n p p') (hm : m ≤ n) : Agree m p p' :=
  fun inside c hc => h inside c (Nat.lt_of_lt_of_le hc hm)

/-- Two parsers that agree further on. -/
theorem Agree.later (h : Agree n p p') {d : Cursor} (hd : d.rest.length < n) :
    Agree d.skipBlanks.rest.length p p' :=
  h.mono (Nat.le_of_lt (Nat.lt_of_le_of_lt (Cursor.reaches_skipBlanks d).length_le hd))

/-- After a token less text is left than where it starts. -/
theorem andThen_congr {f f' : α → Parse β} {inside : List Construct} {c : Cursor}
    (h : p inside c = p' inside c) (hp : Moves p' Opened)
    (hf : ∀ value, Agree c.skipBlanks.rest.length (f value) (f' value)) :
    (p >>= f) inside c = (p' >>= f') inside c := by
  rw [bind_apply, bind_apply, h]
  cases hm : p' inside c with
  | unmatched => rfl
  | failed failure => rfl
  | matched value after =>
    obtain ⟨d, htoken, hreach⟩ := hp _ _ _ _ hm
    have hlt := (Cursor.token_skipBlanks_iff.mpr htoken).length_lt
    exact hf value inside after (Nat.lt_of_le_of_lt hreach.length_le hlt)

theorem keyword_andThen_congr {k : Keyword} {f f' : Unit → Parse β} {inside : List Construct}
    {c : Cursor} (hf : Agree c.skipBlanks.rest.length (f ()) (f' ())) :
    (keyword k >>= f) inside c = (keyword k >>= f') inside c :=
  andThen_congr rfl ((moves_keyword k).weaken Token.opened) fun _ => hf

theorem spanned_congr {p p' : Parse (Span → α)} {inside : List Construct} {c : Cursor}
    (h : p inside c.skipBlanks = p' inside c.skipBlanks) :
    spanned p inside c = spanned p' inside c := by
  simp only [spanned, mark, bind_apply, h]

theorem sentence_congr {p p' : Parse (Span → α)} {construct : Construct}
    {inside : List Construct} {c : Cursor}
    (h : p (construct :: inside) c.skipBlanks = p' (construct :: inside) c.skipBlanks) :
    sentence construct p inside c = sentence construct p' inside c := by
  simp only [sentence, within, bind_apply, spanned_congr h]

end Parse

namespace Grammar

open Cursor (Reaches Token Ahead Opened)
open Parse

/-! ## Statements -/

section Compound

variable {n : Nat} {block block' : Parse (List Statement)}
  (hb' : Yields block' Reaches blockRegions)

include hb'

theorem forEachLoop_agree (hb : Agree n block block') :
    Agree n (forEachLoop block) (forEachLoop block') := by
  refine .after (moves_keyword _).advances fun _ => ?_
  refine .after (yields_requireReference _).advances fun _ => ?_
  refine .after (moves_requireKeyword _).advances fun _ => ?_
  refine .after (yields_requireExpression _).advances fun _ => ?_
  refine .after moves_requireTerminator.advances fun _ => ?_
  exact hb.andThen hb'.advances fun _ => .refl _

theorem countingLoop_agree (hb : Agree n block block') :
    Agree n (countingLoop block) (countingLoop block') := by
  refine .after (yields_requireReference _).advances fun _ => ?_
  refine .after (begins_requireSymbol (by decide)).advances fun _ => ?_
  refine .after (yields_requireExpression _).advances fun _ => ?_
  refine .after (moves_requireKeyword _).advances fun _ => ?_
  refine .after (yields_requireExpression _).advances fun _ => ?_
  refine .after (yields_requireExpression _).after.advances fun _ => ?_
  refine .after moves_requireTerminator.advances fun _ => ?_
  exact hb.andThen hb'.advances fun _ => .refl _

variable {inside : List Construct} {c : Cursor}
  (hb : Agree c.skipBlanks.rest.length block block')

include hb

theorem branch_congr (k : Keyword) : branch block k inside c = branch block' k inside c := by
  rw [← Cursor.skipBlanks_skipBlanks c] at hb
  refine spanned_congr (keyword_andThen_congr ?_)
  refine .after (yields_requireExpression _).advances fun _ => ?_
  refine .after (moves_requireKeyword _).advances fun _ => ?_
  refine .after moves_requireTerminator.advise.advances fun _ => ?_
  exact hb.andThen hb'.advances fun _ => .refl _

theorem caseBlock_congr : caseBlock block inside c = caseBlock block' inside c := by
  rw [← Cursor.skipBlanks_skipBlanks c] at hb
  refine spanned_congr (keyword_andThen_congr ?_)
  refine .after (moves_unlessKeyword _).advances fun _ => ?_
  refine .after (yields_caseClause.separated yields_caseClause).advances fun _ => ?_
  refine .after moves_requireTerminator.advances fun _ => ?_
  exact hb.andThen hb'.advances fun _ => .refl _

omit hb' in
theorem elseBlock_congr : elseBlock block inside c = elseBlock block' inside c := by
  refine keyword_andThen_congr ?_
  refine .after (moves_keyword _).advances fun _ => ?_
  exact .after moves_requireTerminator.advances fun _ => hb

theorem whileLoop_congr : whileLoop block inside c = whileLoop block' inside c := by
  rw [← Cursor.skipBlanks_skipBlanks c] at hb
  refine sentence_congr (keyword_andThen_congr ?_)
  refine .after (yields_requireExpression _).advances fun _ => ?_
  refine .after moves_requireTerminator.advances fun _ => ?_
  exact hb.andThen hb'.advances fun _ => .refl _

theorem doLoop_congr : doLoop block inside c = doLoop block' inside c := by
  rw [← Cursor.skipBlanks_skipBlanks c] at hb
  refine sentence_congr (keyword_andThen_congr ?_)
  refine .after yields_loopTest.optToken.advances fun _ => ?_
  refine .after moves_requireTerminator.advances fun _ => ?_
  exact hb.andThen hb'.advances fun _ => .refl _

theorem forLoop_congr : forLoop block inside c = forLoop block' inside c := by
  rw [← Cursor.skipBlanks_skipBlanks c] at hb
  refine sentence_congr (keyword_andThen_congr ?_)
  exact (forEachLoop_agree hb' hb).orElse (countingLoop_agree hb' hb)

theorem conditional_congr : conditional block inside c = conditional block' inside c := by
  rw [← Cursor.skipBlanks_skipBlanks c] at hb
  refine sentence_congr (andThen_congr (branch_congr hb' hb _) (yields_branch hb' _).moves
    fun _ => ?_)
  have hothers : Agree c.skipBlanks.skipBlanks.rest.length (branch block .ElseIf)
      (branch block' .ElseIf) := fun _ _ hd => branch_congr hb' (hb.later hd) _
  have hotherwise : Agree c.skipBlanks.skipBlanks.rest.length (requireTerminator *> block)
      (requireTerminator *> block') := .after moves_requireTerminator.advances fun _ => hb
  have hword : Agree c.skipBlanks.skipBlanks.rest.length (after .Else (requireTerminator *> block))
      (after .Else (requireTerminator *> block')) :=
    Agree.opt (.after (moves_keyword _).advances fun _ => hotherwise)
      ((moves_keyword _).seqRight (moves_requireTerminator.seqRight hb')).advances
  refine hothers.many.andThen (yields_branch hb' _).manyReaches.advances fun _ => ?_
  refine .after advances_mark fun _ => ?_
  refine hword.andThen ((moves_keyword .Else).seqRight
    (moves_requireTerminator.seqRight hb')).optReaches.advances fun _ => ?_
  exact .refl _

theorem withBlock_congr : withBlock block inside c = withBlock block' inside c := by
  rw [← Cursor.skipBlanks_skipBlanks c] at hb
  refine sentence_congr (keyword_andThen_congr ?_)
  refine .after (yields_requireReference _).advances fun _ => ?_
  refine .after moves_requireTerminator.advances fun _ => ?_
  exact hb.andThen hb'.advances fun _ => .refl _

theorem select_congr : select block inside c = select block' inside c := by
  rw [← Cursor.skipBlanks_skipBlanks c] at hb
  have hcases : Agree c.skipBlanks.skipBlanks.rest.length (caseBlock block) (caseBlock block') :=
    fun _ _ hd => caseBlock_congr hb' (hb.later hd)
  have hotherwise : Agree c.skipBlanks.skipBlanks.rest.length (elseBlock block)
      (elseBlock block') :=
    fun _ _ hd => elseBlock_congr (hb.later hd)
  refine sentence_congr (keyword_andThen_congr ?_)
  refine .after (moves_requireKeyword _).advances fun _ => ?_
  refine .after (yields_requireExpression _).advances fun _ => ?_
  refine .after moves_requireTerminator.advances fun _ => ?_
  refine .after moves_skipTrivia.advances fun _ => ?_
  refine hcases.many.andThen (yields_caseBlock hb').manyReaches.advances fun _ => ?_
  refine .after advances_mark fun _ => ?_
  refine (hotherwise.opt (yields_elseBlock hb').advances).andThen
    (yields_elseBlock hb').optReaches.advances fun _ => ?_
  exact .refl _

theorem codeStatement_congr (word : Option Keyword) :
    codeStatement block word inside c = codeStatement block' word inside c := by
  unfold codeStatement
  split
  case h_13 => exact whileLoop_congr hb' hb
  case h_14 => exact doLoop_congr hb' hb
  case h_15 => exact forLoop_congr hb' hb
  case h_16 => exact conditional_congr hb' hb
  case h_17 => exact withBlock_congr hb' hb
  case h_18 => exact select_congr hb' hb
  all_goals rfl

end Compound

theorem statementWith_congr {inner : Parse Statement} {inside : List Construct} {c : Cursor}
    (h : Agree c.skipBlanks.rest.length inner statement) :
    statementWith inner inside c = statementWith statement inside c := by
  have hcode : codeStatement (many inner) c.peekKeyword inside c =
      codeStatement (many statement) c.peekKeyword inside c :=
    codeStatement_congr yields_block h.many _
  have hchoice {p q p' q' : Parse Statement} (hp : p inside c = p' inside c)
      (hq : q inside c = q' inside c) : p.orElse q inside c = p'.orElse q' inside c := by
    rw [orElse, orElse, hp, hq]
  exact hchoice rfl (hchoice rfl (hchoice hcode rfl))

theorem statement_eq : statement = statementWith statement := by
  funext inside c
  calc
    statement inside c = statementWith (fun inner d =>
        if d.rest.length < c.rest.length then statement inner d else .unmatched) inside c := by
      rw [statement, fix]
    _ = statementWith statement inside c := statementWith_congr fun _ _ hd =>
      if_pos (Nat.lt_of_lt_of_le hd (Cursor.reaches_skipBlanks c).length_le)

end Grammar

end VisualBasic
