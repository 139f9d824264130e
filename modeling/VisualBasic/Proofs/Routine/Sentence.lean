import VisualBasic.Proofs.Parse.Loop
import VisualBasic.Proofs.Routine.Guide

/-!
# Tokens and sentences under a guide

Routines for tokens, for the parts that fail where they are missing, for repetitions and for
sentences are followed by the parsers of the same parts.
-/

set_option autoImplicit false

namespace VisualBasic

namespace Guide

open Pairing (rel_mono rel_map rel_or)

variable {G : Guide} {α β γ σ : Type} {miss other : Miss} {m m' : Routine α} {p p' : Parse α}
  {V W : α → α → Prop} {U : β → β → Prop} {f : α → Routine β} {q : α → Parse β}
  {g : Relabel → α → γ} {s : Session}

/-! ## Tokens -/

theorem passes_adjacent {char : Char} (hc : isSymbolic char = true) :
    G.Passes (Scanner.adjacent char) (Cursor.adjacent char) :=
  passes_of_run (Scanner.run_adjacent char) fun _ _ hcd => Alignment.adjacent hcd hc

theorem passes_symbol {char : Char} (hc : isSymbolic char = true) :
    G.Passes (Scanner.symbol char) (Cursor.symbol char) :=
  passes_of_run (Scanner.run_symbol char) fun _ _ hcd =>
    Alignment.adjacent (G.skipBlanks hcd) hc

theorem passes_keyword (k : Keyword) : G.Passes (Scanner.keyword k) (Cursor.keyword k) :=
  passes_of_run (Scanner.run_keyword k) fun _ _ hcd => Alignment.keyword hcd k

/-- Some comment begins where none may, or all of them begin where they may. -/
theorem begins_or (G : Guide) (notes : List Nat) :
    (∃ n ∈ notes, ¬ G.begins n) ∨ ∀ n ∈ notes, G.begins n := by
  by_cases h : ∃ n ∈ notes, ¬ G.begins n
  · exact .inl h
  · exact .inr fun n hn => Classical.byContradiction fun hb => h ⟨n, hn, hb⟩

theorem passes_lineEnd : G.Passes Scanner.lineEnd Cursor.lineEnd := by
  intro c d hcd
  have hrun := Scanner.run_lineEnd c
  rcases G.begins_or (Scanner.commentOffsets c) with ⟨n, hn, hb⟩ | hb
  · left
    refine ⟨n, ?_, hb⟩
    rw [hrun]
    exact List.mem_append_left _ hn
  · right
    exact ⟨_, _, hrun, Alignment.lineEnd hcd hb⟩

/-- A colon ends a statement before a comment is looked for. -/
theorem passes_terminator : G.Passes Scanner.terminator Cursor.terminator := by
  intro c d hcd
  have hrun := Scanner.run_terminator c
  have hcolon : Option.Rel G.meets (c.symbol ':') (d.symbol ':') :=
    Alignment.adjacent (G.skipBlanks hcd) (by decide)
  cases hc : c.symbol ':' with
  | some e =>
    right
    refine ⟨_, _, hrun, ?_⟩
    rw [hc] at hcolon
    unfold Cursor.terminator
    rw [hc]
    generalize d.symbol ':' = y at hcolon ⊢
    cases hcolon with
    | some hmeets => exact .some hmeets
  | none =>
    rcases G.begins_or (Scanner.commentOffsets c) with ⟨n, hn, hb⟩ | hb
    · left
      refine ⟨n, ?_, hb⟩
      rw [hrun, hc]
      exact List.mem_append_left _ hn
    · right
      exact ⟨_, _, hrun, Alignment.terminator hcd hb⟩

theorem takes_identifier : G.Takes Scanner.identifier Cursor.identifier :=
  takes_of_run Scanner.run_identifier fun _ _ hcd => Alignment.identifier hcd

theorem takes_number : G.Takes Scanner.number Cursor.number :=
  takes_of_run Scanner.run_number fun _ _ hcd => Alignment.number hcd

theorem takes_quoted : G.Takes Scanner.quoted Cursor.quoted :=
  takes_of_run Scanner.run_quoted fun _ _ hcd => Alignment.string hcd

theorem takes_relation : G.Takes Scanner.relation Cursor.relation :=
  takes_of_run Scanner.run_relation fun _ _ hcd => Alignment.relation hcd

theorem takes_oneOf (table : List (Keyword × α)) :
    G.Takes (Scanner.oneOf table) (Scanner.tableReader table) := by
  refine takes_of_run (Scanner.run_oneOf table) fun c d hcd => ?_
  unfold Scanner.tableReader
  induction table with
  | nil => exact .none
  | cons entry rest ih =>
    have hkeyword : Option.Rel G.meets (c.keyword entry.1) (d.keyword entry.1) :=
      Alignment.keyword hcd entry.1
    rw [List.findSome?_cons, List.findSome?_cons]
    generalize c.keyword entry.1 = x at hkeyword ⊢
    generalize d.keyword entry.1 = y at hkeyword ⊢
    cases hkeyword with
    | none => exact ih
    | some hmeets => exact .some ⟨rfl, hmeets⟩

theorem tracks_oneOf (table : List (Keyword × α)) :
    G.Tracks .kept (Routine.found (Scanner.oneOf table)) (Parse.oneOf table) Eq := by
  rw [Scanner.oneOf_eq_read]
  exact (takes_oneOf table).found

theorem tracks_optOneOf (table : List (Keyword × α)) :
    G.Tracks .never (Routine.scan (Scanner.oneOf table)) (Parse.opt (Parse.oneOf table)) Eq := by
  rw [Scanner.oneOf_eq_read]
  exact (takes_oneOf table).opt

/-- A routine that takes what a reader meets, followed by a reader that meets the like. -/
theorem tracks_reads {reader follower : Reader α} (h : Routine.Reads m reader)
    (hreads : ∀ c d, G.meets c d →
      Option.Rel (fun found found' => V found.1 found'.1 ∧ G.meets found.2 found'.2) (reader c)
        (follower d)) : G.Tracks .kept m (Parse.read follower) V := by
  intro s inside d hin hcd
  have hrel := hreads s.cursor d hcd
  rw [h s]
  unfold Parse.read
  generalize reader s.cursor = x at hrel ⊢
  generalize follower d = y at hrel ⊢
  cases hrel with
  | none => exact .unmatched (c := s.cursor) rfl
  | some hfound => exact .matched hfound.1 hfound.2

/-! ## What must be there -/

/-- Advice is given where an alternative that never fails is not met. -/
theorem advise_orElse {p q : Parse α} (advise : Failure → Failure)
    (h : ∀ inside c failure, p inside c ≠ .failed failure) :
    Parse.advise advise (p.orElse q) = p.orElse (Parse.advise advise q) := by
  funext inside c
  simp only [Parse.advise, Parse.orElse]
  cases hp : p inside c with
  | matched value after => rfl
  | unmatched => rfl
  | failed failure => exact absurd hp (h inside c failure)

theorem read_ne_failed (reader : Reader α) (inside : List Construct) (c : Cursor)
    (failure : Failure) :
    Parse.read reader inside c ≠ .failed failure := by
  unfold Parse.read
  split <;> simp

theorem pass_ne_failed (token : Cursor → Option Cursor) (inside : List Construct) (c : Cursor)
    (failure : Failure) : Parse.pass token inside c ≠ .failed failure := by
  unfold Parse.pass
  split <;> simp

/-- A failure at the next token, with what may help. -/
theorem tracks_advised {expected : Expected} {advise : Failure → Failure}
    (hstopped : ∀ failure, (advise failure).stopped = failure.stopped)
    (h : ∀ s, m.run s = ⟨.failed (s.diagnose (advise
      ⟨s.inside.headD .module, expected, s.cursor.skipBlanks, none, none, s.cursor⟩)), s, []⟩) :
    G.Tracks miss m (Parse.advise advise (Parse.fail expected)) V := by
  intro s inside d hin hcd
  rw [h]
  refine .failed (c := s.cursor) fun he => ?_
  rw [hin he, G.eq_of_isExact he hcd, hstopped]
  exact ⟨rfl, rfl⟩

theorem tracks_expectKeyword (k : Keyword) :
    G.Tracks .never (Routine.expectKeyword k) (Parse.requireKeyword k) Eq := by
  rw [Parse.requireKeyword, Parse.require, Parse.keyword, advise_orElse _ (pass_ne_failed _)]
  refine (passes_keyword k).met.orElse (tracks_advised (fun failure => ?_) fun s => ?_)
  · unfold Parse.suggestNearMiss
    split <;> rfl
  · simp only [Routine.run_bind, Routine.run_error, Parsed.matched_andThen, Parsed.after_nil,
      Routine.run_scan, Scanner.run_peekWord, Routine.run_if, Routine.run_raise,
      Parse.suggestNearMiss, Cursor.peekWord_skipBlanks]
    split <;> rfl

theorem tracks_expectName (part : String) :
    G.Tracks .never (Routine.expectName part) (Parse.requireName part) Eq := by
  rw [Parse.requireName, Parse.require, Parse.identifier, advise_orElse _ (read_ne_failed _)]
  refine takes_identifier.found.orElse (tracks_advised (fun failure => ?_) fun s => ?_)
  · unfold Parse.explainReservedWord
    split <;> rfl
  · simp only [Routine.run_bind, Routine.run_error, Parsed.matched_andThen, Parsed.after_nil,
      Routine.run_scan, Scanner.run_peekWord, Parse.explainReservedWord, Cursor.peekWord_skipBlanks]
    cases s.cursor.peekWord.filter isReservedWord <;> rfl

theorem tracks_expectSymbol {char : Char} (hc : isSymbolic char = true) :
    G.Tracks .never (Routine.expectSymbol char) (Parse.requireSymbol char) Eq :=
  (passes_symbol hc).met.require _

theorem tracks_expectTerminator :
    G.Tracks .never Routine.expectTerminator Parse.requireTerminator Eq :=
  passes_terminator.met.require _

theorem tracks_expectQuoted (part : String) :
    G.Tracks .never (Routine.expectQuoted part) (Parse.requireQuoted part) Eq :=
  takes_quoted.found.require _

theorem tracks_expectEnd (k : Keyword) :
    G.Tracks .never (Routine.expectEnd k) (Parse.requireEnd k) Eq :=
  ((passes_keyword .End).met.require _).nextNever fun _ => tracks_expectKeyword k

theorem tracks_expectNumber (expected : Expected) (meaning : Literal → Option α) :
    G.Tracks .never (Routine.expectNumber expected meaning) (Parse.requireNumber expected meaning)
      Eq := by
  refine tracks_nextToken.thenNever fun token token' htoken => ?_
  refine takes_number.opt.nextNever fun number => ?_
  cases number.bind meaning with
  | some value => exact tracks_pure rfl
  | none => exact tracks_failAt .never expected htoken

/-! ## Repetitions -/

/-- Two turns that come to the like. -/
inductive Turned (V : σ → σ → Prop) : ForInStep σ → ForInStep σ → Prop
  | done {v w : σ} (value : V v w) : Turned V (.done v) (.done w)
  | yield {v w : σ} (value : V v w) : Turned V (.yield v) (.yield w)

theorem Tracks.loop {turn : σ → Routine (ForInStep σ)} {turn' : σ → Parse (ForInStep σ)}
    {V : σ → σ → Prop} (h : ∀ v w, V v w → G.Tracks .never (turn v) (turn' w) (Turned V)) {v w : σ}
    (hv : V v w) : G.Tracks .never (Routine.loop turn v) (Parse.loop turn' w) V := by
  intro s inside d hin hcd
  change G.Follows .never V s (Routine.loopFrom turn v s) (Parse.loop turn' w inside d)
  induction hn : s.cursor.rest.length using Nat.strongRecOn generalizing v w s d with
  | _ n ih =>
    have hturn := h v w hv s inside d hin hcd
    rw [Routine.loopFrom, Parse.loop]
    generalize (turn v).run s = run at hturn ⊢
    generalize turn' w inside d = outcome at hturn ⊢
    cases hturn with
    | excused met hb => exact .excused (Parsed.mem_comments_andThen _ met) hb
    | unmatched allows => exact allows.elim
    | failed alike => exact .failed alike
    | @matched step step' c' d' notes value meets =>
      rw [Parsed.matched_andThen]
      apply Follows.after
      cases value with
      | done value => exact .matched value meets
      | yield value =>
        have hshorter := G.shorter_iff hcd meets
        dsimp only
        split
        · rename_i hlt
          rw [if_pos (hshorter.mp hlt)]
          exact (ih c'.rest.length (by omega) value { s with cursor := c' } d' hin meets rfl).back
            fun _ h => h.elim
        · rename_i hle
          rw [if_neg fun hlt => hle (hshorter.mpr hlt)]
          exact .matched value meets

theorem Tracks.collectTurn {part : Routine (Option α)} {p : Parse (Option α)}
    (h : G.Tracks .never part p (G.On fun r => Option.map (g r))) {before before' : List α}
    (hbefore : G.On (fun r => List.map (g r)) before before') :
    G.Tracks .never (Routine.collectTurn part before) (Parse.collectTurn p before')
      (Turned (G.On fun r => List.map (g r))) := by
  refine h.thenNever fun found found' hfound => ?_
  have hbefore : before.map (g G.labels) = before'.map (g G.labels) := hbefore
  have hfound : found.map (g G.labels) = found'.map (g G.labels) := hfound
  cases found <;> cases found' <;> simp only [Option.map_none, Option.map_some, reduceCtorEq,
    Option.some.injEq] at hfound
  · exact tracks_pure (.done hbefore)
  · refine tracks_pure (.yield ?_)
    simp only [On, List.map_append, List.map_cons, List.map_nil, hbefore, hfound]

/-- What is collected as long as a part gives something. -/
theorem Tracks.collect {part : Routine (Option α)} {p : Parse α}
    (h : G.Tracks .never part (Parse.opt p) (G.On fun r => Option.map (g r))) :
    G.Tracks .never (Routine.collect part) (Parse.many p) (G.On fun r => List.map (g r)) := by
  have hmany : Parse.many p = Parse.loop (Parse.collectTurn (Parse.opt p)) [] := by
    simp [Parse.loop_collectTurn]
  rw [hmany]
  exact Tracks.loop (fun before before' => h.collectTurn) rfl

/-- A part that uses itself where less text is left. -/
theorem Tracks.recurse {body : Routine α → Routine α} {step : Parse α → Parse α}
    {R : Cursor → Cursor → Prop} {view : α → List Region}
    (hfix : Parse.Yields (Parse.fix step) R view)
    (h : ∀ m p, G.Tracks .kept m p V → Parse.Yields p R view → G.Tracks .kept (body m) (step p) V) :
    G.Tracks .kept (Routine.recurse body) (Parse.fix step) V := by
  intro s inside d hin hcd
  change G.Follows .kept V s (Routine.recurseFrom body s) (Parse.fix step inside d)
  induction hn : s.cursor.rest.length using Nat.strongRecOn generalizing s inside d with
  | _ n ih =>
    rw [Routine.recurseFrom, Parse.fix]
    refine h _ _ (fun t inner e hin' hte => ?_) (fun inner e value after hm => ?_) s
      inside d hin hcd
    · have hshorter := G.shorter_iff hcd hte
      dsimp only
      split
      · rename_i hlt
        rw [if_pos (hshorter.mp hlt)]
        exact ih _ (by omega) t inner e hin' hte rfl
      · rename_i hle
        rw [if_neg fun hlt => hle (hshorter.mpr hlt)]
        exact .unmatched (c := t.cursor) rfl
    · split at hm
      · exact hfix inner e value after hm
      · contradiction

theorem On.eq_of_map {v w : Option α} (h : G.On (fun r => Option.map (Relabel.plain r)) v w) :
    v = w := by
  simpa [On] using h

theorem Tracks.attemptSame (h : G.Tracks .kept m p Eq) :
    G.Tracks .never (Routine.attempt m) (Parse.opt p) Eq :=
  (Tracks.attempt (g := Relabel.plain) h).mono fun _ _ => On.eq_of_map

theorem Passes.optionalSame {token : Scanner Bool} {next : Cursor → Option Cursor}
    (h : G.Passes token next) (hm : G.Tracks .never m p Eq) :
    G.Tracks .never (Routine.optional token m) (Parse.opt (Parse.pass next *> p)) Eq :=
  (h.optional (g := Relabel.plain) hm).mono fun _ _ => On.eq_of_map

theorem Tracks.collectSame {part : Routine (Option α)} {p : Parse α}
    (h : G.Tracks .never part (Parse.opt p) Eq) :
    G.Tracks .never (Routine.collect part) (Parse.many p) Eq := by
  have hplain : G.Tracks .never part (Parse.opt p) (G.On fun r => Option.map (Relabel.plain r)) :=
    h.mono fun _ _ => congrArg _
  refine hplain.collect.mono fun v w hvw => ?_
  simpa [On] using hvw

/-- Parts with commas between them. -/
theorem Tracks.separated {first next : Routine α} {p p' : Parse α}
    (hf : G.Tracks miss first p (G.On g))
    (hn : G.Tracks .never next p' (G.On g)) :
    G.Tracks miss (Routine.separated first next) (Parse.separated p p')
      (G.On fun r => List.map (g r)) := by
  refine hf.thenNever fun head head' hhead => ?_
  refine ((passes_symbol (by decide)).optional hn).collect.map fun tail tail' htail => ?_
  have hhead : g G.labels head = g G.labels head' := hhead
  have htail : tail.map (g G.labels) = tail'.map (g G.labels) := htail
  rw [On, List.map_cons, List.map_cons, hhead, htail]

/-! ## Spans -/

theorem Tracks.spanFrom {start start' : Cursor} (h : G.meets start start') {f : Span → Routine β}
    (q : Span → Parse β)
    (hf : ∀ span place, G.labels.span span = G.labels.span place →
      G.Tracks miss (f span) (q place) U) :
    G.Tracks miss (Routine.spanFrom start >>= f)
      (Parse.here >>= fun stop => q (start'.spanTo stop)) U := by
  intro s inside d hin hcd
  rw [Routine.run_bind, Routine.run_spanFrom, Parsed.matched_andThen, Parsed.after_nil]
  exact hf _ _ (G.merges h hcd) s inside d hin hcd

/-- What a parser builds over the span of a sentence. -/
theorem Tracks.sentence {body : Routine (Span → α)} {p : Parse (Span → α)} (construct : Construct)
    (h : G.Tracks .loose body p (G.Spanwise g)) :
    G.Tracks .kept (Routine.sentence construct body) (Parse.sentence construct p) (G.On g) := by
  refine Tracks.rule ?_ construct
  simp only [Parse.spanned, bind_assoc, pure_bind]
  apply tracks_mark.andThen
  intro start start' hstart
  apply h.andThen
  intro build build' hbuild
  apply Tracks.spanFrom hstart.1 fun span => Parse.requireTerminator >>= fun _ => pure (build' span)
  intro span place hspan
  exact tracks_expectTerminator.nextNever fun _ => tracks_pure (hbuild span place hspan)

/-! ## Comments and empty lines -/

/-- A comment is taken with the end of its line, or the session is where it was. -/
theorem run_comment (s : Session) : Routine.comment.run s =
    (Parsed.taken (Grammar.comment s.cursor) s).after (Scanner.commentOffsets s.cursor) := by
  have hcomment := Scanner.run_comment s.cursor.skipBlanks
  rw [Scanner.commentOffsets_skipBlanks, Scanned.taken] at hcomment
  simp only [Routine.comment, Routine.run_bind, Routine.run_place, Routine.run_mark,
    Routine.run_scan, hcomment, Parsed.matched_andThen, Parsed.after_nil, Grammar.comment]
  cases s.cursor.skipBlanks.comment with
  | none => simp [Scanned.after, Parsed.after]
  | some found =>
    obtain ⟨content, d⟩ := found
    cases hbreak : d.lineBreak with
    | some e =>
      simp [Scanned.after, Parsed.after, Routine.run_scan, Scanned.passed,
        Cursor.breakOrEnd, hbreak]
    | none =>
      by_cases hend : d.isAtEnd = true <;>
        simp [Scanned.after, Parsed.after, Routine.run_scan, Scanned.passed, Cursor.breakOrEnd,
          hbreak, hend]

theorem tracks_comment :
    G.Tracks .kept Routine.comment (Parse.read Grammar.comment) (G.On Comment.relabel) := by
  intro s inside d hin hcd
  rw [run_comment]
  rcases G.begins_or (Scanner.commentOffsets s.cursor) with ⟨n, hn, hb⟩ | hb
  · exact .excused (List.mem_append_left _ hn) hb
  · have hreads := Alignment.comment_reads hcd hb G.merges
    apply Follows.after
    unfold Parse.read
    generalize Grammar.comment s.cursor = x at hreads ⊢
    generalize Grammar.comment d = y at hreads ⊢
    cases hreads with
    | none => exact .unmatched (c := s.cursor) rfl
    | some hfound => exact .matched hfound.1 hfound.2.1

theorem reads_emptyLine : Routine.Reads Routine.emptyLine Grammar.emptyLine := by
  intro s
  simp only [Routine.emptyLine, Routine.run_bind, Routine.run_place, Parsed.matched_andThen,
    Parsed.after_nil, Routine.reads_met Scanner.run_blankLine s, Grammar.emptyLine]
  cases s.cursor.blankLine <;> simp

theorem tracks_emptyLine :
    G.Tracks .kept Routine.emptyLine (Parse.read Grammar.emptyLine) (G.On EmptyLine.relabel) := by
  refine tracks_reads reads_emptyLine fun c d hcd => ?_
  refine rel_map (G.blankLine hcd) fun e f hef => ⟨?_, hef⟩
  exact congrArg EmptyLine.mk (G.merges hcd hef)

theorem tracks_triviaLine :
    G.Tracks .kept Routine.triviaLine Grammar.triviaLine (G.On Relabel.plain) :=
  (tracks_comment.thenNever fun _ _ _ => tracks_pure rfl).orElse
    (tracks_emptyLine.thenNever fun _ _ _ => tracks_pure rfl)

theorem tracks_skipTrivia : G.Tracks .never Routine.skipTrivia Grammar.skipTrivia Eq :=
  tracks_triviaLine.attempt.collect.thenNever fun _ _ _ => tracks_pure rfl

/-! ## Literals and expressions -/

/-- What is met at paired places, up to the labels. -/
def lexicon (G : Guide) : Lexicon := .aligned G.toAlignment G.merges

theorem clear {c d : Cursor} (h : G.meets c d) : Grammar.Clear G.lexicon c d :=
  Grammar.clear_of_alive (fun _ h => h.elim) (Alignment.alive_iff.mpr h)

theorem tracks_agrees {reader : Reader α} (h : Routine.Reads m reader)
    (hreads : Grammar.Agrees G.lexicon reader reader (G.lexicon.On g)) :
    G.Tracks .kept m (Parse.read reader) (G.On g) :=
  tracks_reads h fun c d hcd => rel_mono (fun _ _ hfound => ⟨hfound.1, hfound.2.1⟩)
    (hreads c d (clear hcd))

theorem tracks_literal :
    G.Tracks .kept Routine.literal (Parse.read Grammar.literal) (G.On Literal.relabel) :=
  tracks_agrees Routine.reads_literal fun _ _ hcd => Grammar.literal_reads hcd.1

theorem tracks_expression :
    G.Tracks .kept Routine.expression (Parse.read Grammar.expression) (G.On Expression.relabel) :=
  tracks_agrees Routine.reads_expression Grammar.expression_agrees

theorem tracks_anyReference :
    G.Tracks .kept Routine.anyReference Grammar.anyReference (G.On Reference.relabel) :=
  tracks_agrees Routine.reads_anyReference
    (Grammar.reference_agrees Grammar.expression_lays Grammar.expression_lays
      Grammar.expression_agrees)

theorem tracks_expectExpression (part : String) :
    G.Tracks .never (Routine.expectExpression part) (Grammar.requireExpression part)
      (G.On Expression.relabel) := tracks_expression.require _

theorem tracks_expectReference (part : String) :
    G.Tracks .never (Routine.expectReference part) (Grammar.requireReference part)
      (G.On Reference.relabel) := tracks_anyReference.require _

theorem tracks_expressionList :
    G.Tracks .kept Routine.expressionList Grammar.expressionList
      (G.On fun r => List.map (Expression.relabel r)) :=
  tracks_expression.separated (tracks_expectExpression _)

end Guide

end VisualBasic
