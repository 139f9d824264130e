import VisualBasic.Proofs.Writing.Block

/-!
# Reading blocks back

Each rule of a compound statement reads the text of the statement, given a parser that reads the
text of the blocks inside it before any word that closes a block. From this every statement and
every block is read back, by induction on the tree.
-/

set_option autoImplicit false

namespace VisualBasic

variable {wide : Bool} {text token rest : List Char}

namespace Grammar

open Parse

/-- A block's text is read back before whatever closes the block. -/
def ReadsBlock (wide : Bool) (block : Parse (List Statement)) (body : List Statement) : Prop :=
  ∀ rest, ClosesBlock rest →
    Accepts block (writeBlock wide body rest) rest (UpToSpans relabelBlock body)

/-- No statement starts with a word that closes a block. -/
theorem refuses_statement (h : ClosesBlock text) : Refuses statement text := by
  obtain ⟨k, hbegins, hreserved, hword⟩ := h
  intro inside c hc
  obtain ⟨word, hpeek, hlookup⟩ := Option.bind_eq_some_iff.mp (hbegins.peekKeyword hc)
  have hrem : spells .Rem text = false := hbegins.spells_eq_false fun hk => by
    cases hk
    contradiction
  refine (statement_eq_unmatched_iff inside c).mpr ⟨?_, ?_, ?_⟩
  · exact stays_commentMark hbegins.solid.here hbegins.unmarked hrem c hc
  · simpa [emptyLine] using hbegins.misses_emptyLine c hc
  · simp [Cursor.beginsStatement, hpeek, hlookup, hword, isReservedWord, hreserved]

/-- A statement that is told from its first word. -/
theorem accepts_statement_of_code {word : Option Keyword} {V : Statement → Prop}
    (hbegins : Begins text word) (hword : word ≠ some .Rem)
    (h : Accepts (codeStatement block word) text rest V) : Accepts statement text rest V := by
  rw [statement_eq]
  refine ((refuses_read (hbegins.misses_comment hword)).map _).second ?_
  refine ((refuses_read hbegins.misses_emptyLine).map _).second (Accepts.first ?_ _)
  intro inside c hc
  dsimp only
  rw [hbegins.peekKeyword hc]
  exact h inside c hc

theorem accepts_comment {note : Comment} (h : isUnbroken note.content = true) (rest : List Char) :
    Accepts (read comment) (note.write rest) rest (UpToSpans Comment.relabel note) := by
  obtain ⟨content, span⟩ := note
  refine accepts_read fun c hc => ?_
  have hl := (solid_cons (content.toList ++ '\n' :: rest) (c := '\x27') rfl (by decide)).here
  have htoken := Cursor.rest_skipBlanks hl hc
  obtain ⟨body, hmark, hbody⟩ := passes_adjacent '\x27' c.skipBlanks htoken
  have hline : body.rest.takeWhile (! isBreak ·) = content.toList := by
    rw [hbody]
    exact takeWhile_append_cons (List.all_eq_true.mp h) rfl rest
  have hend : body.toLineEnd.rest = '\n' :: rest := by
    rw [Cursor.toLineEnd, Cursor.rest_skip, hline, hbody, List.drop_left]
  have hcontent : body.textTo body.toLineEnd = content := by
    rw [Cursor.textTo, hend, hbody]
    simp
  have hfound : c.skipBlanks.comment = some (content, body.toLineEnd) := by
    rw [Cursor.comment, Cursor.commentMark, Cursor.skipBlanks_skipBlanks, hmark, Option.some_or,
      Option.map_some, hcontent]
  obtain ⟨after, hbreak, hafter⟩ := passes_lineBreak rest _ hend
  refine ⟨⟨content, c.skipBlanks.spanTo body.toLineEnd⟩, after, ?_, hafter, rfl⟩
  simp [comment, hfound, Cursor.breakOrEnd, hbreak]

theorem accepts_emptyLine (span : Span) (rest : List Char) :
    Accepts (read emptyLine) ('\n' :: rest) rest (UpToSpans EmptyLine.relabel ⟨span⟩) := by
  refine accepts_read fun c hc => ?_
  obtain ⟨after, hbreak, hafter⟩ := passes_lineBreak rest c hc
  refine ⟨⟨c.spanTo after⟩, after, ?_, hafter, rfl⟩
  have hblank : c.blankLine = some after := by
    rw [Cursor.blankLine, hc]
    exact hbreak
  rw [emptyLine, hblank, Option.map_some]

/-! ## Conditions and clauses -/

theorem takes_expression {e : Expression} (h : e.isPrintable = true)
    (hl : Leads text (e.write wide rest)) (hr : Delimits rest) (part : String) :
    Accepts (requireExpression part) text rest (UpToSpans Expression.relabel e) :=
  (accepts_read (takes_expression_write e h hl hr)).require _

theorem accepts_loopTest {test : LoopTest} (h : test.condition.isPrintable = true)
    (hl : Leads text (test.write wide ('\n' :: rest))) :
    Accepts loopTest text ('\n' :: rest) (UpToSpans LoopTest.relabel test) := by
  obtain ⟨isWhile, condition⟩ := test
  have hword : List.lookup (if isWhile then Keyword.While else .Until)
      [(.While, true), (.Until, false)] = some isWhile := by
    cases isWhile <;> rfl
  refine (accepts_oneOf hword hl rfl).known ?_
  refine (accepts_requireExpression h _ (delimits_newline rest)).andThen fun found hfound => ?_
  refine accepts_pure ?_
  simp only [UpToSpans] at hfound
  simp only [UpToSpans, LoopTest.relabel, hfound]

theorem noWord_writeTest (wide : Bool) (test : Option LoopTest) (rest : List Char) :
    NoWord (writeTest wide test ('\n' :: rest)) := by
  cases test <;> rfl

theorem accepts_optTest {test : Option LoopTest} (h : test.all (·.condition.isPrintable) = true)
    (rest : List Char) :
    Accepts (opt loopTest) (writeTest wide test ('\n' :: rest)) ('\n' :: rest) fun found =>
      found.map (LoopTest.relabel .erase) = test.map (LoopTest.relabel .erase) := by
  cases test with
  | none =>
    have hno : Refuses (oneOf [(.While, true), (.Until, false)]) ('\n' :: rest) :=
      refuses_oneOf (solid_newline rest).here fun entry _ => spells_cons_eq_false entry.1 rest rfl
    exact (hno.andThen _).opt.weaken fun _ h => by rw [h]
  | some test =>
    refine (accepts_loopTest h (Keyword.solid_write _ _).space).opt.weaken ?_
    rintro _ ⟨found, rfl, hfound⟩
    exact congrArg some hfound

theorem takes_relation (relation : Relation) (rest : List Char) :
    Takes Cursor.relation (' ' :: (relation.sign ++ ' ' :: rest)) (' ' :: rest)
      fun found => found = relation := by
  intro c hc
  have hhead : ∃ char tail, relation.sign = char :: tail ∧ isBlank char = false ∧ char ≠ '_' := by
    cases relation <;> exact ⟨_, _, rfl, rfl, by decide⟩
  obtain ⟨char, tail, hsign, hblank, hne⟩ := hhead
  have hsolid : Solid (relation.sign ++ ' ' :: rest) := by
    rw [hsign]
    exact solid_cons _ hblank hne
  have htoken := Cursor.rest_skipBlanks hsolid.space hc
  refine ⟨relation, c.skipBlanks.skip relation.sign.length, ?_, ?_, rfl⟩
  · unfold Cursor.relation Cursor.exactly
    simp only [htoken]
    cases relation <;> simp [Relation.sign, Operator.symbols, Operator.relation?]
  · rw [Cursor.rest_skip, htoken, List.drop_left]

theorem accepts_caseClause {clause : CaseClause} (h : clause.isPrintable = true)
    (hl : Leads text (clause.write wide rest)) (hr : Halts rest) :
    Accepts caseClause text rest (UpToSpans CaseClause.relabel clause) := by
  cases clause with
  | value subject =>
    have hno := refuses_keyword hl (subject.spells_write h (k := .Is) (by decide) wide hr.noWord)
    refine (hno.andThen _).second ?_
    refine (takes_expression h hl hr.toDelimits _).andThen fun found hfound => ?_
    refine (accepts_after_none (hr.stays_keyword .To) _).known (accepts_pure ?_)
    exact congrArg CaseClause.value hfound
  | range first last =>
    obtain ⟨hfirst, hlast⟩ := Bool.and_eq_true_iff.mp h
    have hno := refuses_keyword hl (first.spells_write hfirst (k := .Is) (by decide) wide
      (noWord_space _))
    have hupper : Accepts (requireExpression "expression") (' ' :: last.write wide rest) rest
        (UpToSpans Expression.relabel last) := accepts_requireExpression hlast _ hr.toDelimits
    refine (hno.andThen _).second ?_
    refine (takes_expression hfirst hl (delimits_keyword .To _) _).andThen fun found hfound => ?_
    refine (accepts_after (Keyword.To.solid_write (' ' :: _)).space rfl hupper).andThen ?_
    rintro _ ⟨other, rfl, hother⟩
    refine accepts_pure ?_
    simp only [UpToSpans] at hfound hother
    simp only [UpToSpans, CaseClause.relabel, hfound, hother]
  | relational relation bound =>
    have hsign := accepts_read (takes_relation relation (bound.write wide rest))
    refine Accepts.first ?_ _
    refine (accepts_keyword hl rfl).skip ((hsign.require _).known ?_)
    refine (accepts_requireExpression h _ hr.toDelimits).andThen fun found hfound => ?_
    exact accepts_pure (congrArg (CaseClause.relational relation) hfound)

theorem CaseClause.begins {clause : CaseClause} (h : clause.isPrintable = true) (wide : Bool)
    (hr : NoWord rest) :
    Solid (clause.write wide rest) ∧ spells .Else (clause.write wide rest) = false := by
  cases clause with
  | value subject =>
    exact ⟨subject.solid_write h wide hr, subject.spells_write h (by decide) wide hr⟩
  | range first last =>
    obtain ⟨hfirst, _⟩ := Bool.and_eq_true_iff.mp h
    exact ⟨first.solid_write hfirst wide (noWord_space _),
      first.spells_write hfirst (by decide) wide (noWord_space _)⟩
  | relational relation bound =>
    have hbegins : Begins (CaseClause.write wide (.relational relation bound) rest) (some .Is) :=
      Keyword.Is.begins_write rfl
    exact ⟨hbegins.solid, hbegins.spells_eq_false (by simp)⟩

/-! ## Compound statements -/

section Compound

variable {block : Parse (List Statement)} {body : List Statement}

theorem accepts_whileLoop (hbody : ReadsBlock wide block body) {condition : Expression}
    (h : condition.isPrintable = true) (span : Span)
    (hl : Leads text (Statement.write wide (.whileLoop condition body span) rest)) :
    Accepts (whileLoop block) text rest
      (UpToSpans Statement.relabel (.whileLoop condition body span)) := by
  have hend : NoWord ('\n' :: rest) := noWord_newline rest
  refine Accepts.sentence _ hl ?_
  refine (accepts_keyword (Keyword.While.solid_write (' ' :: _)).here rfl).skip ?_
  refine (accepts_requireExpression h _ (delimits_newline _)).andThen fun found hfound => ?_
  refine (accepts_requireTerminator _).skip ?_
  refine (hbody _ (Keyword.Wend.closes_write hend ⟨rfl, rfl⟩)).andThen fun lines hlines => ?_
  refine (accepts_requireKeyword (Keyword.Wend.solid_write _).here hend).skip ?_
  refine accepts_pure fun place => ?_
  simp only [UpToSpans] at hfound hlines
  simp only [UpToSpans, Statement.relabel, hfound, hlines]
  rfl

/-- The loop with a test at one end at most. -/
def loopOf (body : List Statement) (span : Span) :
    Option LoopTest → Option LoopTest → Option Statement
  | some test, none => some (.testFirstLoop test body span)
  | none, some test => some (.testLastLoop body test span)
  | none, none => some (.endlessLoop body span)
  | some _, some _ => none

theorem accepts_doLoop (hbody : ReadsBlock wide block body) (first last : Option LoopTest)
    (hfirst : first.all (·.condition.isPrintable) = true)
    (hlast : last.all (·.condition.isPrintable) = true) {span : Span} {s : Statement}
    (hs : loopOf body span first last = some s)
    (hl : Leads text (Keyword.Do.write (writeTest wide first ('\n' ::
      writeBlock wide body (Keyword.Loop.write (writeTest wide last ('\n' :: rest))))))) :
    Accepts (doLoop block) text rest (UpToSpans Statement.relabel s) := by
  have hloop := noWord_writeTest wide last rest
  refine Accepts.sentence _ hl ?_
  refine (accepts_keyword (Keyword.Do.solid_write _).here (noWord_writeTest wide first _)).skip ?_
  refine (accepts_optTest hfirst _).andThen fun first' hfirst' => ?_
  refine (accepts_requireTerminator _).skip ?_
  refine (hbody _ (Keyword.Loop.closes_write hloop ⟨rfl, rfl⟩)).andThen fun lines hlines => ?_
  refine (accepts_requireKeyword (Keyword.Loop.solid_write _).here hloop).skip ?_
  refine (accepts_nextToken _).andThen fun place _ => ?_
  refine (accepts_optTest hlast rest).andThen fun last' hlast' => ?_
  simp only [UpToSpans] at hlines
  cases first with
  | none =>
    obtain rfl := Option.map_eq_none_iff.mp hfirst'
    cases last with
    | none =>
      obtain rfl := Option.some.inj hs
      obtain rfl := Option.map_eq_none_iff.mp hlast'
      refine accepts_pure fun place => ?_
      simp only [UpToSpans, Statement.relabel, hlines]
      rfl
    | some test =>
      obtain rfl := Option.some.inj hs
      obtain ⟨found, rfl, hfound⟩ := Option.map_eq_some_iff.mp hlast'
      refine accepts_pure fun place => ?_
      simp only [UpToSpans, Statement.relabel, hlines, hfound]
      rfl
  | some test =>
    cases last with
    | none =>
      obtain rfl := Option.some.inj hs
      obtain ⟨found, rfl, hfound⟩ := Option.map_eq_some_iff.mp hfirst'
      obtain rfl := Option.map_eq_none_iff.mp hlast'
      refine accepts_pure fun place => ?_
      simp only [UpToSpans, Statement.relabel, hlines, hfound]
      rfl
    | some other => contradiction

/-- A loop closes with a plain `Next`. -/
theorem accepts_loopEnd (rest : List Char) :
    Accepts loopEnd (Keyword.Next.write ('\n' :: rest)) ('\n' :: rest) fun _ => True := by
  have hl := (solid_newline rest).here
  have hno := refuses_read (misses_reference hl (by simp) (misses_identifier hl rfl))
  refine (accepts_requireKeyword (Keyword.Next.solid_write _).here (noWord_newline rest)).skip ?_
  exact hno.opt.andThen fun _ _ => accepts_pure trivial

theorem delimits_writeStep (step : Option Expression) (rest : List Char) :
    Delimits (writeStep wide step ('\n' :: rest)) := by
  cases step with
  | none => exact delimits_newline rest
  | some step => exact delimits_keyword .Step _

theorem accepts_step {step : Option Expression} (h : step.all Expression.isPrintable = true)
    (rest : List Char) :
    Accepts (after .Step (requireExpression "step value")) (writeStep wide step ('\n' :: rest))
      ('\n' :: rest) fun found =>
        found.map (Expression.relabel .erase) = step.map (Expression.relabel .erase) := by
  cases step with
  | none =>
    have hno := (halts_newline rest).stays_keyword .Step
    exact (accepts_after_none hno _).weaken fun _ h => by rw [h]
  | some step =>
    have hvalue : Accepts (requireExpression "step value") (' ' :: step.write wide ('\n' :: rest))
        ('\n' :: rest) (UpToSpans Expression.relabel step) :=
      accepts_requireExpression h _ (delimits_newline rest)
    refine (accepts_after (Keyword.Step.solid_write (' ' :: _)).space rfl hvalue).weaken ?_
    rintro _ ⟨found, rfl, hfound⟩
    exact congrArg some hfound

theorem accepts_forLoop (hbody : ReadsBlock wide block body) {counter : Reference}
    {first last : Expression} {step : Option Expression} (hcounter : counter.isPrintable = true)
    (hfirst : first.isPrintable = true) (hlast : last.isPrintable = true)
    (hstep : step.all Expression.isPrintable = true) (span : Span)
    (hl : Leads text (Statement.write wide (.forLoop counter first last step body span) rest)) :
    Accepts (forLoop block) text rest
      (UpToSpans Statement.relabel (.forLoop counter first last step body span)) := by
  have hno (tail : List Char) :
      Refuses (keyword .Each) (' ' :: counter.write wide (' ' :: '=' :: tail)) := by
    have hrefers := Reference.refers_write hcounter wide (halts_equals tail).noWord
    exact refuses_keyword hrefers.solid.space (hrefers.spells .Each)
  refine Accepts.sentence _ hl ?_
  refine (accepts_keyword (Keyword.For.solid_write (' ' :: _)).here rfl).skip ?_
  refine ((hno _).andThen _).second ?_
  refine (accepts_requireReference hcounter _ (halts_equals _).endsName).andThen
    fun counter' hcounter' => ?_
  refine (accepts_requireSymbol (solid_equals _).space).skip ?_
  refine (accepts_requireExpression hfirst _ (delimits_keyword .To _)).andThen
    fun first' hfirst' => ?_
  refine (accepts_requireKeyword (Keyword.To.solid_write (' ' :: _)).space rfl).skip ?_
  refine (accepts_requireExpression hlast _ (delimits_writeStep step _)).andThen
    fun last' hlast' => ?_
  refine (accepts_step hstep _).andThen fun step' hstep' => ?_
  refine (accepts_requireTerminator _).skip ?_
  refine (hbody _ (Keyword.Next.closes_write (noWord_newline rest) ⟨rfl, rfl⟩)).andThen
    fun lines hlines => ?_
  refine (accepts_loopEnd rest).skip (accepts_pure fun place => ?_)
  simp only [UpToSpans] at hcounter' hfirst' hlast' hlines
  simp only [UpToSpans, Statement.relabel, hcounter', hfirst', hlast', hstep', hlines]
  rfl

theorem accepts_forEach (hbody : ReadsBlock wide block body) {element : Reference}
    {collection : Expression} (helement : element.isPrintable = true)
    (hcollection : collection.isPrintable = true) (span : Span)
    (hl : Leads text (Statement.write wide (.forEach element collection body span) rest)) :
    Accepts (forLoop block) text rest
      (UpToSpans Statement.relabel (.forEach element collection body span)) := by
  refine Accepts.sentence _ hl ?_
  refine (accepts_keyword (Keyword.For.solid_write (' ' :: _)).here rfl).skip (Accepts.first ?_ _)
  refine (accepts_keyword (Keyword.Each.solid_write (' ' :: _)).space rfl).skip ?_
  refine (accepts_requireReference helement _ (delimits_keyword .In _).endsName).andThen
    fun element' helement' => ?_
  refine (accepts_requireKeyword (Keyword.In.solid_write (' ' :: _)).space rfl).skip ?_
  refine (accepts_requireExpression hcollection _ (delimits_newline _)).andThen
    fun collection' hcollection' => ?_
  refine (accepts_requireTerminator _).skip ?_
  refine (hbody _ (Keyword.Next.closes_write (noWord_newline rest) ⟨rfl, rfl⟩)).andThen
    fun lines hlines => ?_
  refine (accepts_loopEnd rest).skip (accepts_pure fun place => ?_)
  simp only [UpToSpans] at helement' hcollection' hlines
  simp only [UpToSpans, Statement.relabel, helement', hcollection', hlines]
  rfl

theorem accepts_withBlock (hbody : ReadsBlock wide block body) {target : Reference}
    (h : target.isPrintable = true) (span : Span)
    (hl : Leads text (Statement.write wide (.withBlock target body span) rest)) :
    Accepts (withBlock block) text rest
      (UpToSpans Statement.relabel (.withBlock target body span)) := by
  refine Accepts.sentence _ hl ?_
  refine (accepts_keyword (Keyword.With.solid_write (' ' :: _)).here rfl).skip ?_
  refine (accepts_requireReference h _ (delimits_newline _).endsName).andThen fun found hfound => ?_
  refine (accepts_requireTerminator _).skip ?_
  refine (hbody _ (closes_writeEnd .With rest)).andThen fun lines hlines => ?_
  refine (accepts_requireEnd .With rest).skip (accepts_pure fun place => ?_)
  simp only [UpToSpans] at hfound hlines
  simp only [UpToSpans, Statement.relabel, hfound, hlines]
  rfl

/-! ## Branches and cases -/

theorem accepts_branch {b : Branch} (hbody : ReadsBlock wide block b.body)
    (h : b.condition.isPrintable = true) (k : Keyword) (hr : ClosesBlock rest)
    (hl : Leads text (b.write wide k rest)) :
    Accepts (branch block k) text rest (UpToSpans Branch.relabel b) := by
  obtain ⟨condition, body, span⟩ := b
  refine Accepts.spanned hl ?_
  refine (accepts_keyword (k.solid_write (' ' :: _)).here rfl).skip ?_
  refine (accepts_requireExpression h _ (delimits_keyword .Then _)).andThen fun found hfound => ?_
  refine (accepts_requireKeyword (Keyword.Then.solid_write ('\n' :: _)).space rfl).skip ?_
  refine ((accepts_requireTerminator _).advise _).skip ?_
  refine (hbody _ hr).andThen fun lines hlines => accepts_pure fun place => ?_
  simp only [UpToSpans] at hfound hlines
  simp only [UpToSpans, Branch.relabel, hfound, hlines]
  rfl

theorem refuses_branch {word : Option Keyword} (h : Begins text word) {k : Keyword}
    (hk : word ≠ some k) (block : Parse (List Statement)) : Refuses (branch block k) text :=
  ((refuses_keyword h.solid.here (h.spells_eq_false hk)).andThen _).spanned h.solid.here

/-- A last block under words of its own, or none. -/
theorem accepts_otherwise {p : Parse (List Statement)} {introduce : List Char → List Char}
    {otherwise : Option (List Statement)}
    (hp : ∀ body, otherwise = some body → Accepts p (introduce ('\n' :: writeBlock wide body rest))
      rest (UpToSpans relabelBlock body))
    (hstop : Refuses p rest) :
    Accepts (opt p) (writeOtherwise wide introduce otherwise rest) rest fun found =>
      relabelOtherwise .erase found = relabelOtherwise .erase otherwise := by
  cases otherwise with
  | none => exact hstop.opt.weaken fun _ h => by rw [h]
  | some body =>
    refine (hp body rfl).opt.weaken ?_
    rintro _ ⟨found, rfl, hfound⟩
    exact congrArg some hfound

theorem accepts_conditional (hb : Yields block Cursor.Reaches blockRegions) {first : Branch}
    {others : List Branch} {otherwise : Option (List Statement)}
    (hfirst : first.condition.isPrintable = true ∧ ReadsBlock wide block first.body)
    (hothers : ∀ b ∈ others, b.condition.isPrintable = true ∧ ReadsBlock wide block b.body)
    (hotherwise : ∀ body, otherwise = some body → ReadsBlock wide block body) (span : Span)
    (hl : Leads text (Statement.write wide (.conditional first others otherwise span) rest)) :
    Accepts (conditional block) text rest
      (UpToSpans Statement.relabel (.conditional first others otherwise span)) := by
  obtain ⟨word, hword, hlast⟩ := begins_writeOtherwise wide otherwise
    (fun tail => Keyword.Else.begins_write (noWord_newline tail)) (begins_writeEnd .If rest)
  have hcloses :
      ClosesBlock (writeOtherwise wide Keyword.Else.write otherwise (writeEnd .If rest)) :=
    ⟨word, hlast, by rcases hword with rfl | rfl <;> exact ⟨rfl, rfl⟩⟩
  have hne : some word ≠ some Keyword.ElseIf := by rcases hword with rfl | rfl <;> simp
  have hstop := refuses_branch hlast hne block
  have hbranches := accepts_many (Branch.relabel .erase)
    (fun _ _ _ _ hm => (yields_branch hb .ElseIf _ _ _ _ hm).1.length_lt)
    (fun b _ tail _ => b.closes_write wide tail)
    (fun b hmem tail ht => accepts_branch (hothers b hmem).2 (hothers b hmem).1 .ElseIf ht
      (b.solid_write wide .ElseIf tail).here) hcloses hstop
  have helse : ∀ body, otherwise = some body →
    Accepts (keyword .Else *> (requireTerminator *> block))
      (Keyword.Else.write ('\n' :: writeBlock wide body (writeEnd .If rest))) (writeEnd .If rest)
      (UpToSpans relabelBlock body) := fun body hsome =>
    (accepts_keyword (Keyword.Else.solid_write ('\n' :: _)).here rfl).seqRight
      ((accepts_requireTerminator _).seqRight (hotherwise body hsome _ (closes_writeEnd .If rest)))
  have hend := begins_writeEnd .If rest
  have hno :=
    (refuses_keyword hend.solid.here (hend.spells_eq_false (k := .Else) (by simp))).seqRight
    (requireTerminator *> block)
  refine Accepts.sentence _ hl ?_
  refine (accepts_branch hfirst.2 hfirst.1 .If (closes_writeBranches others hcloses)
    (first.solid_write wide .If _).here).andThen fun first' hfirst' => ?_
  rw [writeBranches_eq_foldr]
  refine hbranches.andThen fun others' hothers' => ?_
  refine (accepts_mark hlast.solid.here).andThen fun _ _ => ?_
  refine (accepts_otherwise helse hno).andThen fun otherwise' hotherwise' => ?_
  refine (accepts_requireEnd .If rest).skip (accepts_pure fun place => ?_)
  simp only [UpToSpans] at hfirst'
  simp only [UpToSpans, Statement.relabel, relabelBranches_eq_map, hfirst', hothers', hotherwise']
  rfl

/-- A case under its expressions. -/
theorem accepts_caseBlock {b : CaseBlock} (hbody : ReadsBlock wide block b.body)
    (hne : b.clauses ≠ []) (h : ∀ clause ∈ b.clauses, clause.isPrintable = true)
    (hr : ClosesBlock rest) (hl : Leads text (b.write wide rest)) :
    Accepts (caseBlock block) text rest (UpToSpans CaseBlock.relabel b) := by
  obtain ⟨clauses, body, span⟩ := b
  cases clauses with
  | nil => contradiction
  | cons clause others =>
    have htail := before_writeTail (CaseClause.write wide) (halts_comma wide) others
      (halts_newline (writeBlock wide body rest))
    have hstart := CaseClause.begins (h clause (by simp)) wide htail.noWord
    refine Accepts.spanned hl ?_
    refine (accepts_keyword (Keyword.Case.solid_write (' ' :: _)).here rfl).skip ?_
    refine (accepts_unlessKeyword hstart.1.space hstart.2).skip ?_
    refine (accepts_separated (CaseClause.relabel .erase) (halts_comma wide) hstart.1.space
      (fun hl ht => accepts_caseClause (h clause (by simp)) hl ht)
      (fun one ho tail ht =>
        (CaseClause.begins (h one (List.mem_cons_of_mem _ ho)) wide ht.noWord).1)
      (fun one ho _ _ hl ht => accepts_caseClause (h one (List.mem_cons_of_mem _ ho)) hl ht)
      ((consumes_symbol ',').andThen fun _ => yields_caseClause.advances)
      (halts_newline _) (stays_comma_newline _)).andThen fun found hfound => ?_
    refine (accepts_requireTerminator _).skip ?_
    refine (hbody _ hr).andThen fun lines hlines => accepts_pure fun place => ?_
    simp only [UpToSpans] at hlines
    simp only [UpToSpans, CaseBlock.relabel, hfound, hlines]
    rfl

/-- `Case Else` is no case of its own. -/
theorem refuses_caseBlock_else (block : Parse (List Statement)) (hr : NoWord rest) :
    Refuses (caseBlock block) (Keyword.Case.write (' ' :: Keyword.Else.write rest)) := by
  have hl := (Keyword.Case.solid_write (' ' :: Keyword.Else.write rest)).here
  have helse : Refuses (unlessKeyword .Else) (' ' :: Keyword.Else.write rest) := by
    intro inside c hc
    obtain ⟨after, hkeyword, _⟩ := passes_keyword (Keyword.Else.solid_write rest).space hr c hc
    rw [unlessKeyword, hkeyword]
    rfl
  exact ((accepts_keyword hl rfl).refuses fun _ _ => helse.andThen _).spanned hl

theorem refuses_caseBlock {word : Option Keyword} (h : Begins text word) (hk : word ≠ some .Case)
    (block : Parse (List Statement)) : Refuses (caseBlock block) text :=
  ((refuses_keyword h.solid.here (h.spells_eq_false hk)).andThen _).spanned h.solid.here

theorem accepts_select (hb : Yields block Cursor.Reaches blockRegions) {subject : Expression}
    {cases : List CaseBlock} {otherwise : Option (List Statement)} (h : subject.isPrintable = true)
    (hcases : ∀ b ∈ cases, b.clauses ≠ [] ∧ (∀ clause ∈ b.clauses, clause.isPrintable = true) ∧
      ReadsBlock wide block b.body)
    (hotherwise : ∀ body, otherwise = some body → ReadsBlock wide block body) (span : Span)
    (hl : Leads text (Statement.write wide (.select subject cases otherwise span) rest)) :
    Accepts (select block) text rest
      (UpToSpans Statement.relabel (.select subject cases otherwise span)) := by
  have hend := begins_writeEnd .Select rest
  have hintroduce (tail : List Char) : Begins (writeCaseElse ('\n' :: tail)) (some .Case) :=
    Keyword.Case.begins_write (noWord_space _)
  obtain ⟨word, hword, hlast⟩ := begins_writeOtherwise wide otherwise hintroduce hend
  have hcloses : ClosesBlock (writeOtherwise wide writeCaseElse otherwise
      (writeEnd .Select rest)) :=
    ⟨word, hlast, by rcases hword with rfl | rfl <;> exact ⟨rfl, rfl⟩⟩
  have hstop : Refuses (caseBlock block) (writeOtherwise wide writeCaseElse otherwise
      (writeEnd .Select rest)) := by
    cases otherwise with
    | none => exact refuses_caseBlock hend (by simp) block
    | some body => exact refuses_caseBlock_else block (noWord_newline _)
  have hlines := accepts_many (CaseBlock.relabel .erase)
    (fun _ _ _ _ hm => (yields_caseBlock hb _ _ _ _ hm).1.length_lt)
    (fun b _ tail _ => b.closes_write wide tail)
    (fun b hmem tail ht => accepts_caseBlock (hcases b hmem).2.2 (hcases b hmem).1
      (hcases b hmem).2.1 ht (b.solid_write wide tail).here) hcloses hstop
  have helse : ∀ body, otherwise = some body → Accepts (elseBlock block)
      (writeCaseElse ('\n' :: writeBlock wide body (writeEnd .Select rest))) (writeEnd .Select rest)
      (UpToSpans relabelBlock body) := fun body hsome =>
    (accepts_keyword (Keyword.Case.solid_write (' ' :: _)).here rfl).skip
      ((accepts_keyword (Keyword.Else.solid_write ('\n' :: _)).space rfl).skip
        ((accepts_requireTerminator _).skip
          (hotherwise body hsome _ (closes_writeEnd .Select rest))))
  have hno : Refuses (elseBlock block) (writeEnd .Select rest) :=
    (refuses_keyword hend.solid.here (hend.spells_eq_false (by simp))).andThen _
  refine Accepts.sentence _ hl ?_
  refine (accepts_keyword (Keyword.Select.solid_write (' ' :: _)).here rfl).skip ?_
  refine (accepts_requireKeyword (Keyword.Case.solid_write (' ' :: _)).space rfl).skip ?_
  refine (accepts_requireExpression h _ (delimits_newline _)).andThen fun found hfound => ?_
  refine (accepts_requireTerminator _).skip ?_
  refine (accepts_skipTrivia (closes_writeCases cases hcloses).beginsCode).skip ?_
  rw [writeCases_eq_foldr]
  refine hlines.andThen fun cases' hcases' => ?_
  refine (accepts_mark hlast.solid.here).andThen fun _ _ => ?_
  refine (accepts_otherwise helse hno).andThen fun otherwise' hotherwise' => ?_
  refine (accepts_requireEnd .Select rest).skip (accepts_pure fun place => ?_)
  simp only [UpToSpans] at hfound
  simp only [UpToSpans, Statement.relabel, relabelCases_eq_map, hfound, hcases', hotherwise']
  rfl

end Compound

/-! ## Statements and blocks -/

theorem misses_comment_newline (rest : List Char) : Misses comment ('\n' :: rest) := by
  intro c hc
  have hl := (solid_newline rest).here
  have hmark := stays_commentMark hl (by simp) (spells_cons_eq_false .Rem rest rfl) _
    (Cursor.rest_skipBlanks hl hc)
  simp [comment, Cursor.comment, hmark]

theorem accepts_statement_of_keyword {k : Keyword} {tail : List Char} {V : Statement → Prop}
    (hk : k ≠ .Rem) (hr : NoWord tail)
    (h : Leads (k.write tail) (k.write tail) →
      Accepts (codeStatement block (some k)) (k.write tail) rest V) :
    Accepts statement (k.write tail) rest V :=
  accepts_statement_of_code (k.begins_write hr) (by simpa using hk) (h (k.solid_write tail).here)

theorem accepts_assign (kind : AssignmentKind) {target : Reference} {value : Expression}
    (htarget : target.isPrintable = true) (hvalue : value.isPrintable = true) (span : Span) :
    Accepts statement (Statement.write wide (.assign kind target value span) rest) rest
      (UpToSpans Statement.relabel (.assign kind target value span)) := by
  have hrefers := Reference.refers_write htarget wide
    (halts_equals (' ' :: value.write wide ('\n' :: rest))).noWord
  have hbegins := hrefers.begins.writeWord kind.keyword?
  have hassign := accepts_assignment kind htarget hvalue span hbegins.solid.here
  refine accepts_statement_of_code hbegins (by cases kind <;> simp [AssignmentKind.keyword?]) ?_
  cases kind with
  | Unwritten => exact hassign.first _
  | Let => exact hassign
  | Set => exact hassign

theorem accepts_labelLine {name : String} (h : isName name = true) (span : Span) :
    Accepts statement (Statement.write wide (.label name span) rest) rest
      (UpToSpans Statement.relabel (.label name span)) := by
  have hends := endsName_colon ('\n' :: rest)
  have hrefers := refers_name (isName_iff.mp h) hends.noWord
  have hl := hrefers.solid.here
  have htarget : Reference.isPrintable ⟨⟨false, [], span⟩, name, span⟩ = true := by
    simp only [Reference.isPrintable, areSegmentsPrintable, h, Bool.and_self]
  have hwritten : Leads (name.toList ++ ':' :: '\n' :: rest)
      (Reference.write wide ⟨⟨false, [], span⟩, name, span⟩ (':' :: '\n' :: rest)) := hl
  have htakes := takes_reference_write htarget hwritten hends
  have hequals : Stays (Cursor.symbol '=') (':' :: '\n' :: rest) :=
    stays_symbol (solid_cons _ rfl (by decide)).here (by simp)
  refine accepts_statement_of_code hrefers.begins (by simp) ?_
  refine (refuses_assignment hrefers hl htakes hequals).second ?_
  exact (accepts_label h span hl).first _

theorem accepts_callLine {procedure : String} (h : isProcedureName procedure = true)
    {values : List Expression} (hvalues : arePrintable values = true) (span : Span) :
    Accepts statement (Statement.write wide (.call procedure values false span) rest) rest
      (UpToSpans Statement.relabel (.call procedure values false span)) := by
  obtain ⟨hends, hequals, hcolon⟩ := endsName_writeLoose hvalues wide rest
  have hrefers := refers_procedureName h hends.noWord
  have hl := hrefers.solid.here
  have htarget := takes_reference_of_procedureName h hends
  refine accepts_statement_of_code hrefers.begins (by simp) ?_
  refine (refuses_assignment hrefers hl htarget hequals).second ?_
  refine (refuses_label h hl hends.noWord hcolon).second ?_
  exact (accepts_implicitCall h hvalues span hl).first _

mutual

/-- Every statement is read back, up to spans. -/
theorem accepts_statement : ∀ (s : Statement) {rest : List Char}, s.isPrintable = true →
    Accepts statement (s.write wide rest) rest (UpToSpans Statement.relabel s)
  | .comment note, _, h => by
    rw [statement_eq]
    exact ((accepts_comment h _).map fun _ hs => hs.under Statement.comment fun _ => rfl).first _
  | .emptyLine line, rest, _ => by
    rw [statement_eq]
    refine ((refuses_read (misses_comment_newline rest)).map _).second (Accepts.first ?_ _)
    exact (accepts_emptyLine line.span rest).map fun _ hs => hs.under Statement.emptyLine
      fun _ => rfl
  | .assign kind target value span, _, h => by
    obtain ⟨htarget, hvalue⟩ := Bool.and_eq_true_iff.mp h
    exact accepts_assign kind htarget hvalue span
  | .localVariables kind declared span, _, h => by
    simp only [Statement.isPrintable, Bool.and_eq_true, Bool.not_eq_true',
      List.isEmpty_eq_false_iff, List.all_eq_true] at h
    have hcode : codeStatement block (some kind.keyword) = Grammar.localVariables := by
      cases kind <;> rfl
    refine accepts_statement_of_keyword (by cases kind <;> decide) rfl fun hl => ?_
    rw [hcode]
    exact accepts_localVariables kind h.1 h.2 span hl
  | .redim isPreserved array dimensions span, _, h => by
    simp only [Statement.isPrintable, Bool.and_eq_true, Bool.not_eq_true',
      List.isEmpty_eq_false_iff] at h
    exact accepts_statement_of_keyword (by decide) rfl fun hl =>
      accepts_redim isPreserved h.1.1 h.1.2 h.2 span hl
  | .exit kind span, _, _ =>
    accepts_statement_of_keyword (by decide) rfl fun hl => accepts_exit kind span hl
  | .jump kind label span, _, h => by
    have hcode : codeStatement block (some kind.keyword) = Grammar.jump := by cases kind <;> rfl
    refine accepts_statement_of_keyword (by cases kind <;> decide) rfl fun hl => ?_
    rw [hcode]
    exact accepts_jump kind h span hl
  | .onError response span, _, h =>
    accepts_statement_of_keyword (by decide) rfl fun hl => accepts_onError h span hl
  | .resume point span, rest, h =>
    accepts_statement_of_keyword (by decide) (noWord_resumePoint point rest) fun hl =>
      accepts_resume h span hl
  | .label name span, _, h => accepts_labelLine h span
  | .call procedure values true span, _, h => by
    obtain ⟨hname, hvalues⟩ := Bool.and_eq_true_iff.mp h
    exact accepts_statement_of_keyword (by decide) rfl fun hl =>
      accepts_explicitCall hname hvalues span hl
  | .call procedure values false span, _, h => by
    obtain ⟨hname, hvalues⟩ := Bool.and_eq_true_iff.mp h
    exact accepts_callLine hname hvalues span
  | .raiseEvent event values span, _, h => by
    obtain ⟨hname, hvalues⟩ := Bool.and_eq_true_iff.mp h
    exact accepts_statement_of_keyword (by decide) rfl fun hl =>
      accepts_raiseEvent hname hvalues span hl
  | .whileLoop condition body span, _, h => by
    obtain ⟨hcondition, hbody⟩ := Bool.and_eq_true_iff.mp h
    exact accepts_statement_of_keyword (by decide) rfl fun hl =>
      accepts_whileLoop (readsBlock_block body hbody) hcondition span hl
  | .endlessLoop body span, _, h =>
    accepts_statement_of_keyword (by decide) rfl fun hl =>
      accepts_doLoop (readsBlock_block body h) none none rfl rfl rfl hl
  | .testFirstLoop test body span, _, h => by
    obtain ⟨htest, hbody⟩ := Bool.and_eq_true_iff.mp h
    exact accepts_statement_of_keyword (by decide) rfl fun hl =>
      accepts_doLoop (readsBlock_block body hbody) (some test) none htest rfl rfl hl
  | .testLastLoop body test span, _, h => by
    obtain ⟨hbody, htest⟩ := Bool.and_eq_true_iff.mp h
    exact accepts_statement_of_keyword (by decide) rfl fun hl =>
      accepts_doLoop (readsBlock_block body hbody) none (some test) rfl htest rfl hl
  | .forLoop counter first last step body span, _, h => by
    simp only [Statement.isPrintable, Bool.and_eq_true] at h
    obtain ⟨⟨⟨⟨hcounter, hfirst⟩, hlast⟩, hstep⟩, hbody⟩ := h
    exact accepts_statement_of_keyword (by decide) rfl fun hl =>
      accepts_forLoop (readsBlock_block body hbody) hcounter hfirst hlast hstep span hl
  | .forEach element collection body span, _, h => by
    simp only [Statement.isPrintable, Bool.and_eq_true] at h
    obtain ⟨⟨helement, hcollection⟩, hbody⟩ := h
    exact accepts_statement_of_keyword (by decide) rfl fun hl =>
      accepts_forEach (readsBlock_block body hbody) helement hcollection span hl
  | .conditional ⟨condition, body, place⟩ others otherwise span, _, h => by
    simp only [Statement.isPrintable, Branch.isPrintable, Bool.and_eq_true] at h
    obtain ⟨⟨⟨hcondition, hbody⟩, hothers⟩, hotherwise⟩ := h
    exact accepts_statement_of_keyword (by decide) rfl fun hl =>
      accepts_conditional yields_block ⟨hcondition, readsBlock_block body hbody⟩
        (readsBlock_branches others hothers) (readsBlock_otherwise otherwise hotherwise) span hl
  | .withBlock target body span, _, h => by
    obtain ⟨htarget, hbody⟩ := Bool.and_eq_true_iff.mp h
    exact accepts_statement_of_keyword (by decide) rfl fun hl =>
      accepts_withBlock (readsBlock_block body hbody) htarget span hl
  | .select subject cases otherwise span, _, h => by
    simp only [Statement.isPrintable, Bool.and_eq_true] at h
    obtain ⟨⟨hsubject, hcases⟩, hotherwise⟩ := h
    exact accepts_statement_of_keyword (by decide) rfl fun hl =>
      accepts_select yields_block hsubject (readsBlock_cases cases hcases)
        (readsBlock_otherwise otherwise hotherwise) span hl

/-- Every block is read back before what closes it. -/
theorem readsBlock_block : ∀ body : List Statement, isBlockPrintable body = true →
    ReadsBlock wide block body
  | [], _ => fun _ hrest => (refuses_statement hrest).many.weaken fun _ h => by rw [h]; rfl
  | s :: others, h => fun rest hrest => by
    obtain ⟨hs, hothers⟩ := Bool.and_eq_true_iff.mp h
    have hline : Accepts statement (s.write wide (writeBlock wide others rest))
        (writeBlock wide others rest) (UpToSpans Statement.relabel s) := accepts_statement s hs
    refine (hline.many_cons (hline.length_lt ?_)
      (readsBlock_block others hothers rest hrest)).weaken ?_
    · exact fun _ _ _ _ hm => (yields_statement.moves _ _ _ _ hm).2
    · rintro _ ⟨found, lines, rfl, hfound, hlines⟩
      simp only [UpToSpans] at hfound hlines
      simp only [UpToSpans, relabelBlock, hfound, hlines]

theorem readsBlock_otherwise : ∀ otherwise : Option (List Statement),
    isOtherwisePrintable otherwise = true →
    ∀ body, otherwise = some body → ReadsBlock wide block body
  | none, _ => fun _ hnone => by cases hnone
  | some body, h => fun _ hsome => by
    cases hsome
    exact readsBlock_block body h

theorem readsBlock_branches : ∀ branches : List Branch, areBranchesPrintable branches = true →
    ∀ b ∈ branches, b.condition.isPrintable = true ∧ ReadsBlock wide block b.body
  | [], _ => by simp
  | ⟨condition, body, place⟩ :: others, h => fun b hb => by
    simp only [areBranchesPrintable, Branch.isPrintable, Bool.and_eq_true] at h
    rcases List.mem_cons.mp hb with rfl | hb
    · exact ⟨h.1.1, readsBlock_block body h.1.2⟩
    · exact readsBlock_branches others h.2 b hb

theorem readsBlock_cases : ∀ cases : List CaseBlock, areCasesPrintable cases = true →
    ∀ b ∈ cases, b.clauses ≠ [] ∧ (∀ clause ∈ b.clauses, clause.isPrintable = true) ∧
      ReadsBlock wide block b.body
  | [], _ => by simp
  | ⟨clauses, body, place⟩ :: others, h => fun b hb => by
    simp only [areCasesPrintable, CaseBlock.isPrintable, Bool.and_eq_true, Bool.not_eq_true',
      List.isEmpty_eq_false_iff, List.all_eq_true] at h
    rcases List.mem_cons.mp hb with rfl | hb
    · exact ⟨h.1.1.1, h.1.1.2, readsBlock_block body h.1.2⟩
    · exact readsBlock_cases others h.2 b hb

end

end Grammar

end VisualBasic
