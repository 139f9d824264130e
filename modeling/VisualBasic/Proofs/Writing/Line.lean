import VisualBasic.Proofs.Writing.Statement

/-!
# Writing simple statements

A simple statement is one line. A call without a keyword is told from an assignment by the equals
sign that it lacks, and from a label by the colon.
-/

set_option autoImplicit false

namespace VisualBasic

variable {wide : Bool} {text token rest : List Char}

/-- Arguments without parentheses, after a blank if there are any. -/
def writeLoose (wide : Bool) : List Expression → List Char → List Char
  | [], rest => rest
  | values, rest => ' ' :: writeSeparated wide (Expression.write wide) values rest

namespace Grammar

open Parse

/-! ## Assignments and local declarations -/

/-- `Set`, `Let` or neither before the target of an assignment. -/
theorem accepts_assignmentKind (kind : AssignmentKind) (ht : Begins token none) :
    ∃ middle, Leads middle token ∧
      Accepts (opt (oneOf [(.Set, AssignmentKind.Set), (.Let, AssignmentKind.Let)]))
        (writeWord kind.keyword? token) middle fun found => found.getD .Unwritten = kind := by
  have hwords : ∀ k, kind.keyword? = some k →
      (List.lookup k [(.Set, AssignmentKind.Set), (.Let, AssignmentKind.Let)]).isSome := by
    intro k hk
    cases kind <;> cases hk <;> rfl
  obtain ⟨middle, hmiddle, hkind⟩ := accepts_optOneOf (ht.writeWord kind.keyword?).solid.here
    ht.solid (fun entry _ => ht.spells_eq_false (by simp)) hwords
  refine ⟨middle, hmiddle, hkind.weaken fun found hfound => ?_⟩
  rw [hfound]
  cases kind <;> rfl

theorem accepts_assignment (kind : AssignmentKind) {target : Reference} {value : Expression}
    (htarget : target.isPrintable = true) (hvalue : value.isPrintable = true) (span : Span)
    (hl : Leads text (writeWord kind.keyword? (target.write wide
      (' ' :: '=' :: ' ' :: value.write wide ('\n' :: rest))))) :
    Accepts assignment text rest
      (UpToSpans Statement.relabel (.assign kind target value span)) := by
  have hends := (halts_equals (' ' :: value.write wide ('\n' :: rest))).endsName
  have hrefers := Reference.refers_write htarget wide hends.noWord
  obtain ⟨middle, hmiddle, hkind⟩ := accepts_assignmentKind kind hrefers.begins
  have htarget := accepts_anyReference htarget hmiddle hends
  have hreference (isWritten : Bool) :
      Accepts (if isWritten then requireReference "variable" else anyReference) middle
        (' ' :: '=' :: ' ' :: value.write wide ('\n' :: rest))
        (UpToSpans Reference.relabel target) := by
    split
    · exact htarget.require _
    · exact htarget
  have hsymbol := accepts_symbol (solid_equals (' ' :: value.write wide ('\n' :: rest))).space
  have hvalue : Accepts (requireExpression "expression") (' ' :: value.write wide ('\n' :: rest))
      ('\n' :: rest) (UpToSpans Expression.relabel value) :=
    accepts_requireExpression hvalue _ (delimits_newline rest)
  refine Accepts.sentence _ hl (hkind.andThen fun found hfound => ?_)
  refine (hreference _).andThen fun target' htarget' => ?_
  have hbuild : Accepts (do
      let value ← requireExpression "expression"
      return fun place => Statement.assign (found.getD .Unwritten) target' value place)
      (' ' :: value.write wide ('\n' :: rest)) ('\n' :: rest)
      fun build => ∀ place, UpToSpans Statement.relabel (.assign kind target value span)
        (build place) := by
    refine hvalue.andThen fun value' hvalue' => accepts_pure fun place => ?_
    simp only [UpToSpans] at htarget' hvalue'
    simp only [UpToSpans, Statement.relabel, htarget', hvalue', hfound]
    rfl
  -- The equals sign is required after a keyword only, and taken in both cases.
  dsimp only
  split
  · exact (hsymbol.require _).skip hbuild
  · exact hsymbol.skip hbuild

theorem accepts_localVariables (kind : LocalKind) {declared : List Variable} (hne : declared ≠ [])
    (h : ∀ one ∈ declared, one.isPrintable = true) (span : Span)
    (hl : Leads text (kind.keyword.write
      (' ' :: writeSeparated wide (Variable.write wide) declared ('\n' :: rest)))) :
    Accepts localVariables text rest
      (UpToSpans Statement.relabel (.localVariables kind declared span)) := by
  have hkind : List.lookup kind.keyword [(.Dim, LocalKind.Dim), (.Static, .Static)] =
      some kind := by
    cases kind <;> rfl
  have hsolid := (begins_writeSeparated hne h wide (halts_newline rest)).solid
  refine Accepts.sentence _ hl ?_
  refine (accepts_oneOf hkind (kind.keyword.solid_write (' ' :: _)).here rfl).known ?_
  refine (accepts_declaredVariables hne h hsolid.space
    (fun hone hl hr => (accepts_declaredVariable hone hl hr).require _)
    (halts_newline rest) (stays_comma_newline rest)).andThen fun found hfound => ?_
  refine accepts_pure fun place => ?_
  simp only [UpToSpans, Statement.relabel, hfound]
  rfl

theorem accepts_redim (isPreserved : Bool) {array : Reference} {dimensions : List Expression}
    (harray : array.isPrintable = true) (hne : dimensions ≠ [])
    (h : arePrintable dimensions = true) (span : Span)
    (hl : Leads text (Keyword.ReDim.write (' ' ::
      writeWord (if isPreserved then some .Preserve else none)
        (array.write wide ('(' :: writeArguments wide dimensions ('\n' :: rest)))))) :
    Accepts redim text rest
      (UpToSpans Statement.relabel (.redim isPreserved array dimensions span)) := by
  have hbegins := (Reference.refers_write harray wide
    (noWord_open (writeArguments wide dimensions ('\n' :: rest)))).begins
  obtain ⟨middle, hmiddle, hflag⟩ := accepts_flag (hbegins.writeWord _).solid.space hbegins.solid
    (hbegins.spells_eq_false (k := .Preserve) (by simp))
  have htarget := accepts_read (takes_reference_before_arguments harray h hmiddle (by simp))
  refine Accepts.sentence _ hl ?_
  refine (accepts_keyword (Keyword.ReDim.solid_write (' ' :: _)).here rfl).skip (hflag.known ?_)
  refine (htarget.require _).andThen fun target hsame => ?_
  refine (accepts_requireSymbol (solid_open _).here).skip ?_
  cases dimensions with
  | nil => contradiction
  | cons e others =>
    obtain ⟨he, _⟩ := Bool.and_eq_true_iff.mp h
    have hclose := (solid_close ('\n' :: rest)).pad wide
    have hleads := (e.solid_write he wide
      (delimits_writeMore wide others ('\n' :: rest)).edge.noWord).pad wide
    rw [writeMore_eq] at hleads
    have hlist := accepts_expressionList h hleads (halts_close wide ('\n' :: rest))
      (stays_symbol hclose (by simp))
    rw [writeArguments, writeMore_eq]
    refine (hlist.require _).andThen fun found hfound => ?_
    refine (accepts_requireSymbol hclose).skip (accepts_pure fun place => ?_)
    simp only [UpToSpans] at hsame
    simp only [UpToSpans, Statement.relabel, hsame, hfound]
    rfl

/-! ## Jumps -/

theorem accepts_exit (kind : ExitKind) (span : Span)
    (hl : Leads text (Keyword.Exit.write (' ' :: kind.keyword.write ('\n' :: rest)))) :
    Accepts exit text rest (UpToSpans Statement.relabel (.exit kind span)) := by
  have hkind : exitKinds.lookup kind.keyword = some kind := by cases kind <;> rfl
  have hword := accepts_oneOf hkind (kind.keyword.solid_write ('\n' :: rest)).space rfl
  refine Accepts.sentence _ hl ?_
  refine (accepts_keyword (Keyword.Exit.solid_write (' ' :: _)).here rfl).skip ?_
  refine (hword.require _).known (accepts_pure fun place => ?_)
  rfl

theorem accepts_jump (kind : JumpKind) {label : String} (h : isName label = true) (span : Span)
    (hl : Leads text (kind.keyword.write (' ' :: (label.toList ++ '\n' :: rest)))) :
    Accepts jump text rest (UpToSpans Statement.relabel (.jump kind label span)) := by
  have hkind : List.lookup kind.keyword [(.GoTo, JumpKind.GoTo), (.GoSub, .GoSub)] = some kind := by
    cases kind <;> rfl
  have hname := isName_iff.mp h
  refine Accepts.sentence _ hl ?_
  refine (accepts_oneOf hkind (kind.keyword.solid_write (' ' :: _)).here rfl).known ?_
  refine (accepts_requireName hname _ (hname.solid_append _).space (noWord_newline rest)).known ?_
  exact accepts_pure fun place => rfl

theorem accepts_onError {response : ErrorResponse} (h : response.isPrintable = true) (span : Span)
    (hl : Leads text (Keyword.On.write (' ' :: Keyword.Error.write
      (' ' :: response.write ('\n' :: rest))))) :
    Accepts onError text rest (UpToSpans Statement.relabel (.onError response span)) := by
  have hresponse := accepts_errorResponse h (response.begins_write ('\n' :: rest)).solid.space
  refine Accepts.sentence _ hl ?_
  refine (accepts_keyword (Keyword.On.solid_write (' ' :: _)).here rfl).skip ?_
  refine (accepts_requireKeyword (Keyword.Error.solid_write (' ' :: _)).space rfl).skip ?_
  refine (hresponse.require _).known ?_
  exact accepts_pure fun place => rfl

theorem noWord_resumePoint (point : ResumePoint) (rest : List Char) :
    NoWord (point.write ('\n' :: rest)) := by
  cases point <;> rfl

theorem accepts_resume {point : ResumePoint} (h : point.isPrintable = true) (span : Span)
    (hl : Leads text (Keyword.Resume.write (point.write ('\n' :: rest)))) :
    Accepts resume text rest (UpToSpans Statement.relabel (.resume point span)) := by
  refine Accepts.sentence _ hl ?_
  refine (accepts_keyword (Keyword.Resume.solid_write _).here (noWord_resumePoint point rest)).skip
    ?_
  refine (accepts_resumePoint h rest).known ?_
  exact accepts_pure fun place => rfl

/-! ## Labels and calls -/

theorem endsName_colon (rest : List Char) : EndsName (':' :: rest) :=
  ⟨rfl, by simp, stays_symbol (solid_cons rest rfl (by decide)).here (by simp)⟩

/-- A reference that no equals sign follows is not assigned to. -/
theorem refuses_assignment {V : Reference → Prop} (hrefers : Refers token) (hl : Leads text token)
    (htarget : Takes (reference expression) token rest V)
    (hequals : Stays (Cursor.symbol '=') rest) : Refuses assignment text := by
  have hspells : ∀ entry ∈ [(Keyword.Set, AssignmentKind.Set), (.Let, .Let)],
      spells entry.1 token = false := fun entry _ => hrefers.spells entry.1
  refine Refuses.sentence _ hl ?_
  refine (refuses_oneOf hrefers.solid.here hspells).opt.refuses ?_
  rintro _ rfl
  exact (accepts_read htarget).refuses fun target _ => (refuses_pass hequals).andThen _

theorem accepts_label {name : String} (h : isName name = true) (span : Span)
    (hl : Leads text (name.toList ++ ':' :: '\n' :: rest)) :
    Accepts label text rest (UpToSpans Statement.relabel (.label name span)) := by
  have hname := isName_iff.mp h
  have hcolon : Accepts (adjacent ':') (':' :: '\n' :: rest) ('\n' :: rest) fun _ => True :=
    accepts_pass (passes_adjacent ':')
  have hfound : Accepts (spanned do
      let name ← identifier
      adjacent ':'
      return Statement.label name) text ('\n' :: rest)
      (UpToSpans Statement.relabel (.label name span)) := by
    refine Accepts.spanned hl ?_
    refine (accepts_identifier hname (hname.solid_append (':' :: _)).here rfl).known ?_
    exact hcolon.skip (accepts_pure fun place => rfl)
  refine Accepts.within (hfound.andThen fun found hsame => ?_) _
  exact (accepts_pass (passes_lineEnd rest)).opt.andThen fun _ _ => accepts_pure hsame

/-- No colon follows the name of a called procedure. -/
theorem refuses_label {name : String} (h : isProcedureName name = true)
    (hl : Leads text (name.toList ++ rest)) (hr : NoWord rest) (hcolon : rest.head? ≠ some ':') :
    Refuses label text := by
  obtain ⟨dotted, first, members, hfirst, _, hname⟩ := exists_of_isProcedureName h
  rw [hname] at hl
  refine Refuses.within (Refuses.andThen (Refuses.spanned hl ?_) _) _
  cases dotted with
  | true =>
    exact (refuses_read (misses_identifier (solid_cons _ rfl (by decide)).here rfl)).andThen _
  | false =>
    have hfirst' : IsNameText (String.ofList first).toList := by rwa [String.toList_ofList]
    have hleads : Leads (first ++ writeMembers members rest)
        ((String.ofList first).toList ++ writeMembers members rest) := by
      rw [String.toList_ofList]
      exact (hfirst.solid_append _).here
    refine (accepts_identifier hfirst' hleads (noWord_writeMembers members hr)).refuses
      fun _ _ => ?_
    refine (refuses_pass (stays_adjacent ?_)).andThen _
    cases members with
    | nil => exact hcolon
    | cons member members => simp [writeMembers]

theorem accepts_mark (hl : Leads text token) : Accepts mark text token fun _ => True :=
  fun _ c hc => ⟨c.skipBlanks, c.skipBlanks, rfl, Cursor.rest_skipBlanks hl hc, trivial⟩

theorem accepts_explicitCall {procedure : String} (h : isProcedureName procedure = true)
    {values : List Expression} (hvalues : arePrintable values = true) (span : Span)
    (hl : Leads text (Keyword.Call.write (' ' :: (procedure.toList ++
      '(' :: writeArguments wide values ('\n' :: rest))))) :
    Accepts explicitCall text rest
      (UpToSpans Statement.relabel (.call procedure values true span)) := by
  have hopen := noWord_open (writeArguments wide values ('\n' :: rest))
  have hsolid := (refers_procedureName h hopen).solid
  have hname := accepts_read (takes_procedureName h hsolid.here hopen (by simp))
  refine Accepts.sentence _ hl ?_
  refine (accepts_keyword (Keyword.Call.solid_write (' ' :: _)).here rfl).skip ?_
  refine (accepts_mark hsolid.space).andThen fun _ _ => (hname.require _).known ?_
  refine (accepts_requireSymbol (solid_open _).here).skip ?_
  refine (accepts_requireArguments hvalues ('\n' :: rest)).andThen fun found hfound => ?_
  refine accepts_pure fun place => ?_
  simp only [UpToSpans, Statement.relabel, hfound]
  rfl

theorem accepts_raiseEvent {event : String} (h : isName event = true) {values : List Expression}
    (hvalues : arePrintable values = true) (span : Span)
    (hl : Leads text (Keyword.RaiseEvent.write (' ' :: (event.toList ++
      '(' :: writeArguments wide values ('\n' :: rest))))) :
    Accepts raiseEvent text rest (UpToSpans Statement.relabel (.raiseEvent event values span)) := by
  have hname := isName_iff.mp h
  refine Accepts.sentence _ hl ?_
  refine (accepts_keyword (Keyword.RaiseEvent.solid_write (' ' :: _)).here rfl).skip ?_
  refine (accepts_requireName hname _ (hname.solid_append _).space (noWord_open _)).known ?_
  refine (accepts_requireSymbol (solid_open _).here).skip ?_
  refine (accepts_requireArguments hvalues ('\n' :: rest)).andThen fun found hfound => ?_
  refine accepts_pure fun place => ?_
  simp only [UpToSpans, Statement.relabel, hfound]
  rfl

/-- What follows the name of a procedure that is called without a keyword. -/
theorem endsName_writeLoose {values : List Expression} (h : arePrintable values = true)
    (wide : Bool) (rest : List Char) :
    EndsName (writeLoose wide values ('\n' :: rest)) ∧
      Stays (Cursor.symbol '=') (writeLoose wide values ('\n' :: rest)) ∧
      (writeLoose wide values ('\n' :: rest)).head? ≠ some ':' := by
  cases values with
  | nil => exact ⟨(delimits_newline rest).endsName, stays_equals_newline rest, by simp [writeLoose]⟩
  | cons e others =>
    obtain ⟨he, _⟩ := Bool.and_eq_true_iff.mp h
    have htail : NoWord (writeTail wide (Expression.write wide) others ('\n' :: rest)) :=
      before_writeTail _ (fun tail => (halts_comma wide tail).noWord) others
        (noWord_newline rest)
    have hsolid := e.solid_write he wide htail
    have hends := (delimits_space hsolid (Expression.head?_write_ne he rfl wide htail)).endsName
    exact ⟨hends, stays_symbol hsolid.space (Expression.head?_write_ne he rfl wide htail),
      by simp [writeLoose]⟩

/-- Arguments without parentheses are read as such. -/
theorem accepts_loose {values : List Expression} (h : arePrintable values = true) :
    Accepts (orElse (read wholeArguments) looseArguments)
      (writeLoose wide values ('\n' :: rest)) rest
      fun found => found.1.map (Expression.relabel .erase) =
        values.map (Expression.relabel .erase) := by
  obtain ⟨hends, _, _⟩ := endsName_writeLoose h wide rest
  have hwhole : Misses wholeArguments (writeLoose wide values ('\n' :: rest)) := by
    intro c hc
    simp [wholeArguments, hends.unopened c hc]
  have hlist : Accepts (opt expressionList) (writeLoose wide values ('\n' :: rest)) ('\n' :: rest)
      fun found => (found.getD []).map (Expression.relabel .erase) =
        values.map (Expression.relabel .erase) := by
    cases values with
    | nil =>
      have hnone :=
        ((refuses_read (misses_expression_newline rest)).andThen _).opt (p := expressionList)
      refine hnone.weaken ?_
      rintro _ rfl
      rfl
    | cons e others =>
      obtain ⟨he, _⟩ := Bool.and_eq_true_iff.mp h
      have htail : NoWord (writeTail wide (Expression.write wide) others ('\n' :: rest)) :=
        before_writeTail _ (fun tail => (halts_comma wide tail).noWord) others
          (noWord_newline rest)
      refine (accepts_expressionList h (e.solid_write he wide htail).space (halts_newline rest)
        (stays_comma_newline rest)).opt.weaken ?_
      rintro _ ⟨found, rfl, hfound⟩
      exact hfound
  refine (refuses_read hwhole).second (hlist.andThen fun found hfound => ?_)
  have hstop : Accepts here ('\n' :: rest) ('\n' :: rest) fun _ => True :=
    fun _ c hc => ⟨c, c, rfl, hc, trivial⟩
  exact hstop.andThen fun stop _ => (accepts_requireTerminator rest).skip (accepts_pure hfound)

theorem accepts_implicitCall {procedure : String} (h : isProcedureName procedure = true)
    {values : List Expression} (hvalues : arePrintable values = true) (span : Span)
    (hl : Leads text (procedure.toList ++ writeLoose wide values ('\n' :: rest))) :
    Accepts implicitCall text rest
      (UpToSpans Statement.relabel (.call procedure values false span)) := by
  obtain ⟨hends, _, _⟩ := endsName_writeLoose hvalues wide rest
  have hsolid := (refers_procedureName h hends.noWord).solid
  have hname := accepts_read (takes_procedureName h hsolid.here hends.noWord hends.unpointed)
  refine Accepts.within ?_ _
  refine (accepts_mark hl).andThen fun start _ => hname.known ?_
  refine (accepts_loose hvalues).andThen fun found hfound => accepts_pure ?_
  simp only [UpToSpans, Statement.relabel, hfound]
  rfl

end Grammar

end VisualBasic
