import VisualBasic.Proofs.Writing.Declaration

/-!
# Writing statements

A simple statement stands on one line. A called procedure is named with dots and perhaps a dot
before the first name; its arguments stand in parentheses after `Call`, and without them after a
blank otherwise.
-/

set_option autoImplicit false

namespace VisualBasic

variable {wide : Bool} {text token rest : List Char}

/-! ## Names of procedures -/

/-- Names with dots between them, and perhaps a dot before them. -/
def isProcedureName (name : String) : Bool :=
  match dottedNames name with
  | [] => false
  | first :: members =>
    (isNameText first || first.isEmpty && ! members.isEmpty) && members.all isNameText

/-- A procedure's name as a dot or none, its first name and the members after it. -/
theorem exists_of_isProcedureName {name : String} (h : isProcedureName name = true) :
    ∃ (dotted : Bool) (first : List Char) (members : List (List Char)),
      IsNameText first ∧ (∀ member ∈ members, IsNameText member) ∧
      ∀ rest, name.toList ++ rest =
        (if dotted then ['.'] else []) ++ (first ++ writeMembers members rest) := by
  unfold isProcedureName at h
  split at h
  · contradiction
  · rename_i first members hnames
    simp only [Bool.and_eq_true, Bool.or_eq_true, List.all_eq_true, List.isEmpty_iff,
      Bool.not_eq_true', List.isEmpty_eq_false_iff] at h
    obtain ⟨hfirst | ⟨rfl, hne⟩, hmembers⟩ := h
    · exact ⟨false, first, members, isNameText_iff.mp hfirst,
        fun member hm => isNameText_iff.mp (hmembers member hm), append_of_dottedNames hnames⟩
    · cases members with
      | nil => exact absurd rfl hne
      | cons member members =>
        exact ⟨true, member, members, isNameText_iff.mp (hmembers member (by simp)),
          fun other ho => isNameText_iff.mp (hmembers other (List.mem_cons_of_mem _ ho)),
          append_of_dottedNames hnames⟩

theorem refers_procedureName {name : String} (h : isProcedureName name = true)
    (hr : NoWord rest) : Refers (name.toList ++ rest) := by
  obtain ⟨dotted, first, members, hfirst, _, hname⟩ := exists_of_isProcedureName h
  rw [hname]
  cases dotted with
  | true => exact refers_dot hfirst _
  | false =>
    rw [if_neg (by decide), List.nil_append]
    exact refers_name hfirst (noWord_writeMembers members hr)

/-- Names with dots between them make a reference. -/
theorem exists_segments {first : List Char} {members : List (List Char)} (hfirst : IsNameText first)
    (hmembers : ∀ member ∈ members, IsNameText member) :
    ∃ segments name, areSegmentsPrintable segments = true ∧ isName name = true ∧
      ∀ rest, writeSegments false segments (name.toList ++ rest) =
        first ++ writeMembers members rest := by
  induction members generalizing first with
  | nil =>
    refine ⟨[], String.ofList first, rfl, ?_, fun rest => ?_⟩
    · rwa [isName_iff, String.toList_ofList]
    · rw [writeSegments, String.toList_ofList]
      rfl
  | cons member members ih =>
    obtain ⟨segments, name, hsegments, hname, hwrite⟩ := ih (hmembers member (by simp))
      fun other ho => hmembers other (List.mem_cons_of_mem _ ho)
    refine ⟨.name (String.ofList first) :: segments, name, ?_, hname, fun rest => ?_⟩
    · simp only [areSegmentsPrintable, Segment.isPrintable, Bool.and_eq_true]
      exact ⟨by rwa [isName_iff, String.toList_ofList], hsegments⟩
    · rw [writeSegments, Segment.write, String.toList_ofList, hwrite]
      rfl

namespace Grammar

open Parse

/-- A procedure's name is also read as a reference. -/
theorem takes_reference_of_procedureName {name : String} (h : isProcedureName name = true)
    (hr : EndsName rest) :
    Takes (reference expression) (name.toList ++ rest) rest fun _ => True := by
  obtain ⟨dotted, first, members, hfirst, hmembers, hname⟩ := exists_of_isProcedureName h
  obtain ⟨segments, last, hsegments, hlast, hwrite⟩ := exists_segments hfirst hmembers
  have hprintable : Reference.isPrintable ⟨⟨dotted, segments, ⟨0, 0⟩⟩, last, ⟨0, 0⟩⟩ = true :=
    Bool.and_eq_true_iff.mpr ⟨hsegments, hlast⟩
  have htext : name.toList ++ rest =
      Reference.write false ⟨⟨dotted, segments, ⟨0, 0⟩⟩, last, ⟨0, 0⟩⟩ rest := by
    rw [hname, Reference.write, Qualifier.write, hwrite]
    cases dotted <;> rfl
  intro c hc
  obtain ⟨found, d, hfound, hd, _⟩ := takes_reference_write hprintable
    (Reference.refers_write hprintable false hr.noWord).solid.here hr c (htext ▸ hc)
  exact ⟨found, d, hfound, hd, trivial⟩

theorem takes_memberNames {members : List (List Char)}
    (h : ∀ member ∈ members, IsNameText member) (hr : NoWord rest) (hdot : rest.head? ≠ some '.')
    {c : Cursor} (hc : c.rest = writeMembers members rest) :
    ∃ d, memberNames c = (String.ofList (writeMembers members []), d) ∧ d.rest = rest := by
  induction members generalizing c with
  | nil =>
    have hnone : c.adjacent '.' = none := stays_adjacent hdot c hc
    rw [memberNames, hnone]
    exact ⟨c, rfl, hc⟩
  | cons member members ih =>
    have hmember := h member (by simp)
    obtain ⟨d, hd, hdrest⟩ := passes_adjacent '.' c hc
    obtain ⟨char, tail, hcons, hstart⟩ := hmember.eq_cons
    have hhead : d.rest.head?.any isWordStart = true := by
      rw [hdrest, hcons]
      exact hstart
    have hnoword := noWord_writeMembers members hr
    have hname : IsNameText (String.ofList member).toList := by rwa [String.toList_ofList]
    have hleads : Leads d.rest ((String.ofList member).toList ++ writeMembers members rest) := by
      rw [hdrest, String.toList_ofList]
      exact (hmember.solid_append _).here
    obtain ⟨_, e, hword, he, rfl⟩ := takes_word hname hleads hnoword d rfl
    obtain ⟨f, hmembers, hf⟩ := ih (fun other ho => h other (List.mem_cons_of_mem _ ho)) he
    have hlt : e.rest.length < c.rest.length :=
      Nat.lt_of_le_of_lt (Cursor.reaches_of_word hword).length_le
        (Cursor.length_lt_of_adjacent hd)
    refine ⟨f, ?_, hf⟩
    rw [memberNames, hd]
    simp only [hhead, if_true, hword, if_pos hlt, hmembers, Prod.mk.injEq, and_true]
    rw [← String.toList_inj]
    simp [writeMembers]

theorem takes_procedureName {name : String} (h : isProcedureName name = true)
    (hl : Leads text (name.toList ++ rest)) (hr : NoWord rest) (hdot : rest.head? ≠ some '.') :
    Takes procedureName text rest fun found => found = name := by
  obtain ⟨dotted, first, members, hfirst, hmembers, hname⟩ := exists_of_isProcedureName h
  have hnoword := noWord_writeMembers members hr
  have hfirst' : IsNameText (String.ofList first).toList := by rwa [String.toList_ofList]
  intro c hc
  have hstart := Cursor.rest_skipBlanks hl hc
  have hbody : ∃ d, (c.skipBlanks.adjacent '.').getD c.skipBlanks = d ∧
      (c.skipBlanks.adjacent '.').isSome = dotted ∧ d.rest = first ++
      writeMembers members rest := by
    rw [hname] at hstart
    cases dotted with
    | true =>
      obtain ⟨d, hd, hrest⟩ := passes_adjacent '.' c.skipBlanks hstart
      exact ⟨d, by rw [hd]; rfl, by rw [hd]; rfl, hrest⟩
    | false =>
      obtain ⟨char, tail, hcons, hchar⟩ := hfirst.eq_cons
      have hnone : c.skipBlanks.adjacent '.' = none := by
        refine stays_adjacent ?_ _ hstart
        rw [hcons]
        simpa using ne_of_isWordStart hchar rfl
      exact ⟨c.skipBlanks, by rw [hnone]; rfl, by rw [hnone]; rfl, hstart⟩
  obtain ⟨d, hd, hdotted, hdrest⟩ := hbody
  have hleads : Leads d.rest ((String.ofList first).toList ++ writeMembers members rest) := by
    rw [hdrest, String.toList_ofList]
    exact (hfirst.solid_append _).here
  obtain ⟨_, e, hidentifier, he, rfl⟩ := takes_identifier hfirst' hleads hnoword d rfl
  obtain ⟨f, hmemberNames, hf⟩ := takes_memberNames hmembers hr hdot he
  refine ⟨name, f, ?_, hf, rfl⟩
  have hwhole := hname []
  simp only [procedureName, hd, hidentifier, hdotted, hmemberNames, Option.bind_eq_bind,
    Option.bind_some, Option.pure_def, Option.some.injEq, Prod.mk.injEq, and_true]
  rw [← String.toList_inj]
  rw [List.append_nil] at hwhole
  rw [hwhole]
  cases dotted <;> simp

end Grammar

/-! ## Parts of simple statements -/

def AssignmentKind.keyword? : AssignmentKind → Option Keyword
  | .Unwritten => none
  | .Let => some .Let
  | .Set => some .Set

def LocalKind.keyword : LocalKind → Keyword
  | .Dim => .Dim
  | .Static => .Static

def JumpKind.keyword : JumpKind → Keyword
  | .GoTo => .GoTo
  | .GoSub => .GoSub

def ExitKind.keyword : ExitKind → Keyword
  | .Sub => .Sub
  | .Function => .Function
  | .Property => .Property
  | .Do => .Do
  | .While => .While
  | .For => .For

namespace ErrorResponse

def isPrintable : ErrorResponse → Bool
  | .goToLabel label => isName label
  | _ => true

def write : ErrorResponse → List Char → List Char
  | .goToZero, rest => Keyword.GoTo.write (' ' :: (decimalText 0 ++ rest))
  | .goToMinusOne, rest => Keyword.GoTo.write (' ' :: (decimalText (-1) ++ rest))
  | .goToLabel label, rest => Keyword.GoTo.write (' ' :: (label.toList ++ rest))
  | .exitSub, rest => Keyword.Exit.write (' ' :: Keyword.Sub.write rest)
  | .exitFunction, rest => Keyword.Exit.write (' ' :: Keyword.Function.write rest)
  | .exitProperty, rest => Keyword.Exit.write (' ' :: Keyword.Property.write rest)
  | .resumeNext, rest => Keyword.Resume.write (' ' :: Keyword.Next.write rest)

/-- The word after `On Error`. -/
def word : ErrorResponse → Keyword
  | .goToZero | .goToMinusOne | .goToLabel _ => .GoTo
  | .exitSub | .exitFunction | .exitProperty => .Exit
  | .resumeNext => .Resume

theorem begins_write (response : ErrorResponse) (rest : List Char) :
    Begins (response.write rest) (some response.word) := by
  cases response <;> exact Keyword.begins_write _ rfl

end ErrorResponse

namespace ResumePoint

def isPrintable : ResumePoint → Bool
  | .label name => isName name
  | _ => true

def write : ResumePoint → List Char → List Char
  | .unwritten, rest => rest
  | .next, rest => ' ' :: Keyword.Next.write rest
  | .label name, rest => ' ' :: (name.toList ++ rest)
  | .line number, rest => ' ' :: (decimalText number.toInt ++ rest)

end ResumePoint

namespace Grammar

open Parse

/-- Numbers after `On Error GoTo` are those of a label that is none. -/
theorem accepts_errorTarget_number (value : Int32) {response : ErrorResponse}
    (hresponse : plainNumber value = .integer .decimal 0 ∧ response = .goToZero ∨
      plainNumber value = .integer .decimal (-1) ∧ response = .goToMinusOne)
    (rest : List Char) :
    Accepts errorTarget (' ' :: (decimalText value.toInt ++ '\n' :: rest)) ('\n' :: rest)
      fun found => found = response := by
  have hnumber := takes_plainNumber (solid_decimalText value.toInt ('\n' :: rest)).space
    (delimits_newline rest).edge
  refine (accepts_nextToken _).andThen fun place _ => ?_
  refine (accepts_read hnumber).opt.andThen ?_
  rintro _ ⟨_, rfl, rfl⟩
  rcases hresponse with ⟨hn, rfl⟩ | ⟨hn, rfl⟩
  · simp only [hn, if_true]
    exact accepts_pure rfl
  · simp only [hn, if_true]
    rw [if_neg (by decide)]
    exact accepts_pure rfl

theorem misses_number_name {name : List Char} (h : IsNameText name) (rest : List Char) :
    Misses Cursor.number (' ' :: (name ++ rest)) := by
  obtain ⟨c, tail, hname, hc⟩ := h.eq_cons
  have hl : Leads (' ' :: (name ++ rest)) (c :: (tail ++ rest)) := by
    have hleads := (h.solid_append rest).space
    rw [hname] at hleads ⊢
    exact hleads
  exact misses_number hl (isNumberStart_eq_false_of_isWordStart hc) fun hd =>
    absurd hd (ne_of_isWordStart hc rfl)

theorem accepts_errorResponse {response : ErrorResponse} (h : response.isPrintable = true)
    (hl : Leads text (response.write ('\n' :: rest))) :
    Accepts errorResponse text ('\n' :: rest) fun found => found = response := by
  have hbegins := response.begins_write ('\n' :: rest)
  have hno {k : Keyword} (hk : response.word ≠ k) : Refuses (keyword k) text :=
    refuses_keyword hl (hbegins.spells_eq_false (by simpa using hk))
  have hgoto {tail : List Char} (hl : Leads text (Keyword.GoTo.write (' ' :: tail)))
      (hk : response.word ≠ .Resume)
      (htarget : Accepts errorTarget (' ' :: tail) ('\n' :: rest) fun found => found = response) :
      Accepts errorResponse text ('\n' :: rest) fun found => found = response := by
    refine (((hno hk).seqRight _).seqRight _).second ?_
    exact ((accepts_keyword hl rfl).seqRight htarget).first _
  have hexit {k : Keyword} (hl : Leads text (Keyword.Exit.write (' ' :: k.write ('\n' :: rest))))
      (hresume : response.word ≠ .Resume) (hgoto : response.word ≠ .GoTo)
      (hk : List.lookup k [(Keyword.Sub, ErrorResponse.exitSub), (.Function, .exitFunction),
        (.Property, .exitProperty)] = some response) :
      Accepts errorResponse text ('\n' :: rest) fun found => found = response := by
    refine (((hno hresume).seqRight _).seqRight _).second (((hno hgoto).seqRight _).second ?_)
    have hkind := accepts_oneOf hk (k.solid_write ('\n' :: rest)).space rfl
    exact ((accepts_keyword hl rfl).seqRight (hkind.require _)).first _
  cases response with
  | goToZero =>
    exact hgoto hl (by decide) (accepts_errorTarget_number 0 (.inl (by decide)) rest)
  | goToMinusOne =>
    exact hgoto hl (by decide) (accepts_errorTarget_number (-1) (.inr (by decide)) rest)
  | goToLabel label =>
    have hlabel := isName_iff.mp h
    refine hgoto hl (by simp [ErrorResponse.word]) ?_
    refine (accepts_nextToken _).andThen fun place _ => ?_
    refine (refuses_read (misses_number_name hlabel ('\n' :: rest))).opt.known ?_
    refine (accepts_requireName hlabel _ (hlabel.solid_append _).space (noWord_newline rest)).map ?_
    rintro _ rfl
    rfl
  | exitSub => exact hexit hl (by decide) (by decide) rfl
  | exitFunction => exact hexit hl (by decide) (by decide) rfl
  | exitProperty => exact hexit hl (by decide) (by decide) rfl
  | resumeNext =>
    have hnext := accepts_requireKeyword (Keyword.Next.solid_write ('\n' :: rest)).space rfl
    refine Accepts.first ?_ _
    exact ((accepts_keyword hl rfl).seqRight hnext).seqRight (accepts_pure rfl)

theorem lineNumber?_plainNumber (value : Int32) : lineNumber? (plainNumber value) = some value := by
  have hwhole := wholeNumber?_plainNumber value
  unfold plainNumber at hwhole ⊢
  split
  · rename_i h
    rw [if_pos h] at hwhole
    exact hwhole
  · rfl

theorem accepts_resumePoint {point : ResumePoint} (h : point.isPrintable = true)
    (rest : List Char) :
    Accepts resumePoint (point.write ('\n' :: rest)) ('\n' :: rest)
      fun found => found = point := by
  refine (accepts_nextToken _).andThen fun place _ => ?_
  cases point with
  | next =>
    refine Accepts.first ?_ _
    have hnext := (Keyword.Next.solid_write ('\n' :: rest)).space
    exact (accepts_keyword hnext rfl).seqRight (accepts_pure rfl)
  | line number =>
    have hsolid := solid_decimalText number.toInt ('\n' :: rest)
    obtain ⟨c, tail, hw, _, hc⟩ := Literal.decimalText_eq_cons number.toInt ('\n' :: rest)
    have hspells : spells .Next (decimalText number.toInt ++ '\n' :: rest) = false := by
      rw [hw]
      exact spells_cons_eq_false .Next tail hc
    refine ((refuses_keyword hsolid.space hspells).seqRight _).second (Accepts.first ?_ _)
    have hnumber := takes_plainNumber hsolid.space (delimits_newline rest).edge
    refine (accepts_read hnumber).andThen ?_
    rintro _ rfl
    rw [lineNumber?_plainNumber]
    exact accepts_pure rfl
  | label name =>
    have hname := isName_iff.mp h
    have hleads := (hname.solid_append ('\n' :: rest)).space
    have hspells := hname.spells_append .Next (noWord_newline rest)
    refine ((refuses_keyword hleads hspells).seqRight _).second ?_
    refine ((refuses_read (misses_number_name hname _)).andThen _).second (Accepts.first ?_ _)
    refine (accepts_identifier hname hleads (noWord_newline rest)).map ?_
    rintro _ rfl
    rfl
  | unwritten =>
    have hl := (solid_newline rest).here
    refine ((refuses_keyword hl (spells_cons_eq_false .Next rest rfl)).seqRight _).second ?_
    refine ((refuses_read (misses_number hl rfl (by simp))).andThen _).second ?_
    refine ((refuses_read (misses_identifier hl rfl)).map _).second (Accepts.first ?_ _)
    exact accepts_pure rfl

/-! ## Expressions and references in statements -/

theorem accepts_requireExpression {e : Expression} (h : e.isPrintable = true) (part : String)
    (hr : Delimits rest) :
    Accepts (requireExpression part) (' ' :: e.write wide rest) rest
      (UpToSpans Expression.relabel e) := by
  have hl := (e.solid_write h wide hr.edge.noWord).space
  exact (accepts_read (takes_expression_write e h hl hr)).require _

theorem accepts_anyReference {target : Reference} (h : target.isPrintable = true)
    (hl : Leads text (target.write wide rest)) (hr : EndsName rest) :
    Accepts anyReference text rest (UpToSpans Reference.relabel target) :=
  accepts_read (takes_reference_write h hl hr)

theorem accepts_requireReference {target : Reference} (h : target.isPrintable = true)
    (part : String) (hr : EndsName rest) :
    Accepts (requireReference part) (' ' :: target.write wide rest) rest
      (UpToSpans Reference.relabel target) := by
  have hl := (target.refers_write h wide hr.noWord).solid.space
  exact (accepts_anyReference h hl hr).require _

/-- Arguments up to the closing parenthesis. -/
theorem accepts_requireArguments {values : List Expression} (h : arePrintable values = true)
    (rest : List Char) :
    Accepts requireArguments (writeArguments wide values rest) rest fun found =>
      found.map (Expression.relabel .erase) = values.map (Expression.relabel .erase) := by
  intro inside c hc
  obtain ⟨found, after, hfound, hafter, hsame⟩ := arguments_write values h hc
  rw [relabelExpressions_eq_map, relabelExpressions_eq_map] at hsame
  refine ⟨found, after, ?_, hafter, hsame⟩
  simp only [requireArguments, hfound]

theorem arePrintable_iff {values : List Expression} :
    arePrintable values = true ↔ ∀ e ∈ values, e.isPrintable = true := by
  induction values with
  | nil => simp [arePrintable]
  | cons e values ih => simp [arePrintable, ih]

theorem writeMore_eq (wide : Bool) (values : List Expression) (rest : List Char) :
    writeMore wide values rest = writeTail wide (Expression.write wide) values rest := by
  induction values with
  | nil => rfl
  | cons e values ih =>
    rw [writeMore, ih]
    rfl

/-- Expressions without parentheses. -/
theorem accepts_expressionList {e : Expression} {others : List Expression}
    (h : arePrintable (e :: others) = true)
    (hl : Leads text (e.write wide (writeTail wide (Expression.write wide) others rest)))
    (hr : Halts rest) (hstop : Stays (Cursor.symbol ',') rest) :
    Accepts expressionList text rest fun found =>
      found.map (Expression.relabel .erase) = (e :: others).map (Expression.relabel .erase) := by
  obtain ⟨he, hothers⟩ := Bool.and_eq_true_iff.mp h
  rw [arePrintable_iff] at hothers
  refine accepts_separated (Expression.relabel .erase) (halts_comma wide) hl ?_ ?_ ?_ ?_ hr hstop
  · exact fun hl ht => accepts_read (takes_expression_write e he hl ht.toDelimits)
  · exact fun one ho tail ht => one.solid_write (hothers one ho) wide ht.noWord
  · exact fun one ho _ _ hl ht =>
      (accepts_read (takes_expression_write one (hothers one ho) hl ht.toDelimits)).require _
  · exact (consumes_symbol ',').andThen fun _ => (yields_requireExpression _).advances

end Grammar

end VisualBasic
