import VisualBasic.Proofs.Writing.Variable

/-!
# Writing declarations

A declaration stands on a line of its own; a record or an enumeration has a line for every member
and one that closes it. Parameters stand in parentheses, with the words before their names.
-/

set_option autoImplicit false

namespace VisualBasic

variable {wide : Bool} {text token rest : List Char}

/-! ## Access modifiers -/

def Access.keyword? : Access → Option Keyword
  | .Unwritten => none
  | .Dim => some .Dim
  | .Global => some .Global
  | .Public => some .Public
  | .Private => some .Private
  | .Friend => some .Friend

/-- A word that no access modifier is. -/
def IsNoAccess (word : Option Keyword) : Prop :=
  ∀ entry ∈ Grammar.accessKeywords, word ≠ some entry.1

instance (word : Option Keyword) : Decidable (IsNoAccess word) :=
  inferInstanceAs (Decidable (∀ entry ∈ Grammar.accessKeywords, word ≠ some entry.1))

namespace Grammar

open Parse

variable {α : Type} {access : Access} {word : Option Keyword}

theorem accepts_access (ha : access ≠ .Dim) (hl : Leads text (writeWord access.keyword? token))
    (ht : Begins token word) (hw : IsNoAccess word) :
    ∃ middle, Leads middle token ∧
      Accepts Grammar.access text middle fun found => found = access := by
  have hs : ∀ entry ∈ accessKeywords, spells entry.1 token = false :=
    fun entry he => ht.spells_eq_false (hw entry he)
  have hk : ∀ k, access.keyword? = some k → (accessKeywords.lookup k).isSome := by
    intro k hk
    cases access <;> cases hk <;> first | rfl | contradiction
  obtain ⟨middle, hmiddle, hopt⟩ := accepts_optOneOf hl ht.solid hs hk
  refine ⟨middle, hmiddle, hopt.known (accepts_pure ?_)⟩
  cases access <;> first | rfl | contradiction

/-- After the access modifier comes another word. -/
theorem refuses_introduced {k : Keyword} {f : Access → Unit → Parse α} (hk : word ≠ some k)
    (hdim : k ≠ .Dim) (ht : Begins token word) (hw : IsNoAccess word) :
    Refuses (do let access ← Grammar.access; let found ← keyword k; f access found)
      (writeWord access.keyword? token) := by
  have hwritten := ht.writeWord access.keyword?
  by_cases ha : access = .Dim
  · subst ha
    have hs : ∀ entry ∈ accessKeywords,
        spells entry.1 (writeWord Access.Dim.keyword? token) = false :=
      fun entry he => hwritten.spells_eq_false ((by decide : IsNoAccess (some .Dim)) entry he)
    have haccess : Accepts Grammar.access (writeWord Access.Dim.keyword? token)
        (writeWord Access.Dim.keyword? token) fun _ => True :=
      (refuses_oneOf hwritten.solid.here hs).opt.andThen fun _ _ => accepts_pure trivial
    refine haccess.refuses fun _ _ => ?_
    refine (refuses_keyword hwritten.solid.here (hwritten.spells_eq_false ?_)).andThen _
    rintro hk
    exact hdim (Option.some.inj hk).symm
  · obtain ⟨middle, hmiddle, haccess⟩ := accepts_access ha hwritten.solid.here ht hw
    refine haccess.refuses fun _ _ => ?_
    exact (refuses_keyword hmiddle (ht.spells_eq_false hk)).andThen _

theorem accepts_introduced {k : Keyword} {f : Access → Unit → Parse α} {V : α → Prop}
    {body : List Char} (ha : access ≠ .Dim) (hk : IsNoAccess (some k))
    (hf : Accepts (f access ()) (' ' :: body) rest V) :
    Accepts (do let access ← Grammar.access; let found ← keyword k; f access found)
      (writeWord access.keyword? (k.write (' ' :: body))) rest V := by
  have hbegins : Begins (k.write (' ' :: body)) (some k) := k.begins_write rfl
  have hwritten := hbegins.writeWord access.keyword?
  obtain ⟨middle, hmiddle, haccess⟩ := accepts_access ha hwritten.solid.here hbegins hk
  exact haccess.known ((accepts_keyword hmiddle rfl).andThen fun _ _ => hf)

end Grammar

/-! ## Groups of variables and constants -/

/-- A group of variables has an access modifier or `Dim`. -/
def VariableGroup.isPrintable (group : VariableGroup) : Bool :=
  group.access ≠ .Unwritten && ! group.members.isEmpty && group.members.all Variable.isPrintable

def VariableGroup.write (wide : Bool) (group : VariableGroup) (rest : List Char) : List Char :=
  writeWord group.access.keyword? <|
    writeWord (if group.withEvents then some .WithEvents else none) <|
      writeSeparated wide (Variable.write wide) group.members ('\n' :: rest)

def Constant.isPrintable (constant : Constant) : Bool :=
  constant.declared.isPrintable && constant.value.isPrintable

def Constant.write (wide : Bool) (constant : Constant) (rest : List Char) : List Char :=
  constant.declared.write wide (' ' :: '=' :: ' ' :: constant.value.write rest)

def ConstantGroup.isPrintable (group : ConstantGroup) : Bool :=
  group.access ≠ .Dim && ! group.constants.isEmpty && group.constants.all Constant.isPrintable

def ConstantGroup.write (wide : Bool) (group : ConstantGroup) (rest : List Char) : List Char :=
  writeWord group.access.keyword? <|
    Keyword.Const.write
      (' ' :: writeSeparated wide (Constant.write wide) group.constants ('\n' :: rest))

theorem begins_writeSeparated {members : List Variable} (hne : members ≠ [])
    (h : ∀ one ∈ members, one.isPrintable = true) (wide : Bool) (hr : Halts rest) :
    Begins (writeSeparated wide (Variable.write wide) members rest) none := by
  cases members with
  | nil => exact absurd rfl hne
  | cons one others =>
    have htail := before_writeTail (Variable.write wide) (halts_comma wide) others hr
    exact Variable.begins_write (h one (by simp)) wide htail.toDelimits

namespace Grammar

open Parse

/-- The access modifier or `Dim` of a group of variables. -/
theorem accepts_groupAccess {access : Access} (ha : access ≠ .Unwritten) (body : List Char) :
    Accepts (orElse (oneOf accessKeywords) (keyword .Dim *> pure .Dim))
      (writeWord access.keyword? body) (' ' :: body) fun found => found = access := by
  have hmodifier (k : Keyword) (hk : accessKeywords.lookup k = some access) :
      Accepts (orElse (oneOf accessKeywords) (keyword .Dim *> pure .Dim)) (k.write (' ' :: body))
        (' ' :: body) fun found => found = access :=
    (accepts_oneOf hk (k.solid_write (' ' :: body)).here rfl).first _
  cases access with
  | Unwritten => contradiction
  | Global => exact hmodifier .Global rfl
  | Public => exact hmodifier .Public rfl
  | Private => exact hmodifier .Private rfl
  | Friend => exact hmodifier .Friend rfl
  | Dim =>
    have hbegins : Begins (Keyword.Dim.write (' ' :: body)) (some .Dim) :=
      Keyword.Dim.begins_write rfl
    refine Refuses.second (refuses_oneOf hbegins.solid.here fun entry he => ?_) ?_
    · exact hbegins.spells_eq_false ((by decide : IsNoAccess (some .Dim)) entry he)
    · exact (accepts_keyword hbegins.solid.here rfl).seqRight (accepts_pure rfl)

theorem accepts_variableGroup {group : VariableGroup} (h : group.isPrintable = true)
    (hl : Leads text (group.write wide rest)) :
    Accepts variableGroup text rest (UpToSpans VariableGroup.relabel group) := by
  obtain ⟨access, withEvents, members, span⟩ := group
  simp only [VariableGroup.isPrintable, Bool.and_eq_true, decide_eq_true_eq, Bool.not_eq_true',
    List.isEmpty_eq_false_iff, List.all_eq_true] at h
  obtain ⟨⟨haccess, hne⟩, hmembers⟩ := h
  have hbegins := begins_writeSeparated hne hmembers wide (halts_newline rest)
  have hevents := hbegins.writeWord (if withEvents then some .WithEvents else none)
  obtain ⟨middle, hmiddle, hflag⟩ := accepts_flag hevents.solid.space hbegins.solid
    (hbegins.spells_eq_false (k := .WithEvents) (by simp))
  refine Accepts.sentence _ hl ?_
  refine (accepts_groupAccess haccess _).known (hflag.known ?_)
  refine (accepts_declaredVariables hne hmembers hmiddle ?_ (halts_newline rest)
    (stays_comma_newline rest)).andThen fun found hfound => ?_
  · exact fun hone hl hr => accepts_declaredVariable hone hl hr
  · refine accepts_pure fun place => ?_
    simp only [UpToSpans, VariableGroup.relabel, hfound]
    rfl

theorem accepts_constant {constant : Constant} (h : constant.isPrintable = true)
    (hl : Leads text (constant.write wide rest)) (hr : Halts rest) :
    Accepts Grammar.constant text rest (UpToSpans Constant.relabel constant) := by
  obtain ⟨declared, value⟩ := constant
  obtain ⟨hdeclared, hvalue⟩ := Bool.and_eq_true_iff.mp h
  refine ((accepts_declaredVariable hdeclared hl (halts_equals _)).require _).andThen ?_
  rintro found hfound
  refine (accepts_requireSymbol (solid_equals _).space).skip ?_
  have hliteral := Literal.takes_write hvalue (Literal.solid_write hvalue rest).space hr.edge
  refine ((accepts_read hliteral).require _).known ?_
  refine accepts_pure ?_
  simp only [UpToSpans] at hfound
  simp only [UpToSpans, Constant.relabel, hfound]

theorem accepts_constantGroup {group : ConstantGroup} (h : group.isPrintable = true)
    (hl : Leads text (group.write wide rest)) :
    Accepts constantGroup text rest (UpToSpans ConstantGroup.relabel group) := by
  obtain ⟨access, constants, span⟩ := group
  simp only [ConstantGroup.isPrintable, Bool.and_eq_true, decide_eq_true_eq, Bool.not_eq_true',
    List.isEmpty_eq_false_iff, List.all_eq_true] at h
  obtain ⟨⟨haccess, hne⟩, hconstants⟩ := h
  refine Accepts.sentence _ hl (accepts_introduced haccess (by decide) ?_)
  have hsolid : ∀ one ∈ constants, ∀ tail, Halts tail → Solid (one.write wide tail) := by
    intro one ho tail ht
    obtain ⟨hdeclared, _⟩ := Bool.and_eq_true_iff.mp (hconstants one ho)
    exact (Variable.begins_write hdeclared wide (halts_equals _).toDelimits).solid
  cases constants with
  | nil => exact absurd rfl hne
  | cons one others =>
    have htail :=
      before_writeTail (Constant.write wide) (halts_comma wide) others (halts_newline rest)
    refine (accepts_separated (Constant.relabel .erase) (halts_comma wide)
      (hsolid one (by simp) _ htail).space
      (fun hl ht => accepts_constant (hconstants one (by simp)) hl ht)
      (fun one ho => hsolid one (List.mem_cons_of_mem _ ho))
      (fun one ho _ _ hl ht => accepts_constant (hconstants one (List.mem_cons_of_mem _ ho)) hl ht)
      ((consumes_symbol ',').andThen fun _ => yields_constant.advances)
      (halts_newline rest) (stays_comma_newline rest)).andThen fun found hfound => ?_
    refine accepts_pure fun place => ?_
    simp only [UpToSpans, ConstantGroup.relabel, hfound]
    rfl

end Grammar

/-! ## Records and enumerations -/

/-- Each part on a line of its own. -/
def writeLines {α : Type} (write : α → List Char → List Char) (values : List α)
    (rest : List Char) : List Char :=
  values.foldr (fun value rest => write value ('\n' :: rest)) rest

def Record.isPrintable (declared : Record) : Bool :=
  declared.access ≠ .Dim && isName declared.name && ! declared.members.isEmpty &&
    declared.members.all Variable.isPrintable

def Record.write (wide : Bool) (declared : Record) (rest : List Char) : List Char :=
  writeWord declared.access.keyword? <| Keyword.Type.write <| ' ' :: (declared.name.toList ++
    '\n' :: writeLines (Variable.write wide) declared.members (writeEnd .Type rest))

/-- A value after an equals sign, where there is one. -/
def writeValue : Option Literal → List Char → List Char
  | none, rest => rest
  | some value, rest => ' ' :: '=' :: ' ' :: value.write rest

theorem halts_writeValue (value : Option Literal) (hr : Halts rest) :
    Halts (writeValue value rest) := by
  cases value with
  | none => exact hr
  | some value => exact halts_equals _

def EnumItem.isPrintable (item : EnumItem) : Bool :=
  isName item.name && item.value.all Literal.isPrintable

def EnumItem.write (item : EnumItem) (rest : List Char) : List Char :=
  item.name.toList ++ writeValue item.value rest

def Enumeration.isPrintable (declared : Enumeration) : Bool :=
  declared.access ≠ .Dim && isName declared.name && ! declared.items.isEmpty &&
    declared.items.all EnumItem.isPrintable

def Enumeration.write (declared : Enumeration) (rest : List Char) : List Char :=
  writeWord declared.access.keyword? <| Keyword.Enum.write <| ' ' :: (declared.name.toList ++
    '\n' :: writeLines EnumItem.write declared.items (writeEnd .Enum rest))

namespace Grammar

open Parse

theorem stays_equals_newline (rest : List Char) : Stays (Cursor.symbol '=') ('\n' :: rest) :=
  stays_symbol (solid_newline rest).here (by simp)

/-- An equals sign and a value, or neither. -/
theorem accepts_optValue {value : Option Literal} (h : value.all Literal.isPrintable = true)
    (hr : Edge rest) (hstop : Stays (Cursor.symbol '=') rest) (expected : Expected) :
    Accepts (opt (symbol '=' *> require expected (read literal))) (writeValue value rest) rest
      fun found => found = value := by
  cases value with
  | none => exact ((refuses_pass hstop).seqRight _).opt
  | some value =>
    have hliteral := Literal.takes_write h (Literal.solid_write h rest).space hr
    have hvalue := (accepts_symbol (solid_equals (' ' :: value.write rest)).space).seqRight
      ((accepts_read hliteral).require expected)
    refine hvalue.opt.weaken ?_
    rintro _ ⟨_, rfl, rfl⟩
    rfl

/-- Lines of members up to the words that close them. -/
theorem accepts_memberLines {α γ : Type} {member : Parse α} {write : α → List Char → List Char}
    (view : α → γ) {values : List α} (hne : values ≠ [])
    (hbegins : ∀ value ∈ values, ∀ tail, Begins (write value ('\n' :: tail)) none)
    (hmember : ∀ value ∈ values, ∀ tail, Accepts member (write value ('\n' :: tail))
      ('\n' :: tail) fun found => view found = view value)
    (hconsumes : Consumes member) (k : Keyword) (hstop : Refuses member (writeEnd k rest))
    (expected : Expected) :
    Accepts (memberLines member expected) ('\n' :: writeLines write values (writeEnd k rest))
      (writeEnd k rest) fun found => found.map view = values.map view := by
  have hcode : ∀ value ∈ values, ∀ tail, BeginsCode (write value ('\n' :: tail)) :=
    fun value hv tail => ⟨none, hbegins value hv tail, by simp⟩
  have hend : BeginsCode (writeEnd k rest) := ⟨_, begins_writeEnd k rest, by simp⟩
  have hfirst : BeginsCode (writeLines write values (writeEnd k rest)) := by
    cases values with
    | nil => exact absurd rfl hne
    | cons value others => exact hcode value (by simp) _
  have hconsumes : Consumes (do let value ← member; requireTerminator; skipTrivia; return value) :=
    hconsumes.andThen fun value => advances_bind moves_requireTerminator.advances fun _ =>
      advances_bind moves_skipTrivia.advances fun _ => advances_pure value
  have hlines : Accepts (many do let value ← member; requireTerminator; skipTrivia; return value)
      (writeLines write values (writeEnd k rest)) (writeEnd k rest)
      fun found => found.map view = values.map view := by
    refine accepts_many view hconsumes (fun value hv tail _ => hcode value hv tail) ?_ hend
      (hstop.andThen _)
    intro value hv tail htail
    refine (hmember value hv tail).andThen fun found hfound => ?_
    refine (accepts_requireTerminator tail).skip ?_
    exact (accepts_skipTrivia htail).skip (accepts_pure hfound)
  refine (accepts_requireTerminator _).skip ((accepts_skipTrivia hfirst).skip ?_)
  refine hlines.andThen fun found hfound => ?_
  have hnonempty : found.isEmpty = false := by
    cases found with
    | nil => exact absurd (List.map_eq_nil_iff.mp hfound.symm) hne
    | cons _ _ => rfl
  rw [hnonempty]
  exact accepts_pure hfound

/-- The words that close a record are no member of it. -/
theorem misses_identifier_writeEnd (k : Keyword) (rest : List Char) :
    Misses Cursor.identifier (writeEnd k rest) :=
  misses_identifier_of_isReserved (k := .End) rfl (begins_writeEnd k rest).solid.here rfl

theorem accepts_record {declared : Record} (h : declared.isPrintable = true)
    (hl : Leads text (declared.write wide rest)) :
    Accepts record text rest (UpToSpans Record.relabel declared) := by
  obtain ⟨access, name, members, span⟩ := declared
  simp only [Record.isPrintable, Bool.and_eq_true, decide_eq_true_eq, Bool.not_eq_true',
    List.isEmpty_eq_false_iff, List.all_eq_true] at h
  obtain ⟨⟨⟨haccess, hname⟩, hne⟩, hmembers⟩ := h
  have hname := isName_iff.mp hname
  refine Accepts.sentence _ hl (accepts_introduced haccess (by decide) ?_)
  refine (accepts_requireName hname _ (hname.solid_append _).space (noWord_newline _)).known ?_
  have hlines := @accepts_memberLines rest _ _ declaredVariable (Variable.write wide)
    (Variable.relabel .erase) _ hne
    (fun one ho tail => Variable.begins_write (hmembers one ho) wide (delimits_newline tail))
    (fun one ho tail => accepts_declaredVariable (hmembers one ho)
      (Variable.begins_write (hmembers one ho) wide (delimits_newline tail)).solid.here
      (halts_newline tail))
    (fun _ _ _ _ hm => (yields_declaredVariable.moves _ _ _ _ hm).length_lt) .Type
    (refuses_declaredVariable (begins_writeEnd .Type rest).solid.here
      (misses_identifier_writeEnd .Type rest)) (.part "type member")
  refine hlines.andThen fun found hfound => ?_
  refine (accepts_requireEnd .Type rest).skip ?_
  refine accepts_pure fun place => ?_
  simp only [UpToSpans, Record.relabel, hfound]
  rfl

theorem begins_enumItem {item : EnumItem} (h : item.isPrintable = true) (hr : Halts rest) :
    Begins (item.write rest) none :=
  (isName_iff.mp (Bool.and_eq_true_iff.mp h).1).begins_append (halts_writeValue _ hr).noWord

theorem accepts_enumItem {item : EnumItem} (h : item.isPrintable = true) (rest : List Char) :
    Accepts enumItem (item.write ('\n' :: rest)) ('\n' :: rest)
      (UpToSpans EnumItem.relabel item) := by
  have hbegins := begins_enumItem h (halts_newline rest)
  obtain ⟨name, value⟩ := item
  obtain ⟨hname, hvalue⟩ := Bool.and_eq_true_iff.mp h
  have hnoword := (halts_writeValue value (halts_newline rest)).noWord
  refine (accepts_identifier (isName_iff.mp hname) hbegins.solid.here hnoword).known ?_
  refine (accepts_optValue hvalue (delimits_newline rest).edge (stays_equals_newline rest) _).known
    ?_
  exact accepts_pure rfl

theorem accepts_enumeration {declared : Enumeration} (h : declared.isPrintable = true)
    (hl : Leads text (declared.write rest)) :
    Accepts enumeration text rest (UpToSpans Enumeration.relabel declared) := by
  obtain ⟨access, name, items, span⟩ := declared
  simp only [Enumeration.isPrintable, Bool.and_eq_true, decide_eq_true_eq, Bool.not_eq_true',
    List.isEmpty_eq_false_iff, List.all_eq_true] at h
  obtain ⟨⟨⟨haccess, hname⟩, hne⟩, hitems⟩ := h
  have hname := isName_iff.mp hname
  refine Accepts.sentence _ hl (accepts_introduced haccess (by decide) ?_)
  refine (accepts_requireName hname _ (hname.solid_append _).space (noWord_newline _)).known ?_
  have hlines :=
    @accepts_memberLines rest _ _ enumItem EnumItem.write (EnumItem.relabel .erase) _ hne
    (fun one ho tail => begins_enumItem (hitems one ho) (halts_newline tail))
    (fun one ho tail => accepts_enumItem (hitems one ho) tail)
    (fun _ _ _ _ hm => (moves_enumItem _ _ _ _ hm).length_lt) .Enum
    ((refuses_read (misses_identifier_writeEnd .Enum rest)).andThen _) (.part "enum item")
  refine hlines.andThen fun found hfound => ?_
  refine (accepts_requireEnd .Enum rest).skip ?_
  refine accepts_pure fun place => ?_
  simp only [UpToSpans, Enumeration.relabel, hfound]
  rfl

end Grammar

/-! ## Parameters -/

def Passing.keyword : Passing → Keyword
  | .ByVal => .ByVal
  | .ByRef => .ByRef

namespace Parameter

def isPrintable (parameter : Parameter) : Bool :=
  parameter.declared.isPrintable && parameter.default.all Literal.isPrintable

def write (wide : Bool) (parameter : Parameter) (rest : List Char) : List Char :=
  writeWord (if parameter.isOptional then some .Optional else none) <|
    writeWord (parameter.passing.map Passing.keyword) <|
      writeWord (if parameter.isParamArray then some .ParamArray else none) <|
        parameter.declared.write wide (writeValue parameter.default rest)

theorem begins_declared {parameter : Parameter} (h : parameter.isPrintable = true) (wide : Bool)
    (hr : Halts rest) :
    Begins (parameter.declared.write wide (writeValue parameter.default rest)) none :=
  Variable.begins_write (Bool.and_eq_true_iff.mp h).1 wide (halts_writeValue _ hr).toDelimits

theorem solid_write {parameter : Parameter} (h : parameter.isPrintable = true) (wide : Bool)
    (hr : Halts rest) : Solid (parameter.write wide rest) :=
  ((((begins_declared h wide hr).writeWord _).writeWord _).writeWord _).solid

end Parameter

/-- A parameter ends before a comma or the closing parenthesis. -/
structure EndsParameter (text : List Char) : Prop extends Halts text where
  unequal : Parse.Stays (Cursor.symbol '=') text

theorem endsParameter_comma (wide : Bool) (rest : List Char) :
    EndsParameter (pad wide (',' :: rest)) :=
  ⟨halts_comma wide rest, Parse.stays_symbol ((solid_comma rest).pad wide) (by simp)⟩

theorem endsParameter_close (wide : Bool) (rest : List Char) :
    EndsParameter (pad wide (')' :: rest)) :=
  ⟨halts_close wide rest, Parse.stays_symbol ((solid_close rest).pad wide) (by simp)⟩

namespace Grammar

open Parse

theorem accepts_parameter {one : Parameter} (h : one.isPrintable = true)
    (hl : Leads text (one.write wide rest)) (hr : EndsParameter rest) :
    Accepts parameter text rest (UpToSpans Parameter.relabel one) := by
  have hdeclared := Parameter.begins_declared h wide hr.toHalts
  obtain ⟨isOptional, passing, isParamArray, declared, default⟩ := one
  obtain ⟨hprintable, hdefault⟩ := Bool.and_eq_true_iff.mp h
  have harray := hdeclared.writeWord (if isParamArray then some .ParamArray else none)
  have hpassing := harray.writeWord (passing.map Passing.keyword)
  have hnoOptional : spells .Optional _ = false := hpassing.spells_eq_false (by
    rcases passing with _ | _ | _ <;> cases isParamArray <;> simp [Passing.keyword])
  have hnoPassing : ∀ entry ∈ [(Keyword.ByVal, Passing.ByVal), (.ByRef, .ByRef)],
      spells entry.1 _ = false := fun entry he => harray.spells_eq_false (by
    revert entry
    cases isParamArray <;> simp)
  obtain ⟨text₁, hl₁, hoptional⟩ := accepts_flag hl hpassing.solid hnoOptional
  obtain ⟨text₂, hl₂, hpassed⟩ := accepts_optOneOf hl₁ harray.solid hnoPassing (by
    rcases passing with _ | _ | _ <;> simp [Passing.keyword])
  obtain ⟨text₃, hl₃, harrayed⟩ := accepts_flag hl₂ hdeclared.solid
    (hdeclared.spells_eq_false (k := .ParamArray) (by simp))
  have hvariable := accepts_declaredVariable hprintable hl₃ (halts_writeValue default hr.toHalts)
  have hvalue := accepts_optValue hdefault hr.edge hr.unequal (.part "default value")
  refine Accepts.within ?_ _
  refine hoptional.known (hpassed.andThen fun found hfound => harrayed.known ?_)
  have hpassed : found = passing := by
    rw [hfound]
    rcases passing with _ | _ | _ <;> rfl
  have hcommitted : Accepts (if isOptional || found.isSome || isParamArray
      then require (.part "parameter name") declaredVariable else declaredVariable) text₃
      (writeValue default rest) (UpToSpans Variable.relabel declared) := by
    split
    · exact hvariable.require _
    · exact hvariable
  refine hcommitted.andThen fun found hsame => hvalue.known (accepts_pure ?_)
  simp only [UpToSpans] at hsame
  simp only [UpToSpans, Parameter.relabel, hsame, hpassed]

/-- The parameters of a procedure in parentheses, none included. -/
theorem accepts_procedureParameters {parameters : List Parameter}
    (h : ∀ one ∈ parameters, one.isPrintable = true)
    (hl : Leads text (writeParentheses wide (Parameter.write wide) parameters rest)) :
    Accepts procedureParameters text rest fun found =>
      found.map (Parameter.relabel .erase) = parameters.map (Parameter.relabel .erase) := by
  have hlist : Accepts parameterList text rest fun found =>
      found.map (Parameter.relabel .erase) = parameters.map (Parameter.relabel .erase) := by
    have hclose := (solid_close rest).pad wide
    refine (accepts_symbol hl).skip ?_
    cases parameters with
    | nil =>
      have hidentifier := misses_identifier (solid_close rest).here rfl
      have hnone (k : Keyword) : Refuses (keyword k) (pad wide (')' :: rest)) :=
        refuses_keyword hclose (spells_cons_eq_false k rest rfl)
      have hparameter : Refuses parameter (pad wide (')' :: rest)) := by
        refine Refuses.within ?_ _
        refine (hnone .Optional).flag.refuses fun isOptional ho => ?_
        refine (refuses_oneOf hclose ?_).opt.refuses fun passing hp => ?_
        · exact fun entry _ => spells_cons_eq_false entry.1 rest rfl
        refine (hnone .ParamArray).flag.refuses fun isParamArray ha => ?_
        subst ho hp ha
        exact (refuses_declaredVariable hclose hidentifier).andThen _
      refine ((hparameter.andThen _).opt).known ?_
      exact (accepts_requireSymbol hclose).skip (accepts_pure rfl)
    | cons one others =>
      have htail := before_writeTail (Parameter.write wide) (endsParameter_comma wide) others
        (endsParameter_close wide rest)
      have hleads := (Parameter.solid_write (h one (by simp)) wide htail.toHalts).pad wide
      have hothers : ∀ other ∈ others, other.isPrintable = true :=
        fun other ho => h other (List.mem_cons_of_mem _ ho)
      have hparameters := accepts_separated (Parameter.relabel .erase) (endsParameter_comma wide)
        hleads (fun hl ht => accepts_parameter (h one (by simp)) hl ht)
        (fun other ho _ ht => Parameter.solid_write (hothers other ho) wide ht.toHalts)
        (fun other ho _ _ hl ht => (accepts_parameter (hothers other ho) hl ht).require
          (.part "parameter"))
        ((consumes_symbol ',').andThen fun _ => yields_parameter.moves.require.advances)
        (endsParameter_close wide rest) (stays_symbol hclose (by simp))
      refine (Accepts.opt hparameters).andThen ?_
      rintro _ ⟨found, rfl, hfound⟩
      exact (accepts_requireSymbol hclose).skip (accepts_pure hfound)
  refine hlist.opt.andThen ?_
  rintro _ ⟨found, rfl, hfound⟩
  exact accepts_pure hfound

end Grammar

/-! ## Procedures of libraries and heads -/

/-- A text that fits on one line. -/
def isUnbroken (value : String) : Bool := value.toList.all (! isBreak ·)

theorem solid_quotedText (value : List Char) (rest : List Char) :
    Solid (quotedText value ++ rest) := solid_cons _ rfl (by decide)

namespace External

def isPrintable (declared : External) : Bool :=
  declared.access ≠ .Dim && isName declared.name && isUnbroken declared.library &&
    declared.entryPoint.all isUnbroken && declared.parameters.all Parameter.isPrintable

/-- The name that a procedure has in its library, where it is written. -/
def writeEntryPoint : Option String → List Char → List Char
  | none, rest => rest
  | some name, rest => ' ' :: Keyword.Alias.write (' ' :: (quotedText name.toList ++ rest))

def write (wide : Bool) (k : Keyword) (declared : External) (rest : List Char) : List Char :=
  writeWord declared.access.keyword? <| Keyword.Declare.write <| ' ' :: k.write (' ' ::
    (declared.name.toList ++ ' ' :: Keyword.Lib.write (' ' :: (quotedText declared.library.toList ++
      writeEntryPoint declared.entryPoint
        (' ' :: writeParentheses wide (Parameter.write wide) declared.parameters rest)))))

end External

/-- A name and the parameters after it. -/
def writeSignature (wide : Bool) (name : String) (parameters : List Parameter)
    (rest : List Char) : List Char :=
  name.toList ++ writeParentheses wide (Parameter.write wide) parameters rest

def Head.isPrintable (head : Head) : Bool :=
  head.access ≠ .Dim && isName head.name && head.parameters.all Parameter.isPrintable

def Head.write (wide : Bool) (k : Keyword) (head : Head) (rest : List Char) : List Char :=
  writeWord head.access.keyword? <| k.write <|
    ' ' :: writeSignature wide head.name head.parameters rest

namespace Grammar

open Parse

variable {α : Type}

theorem accepts_requireQuoted {value : String} (h : isUnbroken value = true) (part : String)
    (hl : Leads text (quotedText value.toList ++ rest)) (hr : rest.head? ≠ some '"') :
    Accepts (requireQuoted part) text rest fun found => found = value :=
  (accepts_read (takes_quoted hl h hr)).require _

theorem accepts_entryPoint {name : Option String} (h : name.all isUnbroken = true)
    (rest : List Char) :
    Accepts (after .Alias (requireQuoted "alias name"))
      (External.writeEntryPoint name (' ' :: '(' :: rest)) (' ' :: '(' :: rest)
      fun found => found = name := by
  cases name with
  | none =>
    have hs := spells_cons_eq_false .Alias rest (c := '(') rfl
    exact accepts_after_none (stays_keyword (solid_open rest).space hs) _
  | some name =>
    have hquoted := accepts_requireQuoted h "alias name"
      (solid_quotedText name.toList (' ' :: '(' :: rest)).space (by simp)
    refine (accepts_after (Keyword.Alias.solid_write (' ' :: _)).space rfl hquoted).weaken ?_
    rintro _ ⟨_, rfl, rfl⟩
    rfl

/-- What declares a procedure of a library, up to its parameters. -/
theorem accepts_external {declared : External} (h : declared.isPrintable = true) {k : Keyword}
    {isFunction : Bool}
    (hk : List.lookup k [(Keyword.Sub, false), (.Function, true)] = some isFunction)
    {f : Access → Bool → String → String → Option String → List Parameter → Parse α} {V : α → Prop}
    {middle : List Char}
    (hf : ∀ parameters, parameters.map (Parameter.relabel .erase) =
        declared.parameters.map (Parameter.relabel .erase) →
      Accepts (f declared.access isFunction declared.name declared.library declared.entryPoint
        parameters) middle rest V) :
    Accepts (do
      let access ← Grammar.access
      keyword .Declare
      let isFunction ← require (.choice ["Sub"] "Function")
        (oneOf [(.Sub, false), (.Function, true)])
      let name ← requireName "procedure name"
      requireKeyword .Lib
      let library ← requireQuoted "library name"
      let entryPoint ← after .Alias (requireQuoted "alias name")
      let parameters ← procedureParameters
      f access isFunction name library entryPoint parameters)
      (declared.write wide k middle) rest V := by
  obtain ⟨access, name, library, entryPoint, parameters, span⟩ := declared
  simp only [External.isPrintable, Bool.and_eq_true, decide_eq_true_eq, List.all_eq_true] at h
  obtain ⟨⟨⟨⟨haccess, hname⟩, hlibrary⟩, hentry⟩, hparameters⟩ := h
  have hname := isName_iff.mp hname
  refine accepts_introduced haccess (by decide) ?_
  refine ((accepts_oneOf hk (k.solid_write (' ' :: _)).space rfl).require _).known ?_
  refine (accepts_requireName hname _ (hname.solid_append _).space (noWord_space _)).known ?_
  refine (accepts_requireKeyword (Keyword.Lib.solid_write (' ' :: _)).space rfl).skip ?_
  refine (accepts_requireQuoted hlibrary _ (solid_quotedText library.toList _).space ?_).known ?_
  · cases entryPoint <;> simp [External.writeEntryPoint]
  · refine (accepts_entryPoint hentry _).known ?_
    exact (accepts_procedureParameters hparameters (solid_open _).space).andThen hf

/-- The access modifier, the keyword, the name and the parameters of a head. -/
theorem accepts_signature {name : String} (hname : isName name = true) {parameters : List Parameter}
    (hparameters : ∀ one ∈ parameters, one.isPrintable = true) (part : String)
    {f : String → List Parameter → Parse α} {V : α → Prop} {middle : List Char}
    (hf : ∀ found, found.map (Parameter.relabel .erase) =
        parameters.map (Parameter.relabel .erase) → Accepts (f name found) middle rest V) :
    Accepts (do
      let name ← requireName part
      let parameters ← procedureParameters
      f name parameters)
      (' ' :: writeSignature wide name parameters middle) rest V := by
  have hname := isName_iff.mp hname
  refine (accepts_requireName hname _ (hname.solid_append _).space (noWord_open _)).known ?_
  exact (accepts_procedureParameters hparameters (solid_open _).here).andThen hf

theorem accepts_plainHead {head : Head} (h : head.isPrintable = true) (construct : Construct)
    {k : Keyword} (hk : IsNoAccess (some k)) (part : String)
    (hl : Leads text (head.write wide k ('\n' :: rest))) :
    Accepts (plainHead construct k part) text rest (UpToSpans Head.relabel head) := by
  obtain ⟨access, name, parameters, span⟩ := head
  simp only [Head.isPrintable, Bool.and_eq_true, decide_eq_true_eq, List.all_eq_true] at h
  obtain ⟨⟨haccess, hname⟩, hparameters⟩ := h
  refine Accepts.sentence _ hl (accepts_introduced haccess hk ?_)
  refine accepts_signature hname hparameters part fun found hfound => accepts_pure fun place => ?_
  simp only [UpToSpans, Head.relabel, hfound]
  rfl

end Grammar

/-! ## Declarations -/

/-- A text that begins with a word after an access modifier or none. -/
def Introduces (text : List Char) (word : Option Keyword) : Prop :=
  ∃ access token, text = writeWord (Access.keyword? access) token ∧ Begins token word ∧
    IsNoAccess word

namespace Declaration

def isPrintable : Declaration → Bool
  | .variableGroup group => group.isPrintable
  | .constantGroup group => group.isPrintable
  | .enumeration declared => declared.isPrintable
  | .record declared => declared.isPrintable
  | .externalSub declared => declared.isPrintable
  | .externalFunction declared => declared.isPrintable && declared.returnType.all isTypeName
  | .event head => head.isPrintable

def write (wide : Bool) : Declaration → List Char → List Char
  | .variableGroup group, rest => group.write wide rest
  | .constantGroup group, rest => group.write wide rest
  | .enumeration declared, rest => declared.write rest
  | .record declared, rest => declared.write wide rest
  | .externalSub declared, rest => declared.write wide .Sub ('\n' :: rest)
  | .externalFunction declared, rest =>
    declared.toExternal.write wide .Function (writeType false declared.returnType ('\n' :: rest))
  | .event head, rest => head.write wide .Event ('\n' :: rest)

/-- The word that tells the kind of a declaration. -/
def word : Declaration → Option Keyword
  | .variableGroup group => if group.withEvents then some .WithEvents else none
  | .constantGroup _ => some .Const
  | .enumeration _ => some .Enum
  | .record _ => some .Type
  | .externalSub _ => some .Declare
  | .externalFunction _ => some .Declare
  | .event _ => some .Event

theorem introduces_write {declared : Declaration} (h : declared.isPrintable = true) (wide : Bool)
    (rest : List Char) : Introduces (declared.write wide rest) declared.word := by
  have hkeyword (access : Access) (k : Keyword) (body : List Char)
      (hk : IsNoAccess (some k)) :
      Introduces (writeWord access.keyword? (k.write (' ' :: body))) (some k) :=
    ⟨access, _, rfl, k.begins_write rfl, hk⟩
  cases declared with
  | variableGroup group =>
    simp only [isPrintable, VariableGroup.isPrintable, Bool.and_eq_true, Bool.not_eq_true',
      List.isEmpty_eq_false_iff, List.all_eq_true] at h
    have hbegins := begins_writeSeparated h.1.2 h.2 wide (halts_newline rest)
    have hevents := hbegins.writeWord (if group.withEvents then some .WithEvents else none)
    rw [Option.or_none] at hevents
    refine ⟨_, _, rfl, hevents, ?_⟩
    change IsNoAccess (if group.withEvents then some .WithEvents else none)
    cases group.withEvents <;> decide
  | constantGroup group => exact hkeyword _ .Const _ (by decide)
  | enumeration declared => exact hkeyword _ .Enum _ (by decide)
  | record declared => exact hkeyword _ .Type _ (by decide)
  | externalSub declared => exact hkeyword _ .Declare _ (by decide)
  | externalFunction declared => exact hkeyword _ .Declare _ (by decide)
  | event head => exact hkeyword _ .Event _ (by decide)

end Declaration

namespace Grammar

open Parse

variable {word : Option Keyword}

theorem refuses_sentence_of_introduces {α : Type} {k : Keyword}
    {f : Access → Unit → Parse (Span → α)} (h : Introduces text word) (hk : word ≠ some k)
    (hdim : k ≠ .Dim) (construct : Construct) :
    Refuses (sentence construct (do
      let access ← Grammar.access; let found ← keyword k; f access found)) text := by
  obtain ⟨access, token, rfl, hbegins, hno⟩ := h
  refine Refuses.sentence construct (hbegins.writeWord access.keyword?).solid.here ?_
  exact refuses_introduced hk hdim hbegins hno

theorem relabel_external {declared : External} {found : List Parameter}
    (h : found.map (Parameter.relabel .erase) =
      declared.parameters.map (Parameter.relabel .erase)) (place : Span) :
    External.relabel .erase { declared with parameters := found, span := place } =
      declared.relabel .erase := by
  simp only [External.relabel, h]
  rfl

theorem accepts_externalSub {declared : External} (h : declared.isPrintable = true)
    (hl : Leads text (declared.write wide .Sub ('\n' :: rest))) :
    Accepts externalProcedure text rest
      (UpToSpans Declaration.relabel (.externalSub declared)) := by
  refine Accepts.sentence _ hl (accepts_external h rfl fun found hfound => ?_)
  exact accepts_pure fun place => congrArg Declaration.externalSub (relabel_external hfound place)

theorem accepts_externalFunction {declared : ExternalFunction}
    (h : declared.toExternal.isPrintable = true) (htype : declared.returnType.all isTypeName = true)
    (hl : Leads text (declared.toExternal.write wide .Function
      (writeType false declared.returnType ('\n' :: rest)))) :
    Accepts externalProcedure text rest
      (UpToSpans Declaration.relabel (.externalFunction declared)) := by
  refine Accepts.sentence _ hl (accepts_external h rfl fun found hfound => ?_)
  refine (accepts_returnType htype (halts_newline rest)).known (accepts_pure fun place => ?_)
  exact congrArg
    (fun common => Declaration.externalFunction
      ⟨common, declared.returnType.map Relabel.erase.text⟩)
    (relabel_external hfound place)

/-- Each declaration is read by the parser of its own kind. -/
theorem accepts_declaration {declared : Declaration} (h : declared.isPrintable = true)
    (rest : List Char) :
    Accepts declaration (declared.write wide rest) rest
      (UpToSpans Declaration.relabel declared) := by
  have hintro := Declaration.introduces_write h wide rest
  have hl : Leads (declared.write wide rest) (declared.write wide rest) := by
    obtain ⟨access, token, hw, hbegins, _⟩ := hintro
    rw [hw]
    exact (hbegins.writeWord access.keyword?).solid.here
  have hconst (hw : declared.word ≠ some .Const) : Refuses constantGroup _ :=
    refuses_sentence_of_introduces hintro hw (by decide) _
  have henum (hw : declared.word ≠ some .Enum) : Refuses enumeration _ :=
    refuses_sentence_of_introduces hintro hw (by decide) _
  have hrecord (hw : declared.word ≠ some .Type) : Refuses record _ :=
    refuses_sentence_of_introduces hintro hw (by decide) _
  have hexternal (hw : declared.word ≠ some .Declare) : Refuses externalProcedure _ :=
    refuses_sentence_of_introduces hintro hw (by decide) _
  have hevent (hw : declared.word ≠ some .Event) : Refuses eventHead _ :=
    refuses_sentence_of_introduces hintro hw (by decide) _
  cases declared with
  | constantGroup group =>
    exact ((accepts_constantGroup h hl).map fun _ hs => hs.under Declaration.constantGroup
      fun _ => rfl).first _
  | enumeration declared =>
    refine ((hconst (by simp [Declaration.word])).map _).second ?_
    exact ((accepts_enumeration h hl).map fun _ hs => hs.under Declaration.enumeration
      fun _ => rfl).first _
  | record declared =>
    refine ((hconst (by simp [Declaration.word])).map _).second ?_
    refine ((henum (by simp [Declaration.word])).map _).second ?_
    exact ((accepts_record h hl).map fun _ hs => hs.under Declaration.record fun _ => rfl).first _
  | externalSub declared =>
    refine ((hconst (by simp [Declaration.word])).map _).second ?_
    refine ((henum (by simp [Declaration.word])).map _).second ?_
    refine ((hrecord (by simp [Declaration.word])).map _).second ?_
    exact (accepts_externalSub h hl).first _
  | externalFunction declared =>
    obtain ⟨hcommon, htype⟩ := Bool.and_eq_true_iff.mp h
    refine ((hconst (by simp [Declaration.word])).map _).second ?_
    refine ((henum (by simp [Declaration.word])).map _).second ?_
    refine ((hrecord (by simp [Declaration.word])).map _).second ?_
    exact (accepts_externalFunction hcommon htype hl).first _
  | event head =>
    refine ((hconst (by simp [Declaration.word])).map _).second ?_
    refine ((henum (by simp [Declaration.word])).map _).second ?_
    refine ((hrecord (by simp [Declaration.word])).map _).second ?_
    refine (hexternal (by simp [Declaration.word])).second ?_
    have hhead := accepts_plainHead h .eventDeclaration (k := .Event) (by decide) "event name" hl
    exact (hhead.map fun _ hs => hs.under Declaration.event fun _ => rfl).first _
  | variableGroup group =>
    have hword {k : Keyword} (hk : k ≠ .WithEvents) :
        (Declaration.variableGroup group).word ≠ some k := by
      change (if group.withEvents then some .WithEvents else none) ≠ some k
      cases group.withEvents with
      | false => simp
      | true => simpa using hk.symm
    refine ((hconst (hword (by decide))).map _).second ?_
    refine ((henum (hword (by decide))).map _).second ?_
    refine ((hrecord (hword (by decide))).map _).second ?_
    refine (hexternal (hword (by decide))).second ?_
    refine ((hevent (hword (by decide))).map _).second ?_
    exact ((accepts_variableGroup h hl).map fun _ hs => hs.under Declaration.variableGroup
      fun _ => rfl).first _

end Grammar

end VisualBasic
