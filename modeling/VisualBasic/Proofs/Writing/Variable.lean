import VisualBasic.Proofs.Tree.Relabel
import VisualBasic.Proofs.Writing.Phrase

/-!
# Writing variables

A variable is a name with the bounds of an array, if it is one, and its type, if it has one. Bounds
are plain decimals.
-/

set_option autoImplicit false

namespace VisualBasic

variable {wide : Bool} {text token rest : List Char}

/-! ## Types -/

/-- One name or two with a dot between them. -/
def isTypeName (name : String) : Bool :=
  match dottedNames name with
  | [first] => isNameText first
  | [first, second] => isNameText first && isNameText second
  | _ => false

/-- What follows a declared name that has a type. -/
def writeType (isNew : Bool) : Option String → List Char → List Char
  | none, rest => rest
  | some name, rest =>
    ' ' :: Keyword.As.write (' ' ::
      writeWord (if isNew then some .New else none) (name.toList ++ rest))

theorem delimits_writeType (isNew : Bool) (type : Option String) (hr : Delimits rest) :
    Delimits (writeType isNew type rest) := by
  cases type with
  | none => exact hr
  | some name => exact delimits_keyword .As _

/-- A type name as its first name and what follows. -/
theorem isTypeName_cases {name : String} (h : isTypeName name = true) :
    ∃ first members, IsNameText first ∧ dottedNames name = first :: members ∧
      (members = [] ∨ ∃ second, members = [second] ∧ IsNameText second) := by
  unfold isTypeName at h
  split at h
  · rename_i first hnames
    exact ⟨first, [], isNameText_iff.mp h, hnames, .inl rfl⟩
  · rename_i first second hnames
    obtain ⟨hfirst, hsecond⟩ := Bool.and_eq_true_iff.mp h
    exact ⟨first, [second], isNameText_iff.mp hfirst, hnames,
      .inr ⟨second, rfl, isNameText_iff.mp hsecond⟩⟩
  · contradiction

namespace Grammar

open Parse

theorem accepts_nameText {name : List Char} (h : IsNameText name) (part : String)
    (hl : Leads text (name ++ rest)) (hr : NoWord rest) :
    Accepts (requireName part) text rest fun found => found = String.ofList name := by
  rw [← String.toList_ofList (l := name)] at h hl
  exact accepts_requireName h part hl hr

theorem accepts_typeName {name : String} (h : isTypeName name = true)
    (hl : Leads text (name.toList ++ rest)) (hr : Delimits rest) :
    Accepts typeName text rest fun found => found = name := by
  obtain ⟨first, members, hfirst, hnames, hmembers⟩ := isTypeName_cases h
  have hname : name = String.ofList (first ++ writeMembers members []) := by
    rw [← toList_of_dottedNames hnames, String.ofList_toList]
  rw [append_of_dottedNames hnames] at hl
  have hnoword := noWord_writeMembers members hr.edge.noWord
  refine (accepts_nameText hfirst _ hl hnoword).known ?_
  rcases hmembers with rfl | ⟨second, rfl, hsecond⟩
  · have hdot : Stays (Cursor.adjacent '.') rest := stays_adjacent hr.unpointed
    refine ((refuses_pass hdot).seqRight _).opt.known ?_
    exact accepts_pure (by simp [hname, writeMembers])
  · have hleads := (hsecond.solid_append rest).here
    have hdot : Accepts (adjacent '.') ('.' :: (second ++ rest)) (second ++ rest) fun _ => True :=
      accepts_pass (passes_adjacent '.')
    refine (hdot.seqRight (accepts_nameText hsecond _ hleads hr.edge.noWord)).opt.andThen ?_
    rintro _ ⟨_, rfl, rfl⟩
    refine accepts_pure ?_
    rw [hname, ← String.toList_inj]
    simp [writeMembers]

theorem begins_typeName {name : String} (h : isTypeName name = true) (hr : NoWord rest) :
    Begins (name.toList ++ rest) none := by
  obtain ⟨first, members, hfirst, hnames, _⟩ := isTypeName_cases h
  rw [append_of_dottedNames hnames]
  exact hfirst.begins_append (noWord_writeMembers members hr)

/-- The type of a variable. -/
theorem accepts_variableType {isNew : Bool} {type : Option String}
    (h : type.all isTypeName = true) (hnew : type.isSome || ! isNew) (hr : Halts rest) :
    Accepts (after .As variableType) (writeType isNew type rest) rest fun found =>
      found.map Prod.snd = type ∧ found.any Prod.fst = isNew := by
  cases type with
  | none =>
    obtain rfl : isNew = false := by simpa using hnew
    exact (accepts_after_none (hr.stays_keyword .As) _).weaken fun _ h => by
      rw [h]; exact ⟨rfl, rfl⟩
  | some name =>
    have hbegins := begins_typeName h hr.noWord
    have hwritten := hbegins.writeWord (if isNew then some .New else none)
    obtain ⟨middle, hmiddle, hflag⟩ := accepts_flag hwritten.solid.space hbegins.solid
      (hbegins.spells_eq_false (k := .New) (by simp))
    have htype := hflag.known (f := fun isNew => do return (isNew, ← typeName))
      ((accepts_typeName h hmiddle hr.toDelimits).known
        (accepts_pure (V := fun found => found = (isNew, name)) rfl))
    refine (accepts_after (Keyword.As.solid_write (' ' :: _)).space rfl htype).weaken ?_
    rintro _ ⟨_, rfl, rfl⟩
    exact ⟨rfl, rfl⟩

/-- The type of a result. -/
theorem accepts_returnType {type : Option String} (h : type.all isTypeName = true)
    (hr : Halts rest) :
    Accepts (after .As typeName) (writeType false type rest) rest fun found => found = type := by
  cases type with
  | none => exact accepts_after_none (hr.stays_keyword .As) _
  | some name =>
    have hleads := (begins_typeName h hr.noWord).solid.space
    have htype := accepts_typeName h hleads hr.toDelimits
    refine (accepts_after (Keyword.As.solid_write (' ' :: _)).space rfl htype).weaken ?_
    rintro _ ⟨_, rfl, rfl⟩
    rfl

end Grammar

/-! ## Bounds of arrays -/

def ArrayBound.write : ArrayBound → List Char → List Char
  | ⟨none, upper⟩, rest => decimalText upper.toInt ++ rest
  | ⟨some lower, upper⟩, rest =>
    decimalText lower.toInt ++ ' ' :: Keyword.To.write (' ' :: (decimalText upper.toInt ++ rest))

def writeBounds (wide : Bool) : Option (List ArrayBound) → List Char → List Char
  | none, rest => rest
  | some bounds, rest => writeParentheses wide ArrayBound.write bounds rest

theorem solid_decimalText (value : Int) (rest : List Char) : Solid (decimalText value ++ rest) := by
  obtain ⟨c, tail, hw, hc, ha⟩ := Literal.decimalText_eq_cons value rest
  rw [hw]
  refine solid_cons tail (Literal.isBlank_eq_false_of_isStart hc) ?_
  rintro rfl
  contradiction

theorem ArrayBound.write_eq (bound : ArrayBound) (rest : List Char) :
    ∃ value tail, bound.write rest = decimalText value ++ tail := by
  obtain ⟨lower, upper⟩ := bound
  cases lower with
  | none => exact ⟨_, _, rfl⟩
  | some lower => exact ⟨_, _, rfl⟩

theorem ArrayBound.solid_write (bound : ArrayBound) (rest : List Char) :
    Solid (bound.write rest) := by
  obtain ⟨value, tail, hw⟩ := bound.write_eq rest
  rw [hw]
  exact solid_decimalText value tail

theorem ArrayBound.head?_write_ne (bound : ArrayBound) (rest : List Char) :
    (bound.write rest).head? ≠ some ')' := by
  obtain ⟨value, tail, hw⟩ := bound.write_eq rest
  obtain ⟨c, others, hd, hc, _⟩ := Literal.decimalText_eq_cons value tail
  rw [hw, hd]
  rintro he
  obtain rfl := Option.some.inj he
  contradiction

namespace Grammar

open Parse

theorem accepts_boundValue {value : Int32} (hl : Leads text (decimalText value.toInt ++ rest))
    (hr : Edge rest) : Accepts boundValue text rest fun found => found = value :=
  accepts_requireNumber (takes_plainNumber hl hr) (wholeNumber?_plainNumber value) _

theorem accepts_arrayBound {bound : ArrayBound} (hl : Leads text (bound.write rest))
    (hr : Halts rest) : Accepts arrayBound text rest fun found => found = bound := by
  obtain ⟨lower, upper⟩ := bound
  cases lower with
  | none =>
    refine (accepts_boundValue hl hr.edge).known ?_
    refine (accepts_after_none (hr.stays_keyword .To) boundValue).known ?_
    exact accepts_pure rfl
  | some lower =>
    have hupper := accepts_boundValue (solid_decimalText upper.toInt rest).space hr.edge
    refine (accepts_boundValue hl ⟨_, _, rfl, rfl⟩).known ?_
    refine (accepts_after (Keyword.To.solid_write (' ' :: _)).space rfl hupper).andThen ?_
    rintro _ ⟨_, rfl, rfl⟩
    exact accepts_pure rfl

theorem accepts_arrayBounds (bounds : List ArrayBound) (rest : List Char) :
    Accepts arrayBounds (writeParentheses wide ArrayBound.write bounds rest) rest fun found =>
      found = bounds := by
  refine (accepts_symbol (solid_open _).here).skip ?_
  cases bounds with
  | nil =>
    refine Accepts.first ?_ _
    exact (accepts_symbol ((solid_close rest).pad wide)).seqRight (accepts_pure rfl)
  | cons bound bounds =>
    have hleads := (bound.solid_write
      (writeTail wide ArrayBound.write bounds (pad wide (')' :: rest)))).pad wide
    refine ((refuses_symbol hleads (bound.head?_write_ne _)).seqRight _).second ?_
    have hbounds := accepts_separated id (halts_comma wide) hleads
      (fun hl hr => accepts_arrayBound hl hr) (fun bound _ tail _ => bound.solid_write tail)
      (fun bound _ _ _ hl hr => accepts_arrayBound hl hr)
      ((consumes_symbol ',').andThen fun _ => moves_arrayBound.advances)
      (halts_close wide rest) (stays_symbol ((solid_close rest).pad wide) (by simp))
    refine hbounds.andThen fun found hfound => ?_
    rw [List.map_id, List.map_id] at hfound
    refine ((accepts_symbol ((solid_close rest).pad wide)).require _).skip ?_
    exact accepts_pure hfound

theorem accepts_optBounds (bounds : Option (List ArrayBound)) (hr : Delimits rest) :
    Accepts (opt arrayBounds) (writeBounds wide bounds rest) rest fun found => found = bounds := by
  cases bounds with
  | none => exact ((refuses_pass hr.unopened).andThen _).opt
  | some bounds =>
    refine (accepts_arrayBounds bounds rest).opt.weaken ?_
    rintro _ ⟨_, rfl, rfl⟩
    rfl

end Grammar

/-! ## Variables -/

namespace Variable

def write (wide : Bool) (declared : Variable) (rest : List Char) : List Char :=
  declared.name.toList ++
    writeBounds wide declared.bounds (writeType declared.isNew declared.typeName rest)

/-- Only a variable with a type may be declared with `New`. -/
def isPrintable (declared : Variable) : Bool :=
  isName declared.name && declared.typeName.all isTypeName &&
    (declared.typeName.isSome || ! declared.isNew)

theorem begins_write {declared : Variable} (h : declared.isPrintable = true) (wide : Bool)
    (hr : Delimits rest) : Begins (declared.write wide rest) none := by
  simp only [isPrintable, Bool.and_eq_true] at h
  refine (isName_iff.mp h.1.1).begins_append ?_
  cases declared.bounds with
  | none => exact (delimits_writeType _ _ hr).edge.noWord
  | some bounds => rfl

end Variable

namespace Grammar

open Parse

theorem refuses_declaredVariable (hl : Leads text token)
    (h : Misses Cursor.identifier token) : Refuses declaredVariable text :=
  (((refuses_read h).andThen _).spanned hl).within _

theorem accepts_declaredVariable {declared : Variable} (h : declared.isPrintable = true)
    (hl : Leads text (declared.write wide rest)) (hr : Halts rest) :
    Accepts declaredVariable text rest (UpToSpans Variable.relabel declared) := by
  have hbegins := Variable.begins_write h wide hr.toDelimits
  obtain ⟨name, type, isNew, bounds, span⟩ := declared
  simp only [Variable.isPrintable, Bool.and_eq_true] at h
  obtain ⟨⟨hname, htype⟩, hnew⟩ := h
  have hstops := delimits_writeType isNew type hr.toDelimits
  have hnoword : NoWord (writeBounds wide bounds (writeType isNew type rest)) := by
    cases bounds with
    | none => exact hstops.edge.noWord
    | some bounds => rfl
  refine (Accepts.spanned hl ?_).within _
  refine (accepts_identifier (isName_iff.mp hname) hbegins.solid.here hnoword).known ?_
  refine (accepts_optBounds bounds hstops).known ?_
  refine (accepts_variableType htype hnew hr).andThen fun found hfound => ?_
  refine accepts_pure fun place => ?_
  simp only [hfound.1, hfound.2]
  rfl

/-- One or more variables, the first of which may be required. -/
theorem accepts_declaredVariables {first : Parse Variable} {declared : List Variable}
    (hne : declared ≠ []) (h : ∀ one ∈ declared, one.isPrintable = true)
    (hl : Leads text (writeSeparated wide (Variable.write wide) declared rest))
    (hfirst : ∀ {one : Variable} {text tail}, one.isPrintable = true →
      Leads text (one.write wide tail) → Halts tail →
      Accepts first text tail (UpToSpans Variable.relabel one))
    (hr : Halts rest) (hstop : Stays (Cursor.symbol ',') rest) :
    Accepts (declaredVariables first) text rest fun found =>
      found.map (Variable.relabel .erase) = declared.map (Variable.relabel .erase) := by
  cases declared with
  | nil => exact absurd rfl hne
  | cons one others =>
    refine accepts_separated (Variable.relabel .erase) (halts_comma wide) hl
      (hfirst (h one (by simp))) ?_ ?_ ?_ hr hstop
    · exact fun one ho tail ht =>
        (Variable.begins_write (h one (List.mem_cons_of_mem _ ho)) wide ht.toDelimits).solid
    · exact fun one ho _ _ hl ht =>
        (accepts_declaredVariable (h one (List.mem_cons_of_mem _ ho)) hl ht).require _
    · exact (consumes_symbol ',').andThen fun _ => yields_declaredVariable.moves.require.advances

theorem stays_comma_newline (rest : List Char) : Stays (Cursor.symbol ',') ('\n' :: rest) :=
  stays_symbol (solid_newline rest).here (by simp)

end Grammar

end VisualBasic
