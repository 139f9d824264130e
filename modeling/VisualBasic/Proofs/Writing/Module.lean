import VisualBasic.Proofs.Diagnostic.Reported
import VisualBasic.Proofs.Lookahead.Item
import VisualBasic.Proofs.Span.Module
import VisualBasic.Proofs.Writing.Compound

/-!
# Writing modules

A module is written item by item, each to the end of its last line. What is written is parsed, and
the tree that comes back is the one that was written, up to spans.
-/

set_option autoImplicit false

namespace VisualBasic

variable {wide : Bool} {text token rest : List Char}

/-! ## Attributes and options -/

/-- Any number of names with dots between them. -/
def isAttributeName (name : String) : Bool := (dottedNames name).all isNameText

def Attribute.isPrintable (entry : Attribute) : Bool :=
  isAttributeName entry.name && isUnbroken entry.value

def Attribute.write (entry : Attribute) (rest : List Char) : List Char :=
  Keyword.Attribute.write (' ' :: (entry.name.toList ++
    ' ' :: '=' :: ' ' :: (quotedText entry.value.toList ++ '\n' :: rest)))

namespace ModuleOption

/-- The word after `Option`. -/
def word : ModuleOption → Keyword
  | .explicit => .Explicit
  | .base0 | .base1 => .Base
  | .compareText | .compareBinary => .Compare
  | .privateModule => .Private

def write : ModuleOption → List Char → List Char
  | .explicit, rest => Keyword.Explicit.write rest
  | .base0, rest => Keyword.Base.write (' ' :: (decimalText 0 ++ rest))
  | .base1, rest => Keyword.Base.write (' ' :: (decimalText 1 ++ rest))
  | .compareText, rest => Keyword.Compare.write (' ' :: Keyword.Text.write rest)
  | .compareBinary, rest => Keyword.Compare.write (' ' :: Keyword.Binary.write rest)
  | .privateModule, rest => Keyword.Private.write (' ' :: Keyword.Module.write rest)

theorem begins_write (option : ModuleOption) (rest : List Char) :
    Begins (option.write ('\n' :: rest)) (some option.word) := by
  cases option <;> exact Keyword.begins_write _ rfl

end ModuleOption

def OptionLine.write (line : OptionLine) (rest : List Char) : List Char :=
  Keyword.Option.write (' ' :: line.option.write ('\n' :: rest))

namespace Grammar

open Parse

theorem exists_of_isAttributeName {name : String} (h : isAttributeName name = true) :
    ∃ first members, dottedNames name = first :: members ∧ IsNameText first ∧
      ∀ member ∈ members, IsNameText member := by
  cases hnames : dottedNames name with
  | nil => exact absurd hnames (List.splitOn_ne_nil _ _)
  | cons first members =>
    simp only [isAttributeName, hnames, List.all_cons, Bool.and_eq_true, List.all_eq_true] at h
    exact ⟨first, members, rfl, isNameText_iff.mp h.1,
      fun member hm => isNameText_iff.mp (h.2 member hm)⟩

theorem accepts_memberNames {members : List (List Char)} (part : String)
    (h : ∀ member ∈ members, IsNameText member) (hr : NoWord rest) (hdot : rest.head? ≠ some '.') :
    Accepts (many (adjacent '.' *> requireName part)) (writeMembers members rest) rest
      fun found => found = members.map String.ofList := by
  have hmember : Moves (adjacent '.' *> requireName part) Cursor.Token :=
    ((begins_adjacent (by decide)).seqRight (moves_requireName part).yields).moves
  have hwritten : writeMembers members rest =
      (members.map String.ofList).foldr (fun member rest => '.' :: (member.toList ++ rest))
        rest := by
    simp [writeMembers, List.foldr_map]
  have hnames : ∀ name ∈ members.map String.ofList, IsNameText name.toList := by
    intro name hname
    obtain ⟨member, hmem, rfl⟩ := List.mem_map.mp hname
    rw [String.toList_ofList]
    exact h member hmem
  have hmany : Accepts (many (adjacent '.' *> requireName part))
      ((members.map String.ofList).foldr (fun member rest => '.' :: (member.toList ++ rest)) rest)
        rest
      fun found => found.map id = (members.map String.ofList).map id := by
    refine accepts_many id (fun _ _ _ _ hm => (hmember _ _ _ _ hm).length_lt)
      (fun _ _ tail _ => (rfl : NoWord ('.' :: _))) (fun name hname tail htail => ?_) hr
      ((refuses_pass (stays_adjacent hdot)).seqRight _)
    have hname := hnames name hname
    exact (accepts_pass (passes_adjacent '.')).seqRight
      (accepts_requireName hname part (hname.solid_append tail).here htail)
  rw [hwritten]
  exact hmany.weaken fun found hfound => by simpa using hfound

theorem accepts_attributeName {name : String} (h : isAttributeName name = true)
    (hl : Leads text (name.toList ++ ' ' :: rest)) :
    Accepts attributeName text (' ' :: rest) fun found => found = name := by
  obtain ⟨first, members, hnames, hfirst, hmembers⟩ := exists_of_isAttributeName h
  have hblank := noWord_space rest
  rw [append_of_dottedNames hnames] at hl
  refine (accepts_nameText hfirst _ hl (noWord_writeMembers members hblank)).known ?_
  refine (accepts_memberNames _ hmembers hblank (by simp)).known (accepts_pure ?_)
  have hname := toList_of_dottedNames hnames
  rw [← intercalate_cons] at hname
  rw [← String.toList_inj, hname]
  simp [String.toList_intercalate]

theorem accepts_attributeLine {entry : Attribute} (h : entry.isPrintable = true)
    (rest : List Char) :
    Accepts attributeLine (entry.write rest) rest (UpToSpans Attribute.relabel entry) := by
  obtain ⟨name, value, span⟩ := entry
  obtain ⟨hname, hvalue⟩ := Bool.and_eq_true_iff.mp h
  have hsolid := solid_quotedText value.toList ('\n' :: rest)
  have hquoted : Accepts attributeValue (' ' :: (quotedText value.toList ++ '\n' :: rest))
      ('\n' :: rest) fun found => found = value :=
    (accepts_mark hsolid.space).andThen fun _ _ =>
      (accepts_read (takes_quoted hsolid.here hvalue (by simp))).first _
  obtain ⟨first, members, hnames, hfirst, _⟩ := exists_of_isAttributeName hname
  have hleads :
      Solid (name.toList ++ ' ' :: '=' :: ' ' :: (quotedText value.toList ++ '\n' :: rest)) := by
    rw [append_of_dottedNames hnames]
    exact hfirst.solid_append _
  refine Accepts.sentence _ (Keyword.Attribute.solid_write (' ' :: _)).here ?_
  refine (accepts_keyword (Keyword.Attribute.solid_write (' ' :: _)).here rfl).skip ?_
  refine (accepts_attributeName hname hleads.space).known ?_
  refine (accepts_requireSymbol (solid_equals _).space).skip ?_
  exact hquoted.known (accepts_pure fun place => rfl)

theorem accepts_moduleOption (option : ModuleOption) (rest : List Char) :
    Accepts moduleOption (' ' :: option.write ('\n' :: rest)) ('\n' :: rest)
      fun found => found = option := by
  have hbegins := option.begins_write rest
  have hl := hbegins.solid.space
  have hno {k : Keyword} (hk : option.word ≠ k) :
      Refuses (keyword k) (' ' :: option.write ('\n' :: rest)) :=
    refuses_keyword hl (hbegins.spells_eq_false (by simpa using hk))
  have hcompare {k : Keyword} (hl : Leads (' ' :: option.write ('\n' :: rest))
        (Keyword.Compare.write (' ' :: k.write ('\n' :: rest))))
      (hk : List.lookup k [(Keyword.Text, ModuleOption.compareText), (.Binary, .compareBinary)] =
        some option) (hword : option.word ≠ .Explicit) :
      Accepts moduleOption (' ' :: option.write ('\n' :: rest)) ('\n' :: rest)
        fun found => found = option := by
    have hkind := accepts_oneOf hk (k.solid_write ('\n' :: rest)).space rfl
    refine ((hno hword).seqRight _).second ?_
    exact ((accepts_keyword hl rfl).seqRight (hkind.require _)).first _
  have hbase (base : Int32) (hl : Leads (' ' :: option.write ('\n' :: rest))
        (Keyword.Base.write (' ' :: (decimalText base.toInt ++ '\n' :: rest))))
      (hk : arrayBase? (plainNumber base) = some option) (hexplicit : option.word ≠ .Explicit)
      (hcompare : option.word ≠ .Compare) :
      Accepts moduleOption (' ' :: option.write ('\n' :: rest)) ('\n' :: rest)
        fun found => found = option := by
    have hnumber := takes_plainNumber (solid_decimalText base.toInt ('\n' :: rest)).space
      (delimits_newline rest).edge
    refine ((hno hexplicit).seqRight _).second (((hno hcompare).seqRight _).second ?_)
    exact ((accepts_keyword hl rfl).seqRight (accepts_requireNumber hnumber hk _)).first _
  cases option with
  | explicit =>
    exact ((accepts_keyword hl rfl).seqRight
      (accepts_pure (V := (· = ModuleOption.explicit)) rfl)).first _
  | compareText => exact hcompare hl rfl (by decide)
  | compareBinary => exact hcompare hl rfl (by decide)
  | base0 => exact hbase 0 hl (by decide) (by decide) (by decide)
  | base1 => exact hbase 1 hl (by decide) (by decide) (by decide)
  | privateModule =>
    refine ((hno (by decide)).seqRight _).second (((hno (by decide)).seqRight _).second ?_)
    refine ((hno (by decide)).seqRight _).second (Accepts.first ?_ _)
    have hmodule := accepts_requireKeyword (Keyword.Module.solid_write ('\n' :: rest)).space rfl
    exact ((accepts_keyword hl rfl).seqRight hmodule).seqRight (accepts_pure rfl)

theorem accepts_optionLine (line : OptionLine) (rest : List Char) :
    Accepts optionLine (line.write rest) rest (UpToSpans OptionLine.relabel line) := by
  obtain ⟨option, span⟩ := line
  refine Accepts.sentence _ (Keyword.Option.solid_write (' ' :: _)).here ?_
  refine (accepts_keyword (Keyword.Option.solid_write (' ' :: _)).here rfl).skip ?_
  exact ((accepts_moduleOption option rest).require _).known (accepts_pure fun place => rfl)

end Grammar

/-! ## Procedures -/

def FunctionHead.isPrintable (head : FunctionHead) : Bool :=
  head.toHead.isPrintable && head.returnType.all isTypeName

def FunctionHead.write (wide : Bool) (head : FunctionHead) (rest : List Char) : List Char :=
  head.toHead.write wide .Function (writeType false head.returnType rest)

namespace PropertyHead

/-- The word after `Property`. -/
def word : PropertyHead → Keyword
  | .letter _ => .Let
  | .setter _ => .Set
  | .getter _ => .Get

/-- Only a property that is read has a type. -/
def returnType : PropertyHead → Option String
  | .getter head => head.returnType
  | _ => none

def isPrintable (head : PropertyHead) : Bool :=
  head.head.isPrintable && head.returnType.all isTypeName

def write (wide : Bool) (head : PropertyHead) (rest : List Char) : List Char :=
  writeWord head.head.access.keyword? <| Keyword.Property.write <| ' ' :: head.word.write
    (' ' :: writeSignature wide head.head.name head.head.parameters
      (writeType false head.returnType rest))

end PropertyHead

/-- A head, the lines of its block and the words that close it. -/
def Definition.write {η : Type} (wide : Bool) (writeHead : η → List Char → List Char) (k : Keyword)
    (definition : Definition η) (rest : List Char) : List Char :=
  writeHead definition.head ('\n' :: writeBlock wide definition.body (writeEnd k rest))

namespace Procedure

def isPrintable : Procedure → Bool
  | .sub definition => definition.head.isPrintable && isBlockPrintable definition.body
  | .function definition => definition.head.isPrintable && isBlockPrintable definition.body
  | .property definition => definition.head.isPrintable && isBlockPrintable definition.body

def write (wide : Bool) : Procedure → List Char → List Char
  | .sub definition => definition.write wide (Head.write wide .Sub) .Sub
  | .function definition => definition.write wide (FunctionHead.write wide) .Function
  | .property definition => definition.write wide (PropertyHead.write wide) .Property

theorem solid_write (written : Procedure) (wide : Bool) (rest : List Char) :
    Solid (written.write wide rest) := by
  have hword (access : Access) (k : Keyword) (middle : List Char) :
      Solid (writeWord access.keyword? (k.write (' ' :: middle))) := by
    have hbegins : Begins (k.write (' ' :: middle)) (some k) := k.begins_write rfl
    exact (hbegins.writeWord access.keyword?).solid
  cases written with
  | sub written => exact hword written.head.access .Sub _
  | function written => exact hword written.head.access .Function _
  | property written => exact hword written.head.head.access .Property _

end Procedure

/-- No declaration is told by the word of another line. -/
theorem Declaration.word_ne (declared : Declaration) {k : Keyword}
    (hk : k = .Rem ∨ k = .Attribute ∨ k = .Option) : declared.word ≠ some k := by
  cases declared with
  | variableGroup group =>
    change (if group.withEvents then some .WithEvents else none) ≠ some k
    cases group.withEvents <;> rcases hk with rfl | rfl | rfl <;> decide
  | _ => rcases hk with rfl | rfl | rfl <;> simp [Declaration.word]

namespace Grammar

open Parse

theorem relabel_head {head : Head} {found : List Parameter}
    (h : found.map (Parameter.relabel .erase) = head.parameters.map (Parameter.relabel .erase))
    (place : Span) :
    Head.relabel .erase { head with parameters := found, span := place } = head.relabel .erase := by
  simp only [Head.relabel, h]
  rfl

theorem accepts_functionHead {head : FunctionHead} (h : head.isPrintable = true)
    (hl : Leads text (head.write wide ('\n' :: rest))) :
    Accepts functionHead text rest (UpToSpans FunctionHead.relabel head) := by
  obtain ⟨head, returnType⟩ := head
  simp only [FunctionHead.isPrintable, Head.isPrintable, Bool.and_eq_true, decide_eq_true_eq,
    List.all_eq_true] at h
  obtain ⟨⟨⟨haccess, hname⟩, hparameters⟩, htype⟩ := h
  refine Accepts.sentence _ hl (accepts_introduced haccess (by decide) ?_)
  refine accepts_signature hname hparameters "function name" fun found hfound => ?_
  refine (accepts_returnType htype (halts_newline rest)).known (accepts_pure fun place => ?_)
  exact congrArg (fun common => FunctionHead.mk common (returnType.map Relabel.erase.text))
    (relabel_head hfound place)

/-- The kind of property that a word tells. -/
def PropertyKind.of : PropertyHead → PropertyKind
  | .letter _ => .letter
  | .setter _ => .setter
  | .getter _ => .getter

theorem accepts_propertyHead {head : PropertyHead} (h : head.isPrintable = true)
    (hl : Leads text (head.write wide ('\n' :: rest))) :
    Accepts propertyHead text rest (UpToSpans PropertyHead.relabel head) := by
  have hkind : List.lookup head.word
      [(Keyword.Let, PropertyKind.letter), (.Set, .setter), (.Get, .getter)] =
        some (PropertyKind.of head) := by
    cases head <;> rfl
  simp only [PropertyHead.isPrintable, Head.isPrintable, Bool.and_eq_true, decide_eq_true_eq,
    List.all_eq_true] at h
  obtain ⟨⟨⟨haccess, hname⟩, hparameters⟩, htype⟩ := h
  refine Accepts.sentence _ hl (accepts_introduced haccess (by decide) ?_)
  refine ((accepts_oneOf hkind (head.word.solid_write (' ' :: _)).space rfl).require _).known ?_
  refine accepts_signature hname hparameters "property name" fun found hfound => ?_
  cases head with
  | letter head =>
    exact accepts_pure fun place => congrArg PropertyHead.letter (relabel_head hfound place)
  | setter head =>
    exact accepts_pure fun place => congrArg PropertyHead.setter (relabel_head hfound place)
  | getter head =>
    refine (accepts_returnType htype (halts_newline rest)).known (accepts_pure fun place => ?_)
    exact congrArg
      (fun common => PropertyHead.getter ⟨common, head.returnType.map Relabel.erase.text⟩)
      (relabel_head hfound place)

theorem accepts_definition {η : Type} {relabel : Relabel → η → η} {head : Parse η} {value : η}
    {body : List Statement} {k : Keyword} (construct : Construct) (hl : Leads text token)
    (hhead : Accepts head token (writeBlock wide body (writeEnd k rest)) (UpToSpans relabel value))
    (hbody : isBlockPrintable body = true) (span : Span) :
    Accepts (definition construct head k) text rest
      (UpToSpans (Definition.relabel relabel) ⟨value, body, span⟩) := by
  refine Accepts.sentence _ hl (hhead.andThen fun found hfound => ?_)
  refine (readsBlock_block body hbody _ (closes_writeEnd k rest)).andThen fun lines hlines => ?_
  refine (accepts_requireEnd k rest).skip (accepts_pure fun place => ?_)
  simp only [UpToSpans] at hfound hlines
  simp only [UpToSpans, Definition.relabel, hfound, hlines]
  rfl

/-! ## Items -/

/-- After an access modifier, or without one, the word of a head comes. -/
theorem headWord_writeWord {access : Access} {k : Keyword} (ha : access ≠ .Dim)
    (hk : k.isModifier = false) (hr : NoWord rest) {c : Cursor}
    (hc : c.rest = writeWord access.keyword? (k.write rest)) : c.headWord = some k := by
  have hlead {k : Keyword} {text rest : List Char} {c : Cursor} (hl : Leads text (k.write rest))
      (hr : NoWord rest) (hc : c.rest = text) : ∃ d, c.lead = some (k, d) ∧ d.rest = rest := by
    obtain ⟨d, hd, hrest⟩ := passes_keyword hl hr c hc
    exact ⟨d, Cursor.keyword_eq_some_iff.mp hd, hrest⟩
  cases hword : access.keyword? with
  | none =>
    rw [hword] at hc
    obtain ⟨d, hd, _⟩ := hlead (k.solid_write rest).here hr hc
    simp [Cursor.headWord, Cursor.pastModifier, Cursor.peekKeyword_eq, hd, hk]
  | some modifier =>
    have hmodifier : modifier.isModifier = true := by
      cases access <;> cases hword <;> first | rfl | contradiction
    rw [hword] at hc
    obtain ⟨d, hd, hrest⟩ := hlead (modifier.solid_write _).here (noWord_space (k.write rest)) hc
    obtain ⟨e, he, _⟩ := hlead (k.solid_write rest).space hr hrest
    simp [Cursor.headWord, Cursor.pastModifier, Cursor.peekKeyword_eq, hd, hmodifier, he]

theorem accepts_item_of_declared {access : Access} {k : Keyword} {kind : ItemKind}
    {middle : List Char} {V : Item → Prop} (ha : access ≠ .Dim)
    (hk : ItemKind.declared k = some kind) (hr : NoWord middle)
    (h : Accepts kind.parse (writeWord access.keyword? (k.write middle)) rest V) :
    Accepts item (writeWord access.keyword? (k.write middle)) rest V := by
  have hmodifier : k.isModifier = false := by
    unfold ItemKind.declared at hk
    split at hk <;> first | rfl | contradiction
  intro inside c hc
  have hhead := headWord_writeWord ha hmodifier hr hc
  rw [ItemKind.item_eq_parse (ItemKind.next_of_ofCode (ItemKind.ofCode_of_declared hk hhead))]
  exact h inside c hc

theorem accepts_item_of_unmodified {k : Keyword} {kind : ItemKind} {middle : List Char}
    {V : Item → Prop} (hk : ItemKind.unmodified k = some kind) (hr : NoWord middle)
    (h : Accepts kind.parse (k.write middle) rest V) : Accepts item (k.write middle) rest V := by
  intro inside c hc
  have hnext := (k.begins_write hr).peekKeyword hc
  rw [ItemKind.item_eq_parse (ItemKind.next_of_ofCode (ItemKind.ofCode_of_unmodified hk hnext))]
  exact h inside c hc

theorem accepts_procedure {written : Procedure} (h : written.isPrintable = true)
    (rest : List Char) :
    Accepts item (written.write wide rest) rest (UpToSpans Item.relabel (.procedure written)) := by
  have hsolid := written.solid_write wide rest
  have haccess {head : Head} (h : head.isPrintable = true) : head.access ≠ .Dim := by
    simp only [Head.isPrintable, Bool.and_eq_true, decide_eq_true_eq] at h
    exact h.1.1
  cases written with
  | sub written =>
    obtain ⟨head, body, span⟩ := written
    obtain ⟨hhead, hbody⟩ := Bool.and_eq_true_iff.mp h
    have hdefinition := accepts_definition .sub hsolid.here
      (accepts_plainHead hhead .subHead (by decide) "sub name" hsolid.here) hbody span
    refine accepts_item_of_declared (haccess hhead) rfl rfl (hdefinition.map fun _ hs => ?_)
    exact hs.under (fun d => Item.procedure (.sub d)) fun _ => rfl
  | function written =>
    obtain ⟨head, body, span⟩ := written
    obtain ⟨hhead, hbody⟩ := Bool.and_eq_true_iff.mp h
    have hdefinition := accepts_definition .function hsolid.here
      (accepts_functionHead hhead hsolid.here) hbody span
    refine accepts_item_of_declared (haccess (Bool.and_eq_true_iff.mp hhead).1) rfl rfl
      (hdefinition.map fun _ hs => ?_)
    exact hs.under (fun d => Item.procedure (.function d)) fun _ => rfl
  | property written =>
    obtain ⟨head, body, span⟩ := written
    obtain ⟨hhead, hbody⟩ := Bool.and_eq_true_iff.mp h
    have hdefinition := accepts_definition .property hsolid.here
      (accepts_propertyHead hhead hsolid.here) hbody span
    refine accepts_item_of_declared (haccess (Bool.and_eq_true_iff.mp hhead).1) rfl rfl
      (hdefinition.map fun _ hs => ?_)
    exact hs.under (fun d => Item.procedure (.property d)) fun _ => rfl

/-- A declaration is neither an attribute nor an option, nor a line without code. -/
theorem accepts_declarationItem {declared : Declaration} (h : declared.isPrintable = true)
    (rest : List Char) :
    Accepts item (declared.write wide rest) rest
      (UpToSpans Item.relabel (.declaration declared)) := by
  obtain ⟨access, token, hwrite, hbegins, _⟩ := Declaration.introduces_write h wide rest
  have hwritten := hbegins.writeWord access.keyword?
  rw [← hwrite] at hwritten
  have hword {k : Keyword} (hk : k = .Rem ∨ k = .Attribute ∨ k = .Option) :
      access.keyword?.or declared.word ≠ some k := by
    have hmodifier : access.keyword? ≠ some k := by
      rcases hk with rfl | rfl | rfl <;> cases access <;> decide
    rintro hor
    rcases Option.or_eq_some_iff.mp hor with h | ⟨_, h⟩
    · exact hmodifier h
    · exact declared.word_ne hk h
  have hno {α : Type} {k : Keyword} {f : Unit → Parse (Span → α)} (construct : Construct)
      (hk : k = .Rem ∨ k = .Attribute ∨ k = .Option) :
      Refuses (sentence construct (keyword k >>= f)) (declared.write wide rest) :=
    Refuses.sentence construct hwritten.solid.here
      ((refuses_keyword hwritten.solid.here (hwritten.spells_eq_false (hword hk))).andThen f)
  refine ((refuses_read (hwritten.misses_comment (hword (.inl rfl)))).map _).second ?_
  refine ((refuses_read hwritten.misses_emptyLine).map _).second ?_
  refine ((hno .attribute (.inr (.inl rfl))).map _).second ?_
  refine ((hno .option (.inr (.inr rfl))).map _).second (Accepts.first ?_ _)
  exact (accepts_declaration h rest).map fun _ hs => hs.under Item.declaration fun _ => rfl

end Grammar

/-! ## Modules -/

namespace Item

def isPrintable : Item → Bool
  | .comment note => isUnbroken note.content
  | .emptyLine _ => true
  | .attributeLine entry => entry.isPrintable
  | .optionLine _ => true
  | .declaration declared => declared.isPrintable
  | .procedure written => written.isPrintable

def write (wide : Bool) : Item → List Char → List Char
  | .comment note, rest => note.write rest
  | .emptyLine _, rest => '\n' :: rest
  | .attributeLine entry, rest => entry.write rest
  | .optionLine line, rest => line.write rest
  | .declaration declared, rest => declared.write wide rest
  | .procedure written, rest => written.write wide rest

end Item

namespace Module

def isPrintable (tree : Module) : Bool := tree.items.all Item.isPrintable

def write (wide : Bool) (tree : Module) : List Char := tree.items.foldr (Item.write wide) []

end Module

namespace Grammar

open Parse

theorem accepts_item {written : Item} (h : written.isPrintable = true) (rest : List Char) :
    Accepts item (written.write wide rest) rest (UpToSpans Item.relabel written) := by
  cases written with
  | comment note =>
    exact ((accepts_comment h rest).map fun _ hs => hs.under Item.comment fun _ => rfl).first _
  | emptyLine line =>
    refine ((refuses_read (misses_comment_newline rest)).map _).second (Accepts.first ?_ _)
    exact (accepts_emptyLine line.span rest).map fun _ hs => hs.under Item.emptyLine fun _ => rfl
  | attributeLine entry =>
    refine accepts_item_of_unmodified (k := .Attribute) rfl rfl ?_
    exact (accepts_attributeLine h rest).map fun _ hs => hs.under Item.attributeLine fun _ => rfl
  | optionLine line =>
    refine accepts_item_of_unmodified (k := .Option) rfl rfl ?_
    exact (accepts_optionLine line rest).map fun _ hs => hs.under Item.optionLine fun _ => rfl
  | declaration declared => exact accepts_declarationItem h rest
  | procedure written => exact accepts_procedure h rest

theorem accepts_endOfSource (expected : Expected) :
    Accepts (requireEndOfSource expected) [] [] fun _ => True := by
  intro inside c hc
  have hend : c.skipBlanks.rest = [] := Cursor.rest_skipBlanks (fun _ => List.drop_nil) hc
  refine ⟨(), c, ?_, hc, trivial⟩
  rw [requireEndOfSource, isFinished, Cursor.isAtEnd, hend]
  rfl

theorem accepts_module {tree : Module} (h : tree.isPrintable = true) (wide : Bool) :
    Accepts module (tree.write wide) [] (UpToSpans Module.relabel tree) := by
  obtain ⟨items⟩ := tree
  simp only [Module.isPrintable, List.all_eq_true] at h
  have hitem : ∀ written ∈ items, ∀ rest, True → Accepts item (written.write wide rest) rest
      (UpToSpans Item.relabel written) := fun written hw rest _ => accepts_item (h written hw) rest
  have hitems := accepts_many (Item.relabel .erase)
    (fun _ _ _ _ hm => (yields_item.moves _ _ _ _ hm).2) (fun _ _ _ _ => trivial) hitem trivial
    fun _ _ => ItemKind.item_eq_unmatched_of_nil
  refine hitems.andThen fun found hfound => ?_
  refine ((accepts_endOfSource _).advise _).skip (accepts_pure ?_)
  exact congrArg Module.mk hfound

end Grammar

/-- A module written out is parsed, and the tree that comes back is the same up to spans. -/
theorem parseModule_write {tree : Module} (h : tree.isPrintable = true) (wide : Bool)
    (settings : Settings) :
    ∃ found, parseModule (String.ofList (tree.write wide)) settings = .ok found ∧
      found.relabel .erase = tree.relabel .erase := by
  have hstart : (Cursor.start (String.ofList (tree.write wide)).toList).rest = tree.write wide := by
    rw [String.toList_ofList]
    rfl
  obtain ⟨found, after, hm, _, hfound⟩ := Grammar.accepts_module h wide [] _ hstart
  exact ⟨found, parseModule_of_matched hm, hfound⟩

/-- A module with an attribute and a procedure that calls another one. -/
def Module.ringing : Module :=
  ⟨[.attributeLine ⟨"VB_Name", "Bell", ⟨0, 0⟩⟩,
    .procedure (.sub ⟨⟨.Public, "Ring", [], ⟨0, 0⟩⟩, [.call "Beep" [] false ⟨0, 0⟩], ⟨0, 0⟩⟩)]⟩

theorem parseModule_write_ringing :
    String.ofList (Module.ringing.write false) =
        "Attribute VB_Name = \"Bell\"\nPublic Sub Ring()\nBeep\nEnd Sub\n" ∧
      Module.ringing.isPrintable = true ∧
      ∃ found, parseModule (String.ofList (Module.ringing.write false)) ⟨20, none⟩ = .ok found ∧
        found.relabel .erase = Module.ringing.relabel .erase := by
  have hprintable : Module.ringing.isPrintable = true := by decide +kernel
  exact ⟨by decide +kernel, hprintable, parseModule_write hprintable false ⟨20, none⟩⟩

end VisualBasic
