import VisualBasic.Diagnostic.Basic
import VisualBasic.Tree.Json

/-!
# Sections of a module

The usual layout of a module has four sections: attributes, options, declarations and procedures.
`Sections.ofModule` sorts the items of a module into them when they come in this order, and fails at
the first item that belongs to a section already left. A comment or an empty line goes to the
section being filled; before the first declaration that is the section of options. An index of the
names of attributes says where each of them stands.
-/

set_option autoImplicit false

namespace VisualBasic

/-- The sections in the order in which they must come. -/
inductive Section where
  | attributes
  | options
  | declarations
  | procedures
  deriving DecidableEq, Repr

namespace Section

def rank : Section → Nat
  | .attributes => 0
  | .options => 1
  | .declarations => 2
  | .procedures => 3

def member : Section → String
  | .attributes => "attribute"
  | .options => "option"
  | .declarations => "declaration"
  | .procedures => "procedure"

end Section

/-- The section an item belongs to; comments and empty lines belong to any. -/
def Item.section? : Item → Option Section
  | .comment _ => none
  | .emptyLine _ => none
  | .attributeLine _ => some .attributes
  | .optionLine _ => some .options
  | .declaration _ => some .declarations
  | .procedure _ => some .procedures

/-- A line without code, which is kept in the section being filled. -/
inductive Trivia where
  | comment (comment : Comment)
  | emptyLine (line : EmptyLine)

/-- An entry of a section: one of its members, or a line without code. -/
inductive Entry (α : Type) where
  | member (value : α)
  | comment (comment : Comment)
  | emptyLine (line : EmptyLine)

namespace Entry

variable {α : Type}

def member? : Entry α → Option α
  | .member value => some value
  | _ => none

def isTrivia : Entry α → Bool
  | .member _ => false
  | _ => true

def toJson (encode : α → Json) : Entry α → Json
  | .member value => .tagged "Item" (encode value)
  | .comment note => .tagged "Comment" note.toJson
  | .emptyLine line => .tagged "EmptyLine" line.toJson

end Entry

def Trivia.entry {α : Type} : Trivia → Entry α
  | .comment note => .comment note
  | .emptyLine line => .emptyLine line

structure Sections where
  /-- Of attributes of one name only the first. -/
  attributes : List Attribute
  /-- The place of each name among the attributes. -/
  places : List (String × Nat)
  options : List (Entry ModuleOption)
  declarations : List (Entry Declaration)
  procedures : List (Entry Procedure)

namespace Sections

def empty : Sections := ⟨[], [], [], [], []⟩

/-- The value of the attribute of a name. -/
def attributeValue (sections : Sections) (name : String) : Option String :=
  (sections.places.lookup name).bind fun place =>
    sections.attributes[place]?.map Attribute.value

def optionValues (sections : Sections) : List ModuleOption :=
  sections.options.filterMap Entry.member?

def declarationItems (sections : Sections) : List Declaration :=
  sections.declarations.filterMap Entry.member?

def procedureItems (sections : Sections) : List Procedure :=
  sections.procedures.filterMap Entry.member?

/-- Adds an attribute, unless there is one of its name. -/
def addAttribute (sections : Sections) (entry : Attribute) : Sections :=
  if (sections.places.lookup entry.name).isSome then sections
  else
    { sections with
      attributes := sections.attributes ++ [entry]
      places := (entry.name, sections.attributes.length) :: sections.places }

/-- Adds a line without code to the section that the items before it have reached. -/
def addTrivia (sections : Sections) (reached : Section) (line : Trivia) : Sections :=
  match reached with
  | .attributes | .options => { sections with options := sections.options ++ [line.entry] }
  | .declarations => { sections with declarations := sections.declarations ++ [line.entry] }
  | .procedures => { sections with procedures := sections.procedures ++ [line.entry] }

/-- Adds an item when a section has been reached. -/
def add (sections : Sections) (reached : Section) : Item → Sections
  | .comment note => sections.addTrivia reached (.comment note)
  | .emptyLine line => sections.addTrivia reached (.emptyLine line)
  | .attributeLine entry => sections.addAttribute entry
  | .optionLine line => { sections with options := sections.options ++ [.member line.option] }
  | .declaration declared =>
    { sections with declarations := sections.declarations ++ [.member declared] }
  | .procedure definition =>
    { sections with procedures := sections.procedures ++ [.member definition] }

/-- An item that comes after a later section has been reached. -/
structure Misplaced where
  item : Item
  found : Section
  reached : Section

def Misplaced.diagnose (misplaced : Misplaced) (source : String) (width : Nat) : Diagnostic :=
  { (Diagnostic.unlocated .moduleLayout "module"
      (misplaced.reached.member ++ " or later section") misplaced.item.span.start).locate
        source width with
    help := some
      (misplaced.found.member ++ " found after a " ++ misplaced.reached.member ++
        "; attributes, options, declarations and procedures must appear in that order") }

/-- Sorts items into sections, the first of them when a section has been reached. The diagnostic of
an item that goes back is built on the spot. -/
def sort (source : String) (width : Nat) (sections : Sections) (reached : Section) :
    List Item → Except Diagnostic Sections
  | [] => .ok sections
  | item :: rest =>
    let own := item.section?.getD reached
    if own.rank < reached.rank then .error ((Misplaced.mk item own reached).diagnose source width)
    else sort source width (sections.add own item) own rest

/-- The sections of the module of a source, or the diagnostic of the first misplaced item. -/
def ofModule (module : Module) (source : String) (width : Nat) : Except Diagnostic Sections :=
  empty.sort source width .attributes module.items

def toJson (sections : Sections) : Json :=
  .object
    [("attributes", .ofList Attribute.toJson sections.attributes),
      ("options", .ofList (Entry.toJson ModuleOption.toJson) sections.options),
      ("declarations", .ofList (Entry.toJson Declaration.toJson) sections.declarations),
      ("procedures", .ofList (Entry.toJson Procedure.toJson) sections.procedures)]

end Sections

end VisualBasic
