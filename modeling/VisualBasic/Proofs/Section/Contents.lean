import Mathlib.Data.List.Induction
import VisualBasic.Proofs.Span.Expression
import VisualBasic.Section
import VisualBasic.Session

/-!
# What sections hold

Sections hold the items that have been sorted into them and nothing else. Declarations, procedures
and options keep their order, attributes of a name that has occurred are left out, and each comment
or empty line stays among the items around it. This holds of the empty sections and `Sections.add`
preserves it.
-/

set_option autoImplicit false

namespace VisualBasic

/-! ## Parts of items -/

namespace Item

def attribute? : Item → Option Attribute
  | .attributeLine entry => some entry
  | _ => none

def option? : Item → Option ModuleOption
  | .optionLine line => some line.option
  | _ => none

def declaration? : Item → Option Declaration
  | .declaration declared => some declared
  | _ => none

def procedure? : Item → Option Procedure
  | .procedure definition => some definition
  | _ => none

def trivia? : Item → Option Trivia
  | .comment note => some (.comment note)
  | .emptyLine line => some (.emptyLine line)
  | _ => none

/-- What an item is in a section of some members: one of these, a line without code, or nothing. -/
def entry? {α : Type} (member? : Item → Option α) (item : Item) : Option (Entry α) :=
  (item.trivia?.map Trivia.entry).or ((member? item).map Entry.member)

/-- An item may stand before a section when it is of an earlier one or of none. -/
def precedes (own : Section) (item : Item) : Bool :=
  item.section?.all fun other => other.rank < own.rank

end Item

def Entry.trivia? {α : Type} : Entry α → Option Trivia
  | .member _ => none
  | .comment note => some (.comment note)
  | .emptyLine line => some (.emptyLine line)

@[simp] theorem Entry.trivia?_entry {α : Type} (line : Trivia) :
    (line.entry : Entry α).trivia? = some line := by
  cases line <;> rfl

/-! ## Lists that grow at their end -/

section Concat

variable {α : Type} {p : α → Bool} {values : List α}

theorem takeWhile_concat (values : List α) (value : α) :
    (values ++ [value]).takeWhile p =
      values.takeWhile p ++ if values.all p && p value then [value] else [] := by
  induction values with
  | nil => cases h : p value <;> simp [h]
  | cons first rest ih => cases h : p first <;> simp [h, ih]

theorem dropWhile_concat (values : List α) (value : α) :
    (values ++ [value]).dropWhile p =
      values.dropWhile p ++ if values.all p && p value then [] else [value] := by
  induction values with
  | nil => cases h : p value <;> simp [h]
  | cons first rest ih => cases h : p first <;> simp [h, ih]

theorem eraseDupsBy_concat (r : α → α → Bool) (values : List α) (value : α) :
    (values ++ [value]).eraseDupsBy r =
      if (values.eraseDupsBy r).any (r value) then values.eraseDupsBy r
      else values.eraseDupsBy r ++ [value] := by
  suffices h : ∀ kept, List.eraseDupsBy.loop r (values ++ [value]) kept =
      if (List.eraseDupsBy.loop r values kept).any (r value) then
        List.eraseDupsBy.loop r values kept
      else List.eraseDupsBy.loop r values kept ++ [value] from h []
  intro kept
  induction values generalizing kept with
  | nil => cases h : kept.any (r value) <;> simp [List.eraseDupsBy.loop, h]
  | cons first rest ih =>
    rw [List.cons_append, List.eraseDupsBy.loop, List.eraseDupsBy.loop]
    split <;> exact ih _

end Concat

/-! ## Items around a section -/

/-- The items before the first of a section or of a later one. -/
def itemsBefore (own : Section) (items : List Item) : List Item :=
  items.takeWhile (Item.precedes own)

/-- The items from the first of a section or of a later one. -/
def itemsFrom (own : Section) (items : List Item) : List Item := items.dropWhile (Item.precedes own)

/-- Items that have reached a section may all stand before a later one, but not before one up to
it. -/
def HaveReached (reached : Section) (items : List Item) : Prop :=
  ∀ own, own ≠ .attributes → items.all (Item.precedes own) = decide (reached.rank < own.rank)

variable {reached own : Section} {items : List Item} {item : Item}

theorem haveReached_nil : HaveReached .attributes [] := by
  intro own hown
  cases own <;> first | contradiction | rfl

theorem HaveReached.all_concat (h : HaveReached reached items)
    (hle : reached.rank ≤ (item.section?.getD reached).rank) (hown : own ≠ .attributes) :
    (items.all (Item.precedes own) && item.precedes own) =
      decide ((item.section?.getD reached).rank < own.rank) := by
  rw [h own hown, Item.precedes]
  cases hsection : item.section? with
  | none => simp
  | some found =>
    rw [hsection, Option.getD_some] at hle
    rw [Option.all_some, Option.getD_some, ← Bool.decide_and, decide_eq_decide]
    exact and_iff_right_of_imp (Nat.lt_of_le_of_lt hle)

theorem HaveReached.concat (h : HaveReached reached items)
    (hle : reached.rank ≤ (item.section?.getD reached).rank) :
    HaveReached (item.section?.getD reached) (items ++ [item]) := by
  intro own hown
  rw [List.all_append, List.all_cons, List.all_nil, Bool.and_true, h.all_concat hle hown]

theorem HaveReached.itemsBefore_concat (h : HaveReached reached items)
    (hle : reached.rank ≤ (item.section?.getD reached).rank) (hown : own ≠ .attributes) :
    itemsBefore own (items ++ [item]) =
      itemsBefore own items ++
        if (item.section?.getD reached).rank < own.rank then [item] else [] := by
  simp only [itemsBefore, takeWhile_concat, h.all_concat hle hown, decide_eq_true_eq]

theorem HaveReached.itemsFrom_concat (h : HaveReached reached items)
    (hle : reached.rank ≤ (item.section?.getD reached).rank) (hown : own ≠ .attributes) :
    itemsFrom own (items ++ [item]) =
      itemsFrom own items ++
        if (item.section?.getD reached).rank < own.rank then [] else [item] := by
  simp only [itemsFrom, dropWhile_concat, h.all_concat hle hown, decide_eq_true_eq]

/-- The items from the first of a section up to the first of a later one. -/
def itemsBetween (first last : Section) (items : List Item) : List Item :=
  itemsBefore last (itemsFrom first items)

theorem Item.precedes_mono {first last : Section} (hle : first.rank ≤ last.rank)
    (h : item.precedes first = true) : item.precedes last = true := by
  cases hsection : item.section? with
  | none => simp [precedes, hsection]
  | some found =>
    simp only [precedes, hsection, Option.all_some, decide_eq_true_eq] at h ⊢
    exact Nat.lt_of_lt_of_le h hle

theorem itemsBefore_append_itemsFrom (own : Section) (items : List Item) :
    itemsBefore own items ++ itemsFrom own items = items :=
  List.takeWhile_append_dropWhile

/-- What stands before a section may stand before a later one. -/
theorem precedes_of_mem_itemsBefore {first last : Section} (hle : first.rank ≤ last.rank)
    (h : item ∈ itemsBefore first items) : item.precedes last = true :=
  Item.precedes_mono hle (List.all_eq_true.mp List.all_takeWhile item h)

theorem all_itemsFrom {first last : Section} (hle : first.rank ≤ last.rank) (items : List Item) :
    (itemsFrom first items).all (Item.precedes last) = items.all (Item.precedes last) := by
  have hbefore : (itemsBefore first items).all (Item.precedes last) = true :=
    List.all_eq_true.mpr fun item hitem => precedes_of_mem_itemsBefore hle hitem
  calc (itemsFrom first items).all (Item.precedes last)
      = ((itemsBefore first items).all (Item.precedes last) &&
          (itemsFrom first items).all (Item.precedes last)) := by rw [hbefore, Bool.true_and]
    _ = items.all (Item.precedes last) := by rw [← List.all_append, itemsBefore_append_itemsFrom]

theorem itemsFrom_itemsFrom {first last : Section} (hle : first.rank ≤ last.rank)
    (items : List Item) : itemsFrom last (itemsFrom first items) = itemsFrom last items := by
  have happend : itemsFrom last (itemsBefore first items ++ itemsFrom first items) =
      itemsFrom last (itemsFrom first items) :=
    List.dropWhile_append_of_pos fun item hitem => precedes_of_mem_itemsBefore hle hitem
  rw [itemsBefore_append_itemsFrom] at happend
  exact happend.symm

/-- Two sections cut items in three. -/
theorem itemsBefore_append_itemsBetween {first last : Section} (hle : first.rank ≤ last.rank)
    (items : List Item) :
    itemsBefore first items ++ itemsBetween first last items ++ itemsFrom last items = items := by
  rw [List.append_assoc, itemsBetween, ← itemsFrom_itemsFrom hle, itemsBefore_append_itemsFrom,
    itemsBefore_append_itemsFrom]

theorem HaveReached.itemsBetween_concat {first last : Section} (h : HaveReached reached items)
    (hle : reached.rank ≤ (item.section?.getD reached).rank) (hfirst : first ≠ .attributes)
    (hlast : first.rank < last.rank) :
    itemsBetween first last (items ++ [item]) =
      itemsBetween first last items ++
        if first.rank ≤ (item.section?.getD reached).rank ∧
            (item.section?.getD reached).rank < last.rank then [item] else [] := by
  have hlater : last ≠ .attributes := by
    rintro rfl
    contradiction
  rw [itemsBetween, h.itemsFrom_concat hle hfirst]
  by_cases hearly : (item.section?.getD reached).rank < first.rank
  · simp [hearly, Nat.not_le.mpr hearly, itemsBetween]
  · rw [if_neg hearly, itemsBefore, takeWhile_concat, all_itemsFrom (Nat.le_of_lt hlast),
      h.all_concat hle hlater]
    simp [Nat.not_lt.mp hearly, itemsBetween, itemsBefore]

/-! ## One more item -/

namespace Sections

variable {filled : Sections}

@[simp] theorem addAttribute_options (filled : Sections) (entry : Attribute) :
    (filled.addAttribute entry).options = filled.options := by
  rw [addAttribute]
  split <;> rfl

@[simp] theorem addAttribute_declarations (filled : Sections) (entry : Attribute) :
    (filled.addAttribute entry).declarations = filled.declarations := by
  rw [addAttribute]
  split <;> rfl

@[simp] theorem addAttribute_procedures (filled : Sections) (entry : Attribute) :
    (filled.addAttribute entry).procedures = filled.procedures := by
  rw [addAttribute]
  split <;> rfl

@[simp] theorem addTrivia_attributes (filled : Sections) (own : Section) (line : Trivia) :
    (filled.addTrivia own line).attributes = filled.attributes := by
  cases own <;> rfl

@[simp] theorem addTrivia_places (filled : Sections) (own : Section) (line : Trivia) :
    (filled.addTrivia own line).places = filled.places := by
  cases own <;> rfl

theorem options_add (hown : item.section?.getD reached = own) :
    (filled.add own item).options = filled.options ++
      (if own.rank < Section.declarations.rank then [item] else []).filterMap
        (Item.entry? Item.option?) := by
  cases item <;> subst hown
  case comment | emptyLine =>
    cases reached <;> simp [add, addTrivia, Item.section?, Section.rank, Item.entry?, Item.trivia?]
  all_goals simp [add, Item.section?, Section.rank, Item.entry?, Item.trivia?, Item.option?]

theorem declarations_add (hown : item.section?.getD reached = own) :
    (filled.add own item).declarations = filled.declarations ++
      (if Section.declarations.rank ≤ own.rank ∧ own.rank < Section.procedures.rank then [item]
        else []).filterMap (Item.entry? Item.declaration?) := by
  cases item <;> subst hown
  case comment | emptyLine =>
    cases reached <;> simp [add, addTrivia, Item.section?, Section.rank, Item.entry?, Item.trivia?]
  all_goals simp [add, Item.section?, Section.rank, Item.entry?, Item.trivia?, Item.declaration?]

theorem procedures_add (hown : item.section?.getD reached = own) :
    (filled.add own item).procedures = filled.procedures ++
      (if own.rank < Section.procedures.rank then [] else [item]).filterMap
        (Item.entry? Item.procedure?) := by
  cases item <;> subst hown
  case comment | emptyLine =>
    cases reached <;> simp [add, addTrivia, Item.section?, Section.rank, Item.entry?, Item.trivia?]
  all_goals simp [add, Item.section?, Section.rank, Item.entry?, Item.trivia?, Item.procedure?]

theorem optionValues_add (filled : Sections) (own : Section) (item : Item) :
    (filled.add own item).optionValues = filled.optionValues ++ item.option?.toList := by
  cases item
  case comment | emptyLine =>
    cases own <;> simp [optionValues, add, addTrivia, Trivia.entry, Entry.member?, Item.option?]
  all_goals simp [optionValues, add, Entry.member?, Item.option?]

theorem declarationItems_add (filled : Sections) (own : Section) (item : Item) :
    (filled.add own item).declarationItems =
      filled.declarationItems ++ item.declaration?.toList := by
  cases item
  case comment | emptyLine =>
    cases own <;>
      simp [declarationItems, add, addTrivia, Trivia.entry, Entry.member?, Item.declaration?]
  all_goals simp [declarationItems, add, Entry.member?, Item.declaration?]

theorem procedureItems_add (filled : Sections) (own : Section) (item : Item) :
    (filled.add own item).procedureItems = filled.procedureItems ++ item.procedure?.toList := by
  cases item
  case comment | emptyLine =>
    cases own <;>
      simp [procedureItems, add, addTrivia, Trivia.entry, Entry.member?, Item.procedure?]
  all_goals simp [procedureItems, add, Entry.member?, Item.procedure?]

/-! ## The index of attributes -/

/-- A name has a place in the index exactly when the attribute at this place has the name. -/
def Indexed (sections : Sections) : Prop :=
  ∀ (name : String) (place : Nat), sections.places.lookup name = some place ↔
    sections.attributes[place]?.map Attribute.name = some name

variable {sections : Sections}

theorem Indexed.isSome_lookup (h : sections.Indexed) (name : String) :
    (sections.places.lookup name).isSome =
      sections.attributes.any fun entry => name == entry.name := by
  rw [Bool.eq_iff_iff, Option.isSome_iff_exists, List.any_eq_true]
  constructor
  · rintro ⟨place, hplace⟩
    obtain ⟨entry, hentry, rfl⟩ := Option.map_eq_some_iff.mp ((h name place).mp hplace)
    exact ⟨entry, List.mem_of_getElem? hentry, beq_self_eq_true _⟩
  · rintro ⟨entry, hentry, hname⟩
    obtain ⟨place, hplace⟩ := List.mem_iff_getElem?.mp hentry
    exact ⟨place, (h name place).mpr (by rw [hplace, Option.map_some, eq_of_beq hname])⟩

/-- Each name stands at one place. -/
theorem Indexed.nodup (h : sections.Indexed) : (sections.attributes.map Attribute.name).Nodup := by
  have hplaces (place : Nat) (hlt : place < (sections.attributes.map Attribute.name).length) :
      sections.places.lookup (sections.attributes.map Attribute.name)[place] = some place := by
    rw [h, ← List.getElem?_map, List.getElem?_eq_getElem hlt]
  rw [List.nodup_iff_pairwise_ne, List.pairwise_iff_getElem]
  intro first second hfirst hsecond hlt heq
  have hsame : some first = some second := by
    rw [← hplaces first hfirst, ← hplaces second hsecond, heq]
  exact absurd (Option.some.inj hsame) (Nat.ne_of_lt hlt)

/-- The index leads to the only attribute of a name. -/
theorem Indexed.attributeValue_eq (h : sections.Indexed) (name : String) :
    sections.attributeValue name =
      (sections.attributes.find? fun entry => name == entry.name).map Attribute.value := by
  rw [attributeValue]
  cases hplace : sections.places.lookup name with
  | none =>
    have hnone : (sections.attributes.any fun entry => name == entry.name) = false := by
      rw [← h.isSome_lookup, hplace, Option.isSome_none]
    rw [List.find?_eq_none.mpr (by simpa using hnone)]
    rfl
  | some place =>
    obtain ⟨entry, hentry, hname⟩ := Option.map_eq_some_iff.mp ((h name place).mp hplace)
    have hfind : sections.attributes.find? (fun entry => name == entry.name) = some entry := by
      obtain ⟨hlt, hget⟩ := List.getElem?_eq_some_iff.mp hentry
      refine List.find?_eq_some_iff_getElem.mpr ⟨by simp [hname], place, hlt, hget, ?_⟩
      intro earlier hearlier
      rw [Bool.not_eq_true', beq_eq_false_iff_ne]
      intro hsame
      have hother : sections.places.lookup name = some earlier := by
        rw [h, List.getElem?_eq_getElem (Nat.lt_trans hearlier hlt), Option.map_some, hsame]
      rw [hplace] at hother
      exact absurd (Option.some.inj hother) (Nat.ne_of_gt hearlier)
    rw [Option.bind_some, hentry, hfind]

theorem indexed_empty : empty.Indexed := by
  intro name place
  simp [empty]

/-- A new name is entered with the place of its attribute. -/
theorem Indexed.addAttribute (h : sections.Indexed) (entry : Attribute) :
    (sections.addAttribute entry).Indexed := by
  rw [Sections.addAttribute]
  split
  · exact h
  · rename_i hnew
    rw [Bool.not_eq_true, Option.isSome_eq_false_iff, Option.isNone_iff_eq_none] at hnew
    intro name place
    have hold := h name place
    rw [List.lookup_cons]
    rcases Nat.lt_trichotomy place sections.attributes.length with hlt | rfl | hgt
    · rw [List.getElem?_append_left hlt, ← hold]
      cases hname : name == entry.name with
      | false => rfl
      | true =>
        rw [eq_of_beq hname, hnew]
        simp [Nat.ne_of_gt hlt]
    · rw [List.getElem?_concat_length, Option.map_some, Option.some_inj]
      rw [List.getElem?_eq_none (Nat.le_refl _), Option.map_none] at hold
      cases hname : name == entry.name with
      | false => simpa [ne_comm, hold] using hname
      | true => simp [eq_of_beq hname]
    · rw [List.getElem?_eq_none (Nat.le_of_lt hgt), Option.map_none] at hold
      rw [List.getElem?_eq_none (by rw [List.length_append]; exact hgt), Option.map_none]
      cases hname : name == entry.name with
      | false => exact hold
      | true => simp [Nat.ne_of_lt hgt]

theorem attributes_addAttribute (h : sections.Indexed) (entry : Attribute) :
    (sections.addAttribute entry).attributes =
      if sections.attributes.any fun other => entry.name == other.name then sections.attributes
      else sections.attributes ++ [entry] := by
  rw [addAttribute, h.isSome_lookup]
  split <;> rfl

theorem Indexed.add (h : sections.Indexed) (own : Section) (item : Item) :
    (sections.add own item).Indexed := by
  cases item with
  | attributeLine entry => exact h.addAttribute entry
  | comment note | emptyLine line =>
    intro name place
    simpa [Sections.add] using h name place
  | _ => exact h

theorem attributes_add (h : sections.Indexed) (own : Section) (item : Item)
    {entries : List Attribute} (hentries : sections.attributes =
      entries.eraseDupsBy fun entry other => entry.name == other.name) :
    (sections.add own item).attributes = (entries ++ item.attribute?.toList).eraseDupsBy
      fun entry other => entry.name == other.name := by
  cases item with
  | attributeLine entry =>
    rw [add, attributes_addAttribute h, Item.attribute?, Option.toList_some, eraseDupsBy_concat,
      hentries]
  | comment note | emptyLine line => simpa [add, Item.attribute?] using hentries
  | _ => simpa [add, Item.attribute?] using hentries

/-! ## All items -/

/-- Sections hold the items that have been sorted into them: each attribute of a new name, with its
place in the index, and in the other sections the members and the lines without code among them. -/
structure Hold (sections : Sections) (items : List Item) : Prop where
  attributes : sections.attributes =
    (items.filterMap Item.attribute?).eraseDupsBy fun entry other => entry.name == other.name
  indexed : sections.Indexed
  options : sections.options =
    (itemsBefore .declarations items).filterMap (Item.entry? Item.option?)
  declarations : sections.declarations =
    (itemsBetween .declarations .procedures items).filterMap (Item.entry? Item.declaration?)
  procedures : sections.procedures =
    (itemsFrom .procedures items).filterMap (Item.entry? Item.procedure?)
  optionValues : sections.optionValues = items.filterMap Item.option?
  declarationItems : sections.declarationItems = items.filterMap Item.declaration?
  procedureItems : sections.procedureItems = items.filterMap Item.procedure?

theorem hold_empty : empty.Hold [] where
  attributes := rfl
  indexed := indexed_empty
  options := rfl
  declarations := rfl
  procedures := rfl
  optionValues := rfl
  declarationItems := rfl
  procedureItems := rfl

theorem filterMap_concat {α β : Type} (f : α → Option β) (values : List α) (value : α) :
    (values ++ [value]).filterMap f = values.filterMap f ++ (f value).toList := by
  cases h : f value <;> simp [h]

/-- One more item, which does not go back, is held with the others. -/
theorem Hold.add (h : sections.Hold items) (hreached : HaveReached reached items)
    (hle : reached.rank ≤ (item.section?.getD reached).rank) :
    (sections.add (item.section?.getD reached) item).Hold (items ++ [item]) where
  attributes := by
    rw [filterMap_concat]
    exact attributes_add h.indexed _ item h.attributes
  indexed := h.indexed.add _ item
  options := by
    rw [options_add rfl, h.options, ← List.filterMap_append,
      hreached.itemsBefore_concat hle (by decide)]
  declarations := by
    rw [declarations_add rfl, h.declarations, ← List.filterMap_append,
      hreached.itemsBetween_concat hle (by decide) (by decide)]
  procedures := by
    rw [procedures_add rfl, h.procedures, ← List.filterMap_append,
      hreached.itemsFrom_concat hle (by decide)]
  optionValues := by rw [optionValues_add, filterMap_concat, h.optionValues]
  declarationItems := by rw [declarationItems_add, filterMap_concat, h.declarationItems]
  procedureItems := by rw [procedureItems_add, filterMap_concat, h.procedureItems]

/-- Sections that sorting ends with hold the items from before and those that it sorts. -/
theorem Hold.sort {sorted : Sections} {rest : List Item} {source : String} {width : Nat}
    (h : sections.Hold items) (hreached : HaveReached reached items)
    (hsort : sections.sort source width reached rest = .ok sorted) :
    sorted.Hold (items ++ rest) := by
  induction rest generalizing sections reached items with
  | nil =>
    cases hsort
    rwa [List.append_nil]
  | cons item rest ih =>
    rw [Sections.sort] at hsort
    by_cases hback : (item.section?.getD reached).rank < reached.rank
    · rw [if_pos hback] at hsort
      contradiction
    · rw [if_neg hback] at hsort
      have hle := Nat.not_lt.mp hback
      have hall := ih (h.add hreached hle) (hreached.concat hle) hsort
      rwa [List.append_assoc, List.singleton_append] at hall

theorem hold_of_ofModule {module : Module} {source : String} {width : Nat}
    (h : ofModule module source width = .ok sections) : sections.Hold module.items := by
  rw [ofModule] at h
  exact hold_empty.sort haveReached_nil h

/-! ## Attributes by their names -/

/-- The first attribute of a name is never left out. -/
theorem find?_eraseDupsBy (entries : List Attribute) (name : String) :
    (entries.eraseDupsBy fun entry other => entry.name == other.name).find?
        (fun entry => name == entry.name) =
      entries.find? fun entry => name == entry.name := by
  induction entries using List.reverseRecOn with
  | nil => rfl
  | append_singleton entries entry ih =>
    rw [eraseDupsBy_concat, List.find?_append, ← ih]
    split
    · rename_i hold
      cases hname : name == entry.name with
      | false => simp [hname]
      | true =>
        have hfound : ((entries.eraseDupsBy fun entry other => entry.name == other.name).find?
            fun entry => name == entry.name).isSome = true := by
          rw [List.find?_isSome]
          simpa [eq_of_beq hname] using hold
        rw [Option.or_of_isSome hfound]
    · rw [List.find?_append]

/-! ## Lines without code -/

theorem trivia?_entry? {α : Type} (member? : Item → Option α) (item : Item) :
    (item.entry? member?).bind Entry.trivia? = item.trivia? := by
  rw [Item.entry?]
  cases item.trivia? with
  | none => cases member? item <;> rfl
  | some line => simp

/-- Each line without code is in one section, in its order. -/
theorem Hold.trivia (h : sections.Hold items) :
    sections.options.filterMap Entry.trivia? ++ sections.declarations.filterMap Entry.trivia? ++
        sections.procedures.filterMap Entry.trivia? =
      items.filterMap Item.trivia? := by
  rw [h.options, h.declarations, h.procedures]
  simp only [List.filterMap_filterMap, trivia?_entry?]
  rw [← List.filterMap_append, ← List.filterMap_append,
    itemsBefore_append_itemsBetween (by decide)]

/-! ## Sections of a module -/

/-- The sections of a module hold its items, and nothing is lost or kept twice: a name has one
attribute, the first of the module, and each line without code is in one section. -/
theorem ofModule_loses_nothing {module : Module} {source : String} {width : Nat}
    (h : ofModule module source width = .ok sections) :
    sections.Hold module.items ∧
      (sections.attributes.map Attribute.name).Nodup ∧
      (∀ name, sections.attributeValue name =
        ((module.items.filterMap Item.attribute?).find? fun entry => name == entry.name).map
          Attribute.value) ∧
      sections.options.filterMap Entry.trivia? ++ sections.declarations.filterMap Entry.trivia? ++
          sections.procedures.filterMap Entry.trivia? =
        module.items.filterMap Item.trivia? := by
  have hhold := hold_of_ofModule h
  refine ⟨hhold, hhold.indexed.nodup, ?_, hhold.trivia⟩
  intro name
  rw [hhold.indexed.attributeValue_eq, hhold.attributes, find?_eraseDupsBy]

/-- An attribute that comes twice, and lines without code in front of every section. -/
theorem ofModule_of_repeated_attribute :
    let source :=
      "' a\nAttribute N = \"1\"\n\nAttribute N = \"2\"\nDim x\n' b\nSub A()\nEnd Sub\n' c\n"
    ∃ tree sections, parseModule source Settings.standard = .ok tree ∧
      ofModule tree source 40 = .ok sections ∧ sections.Hold tree.items ∧
      sections.attributeValue "N" = some "1" ∧
      (sections.options.length, sections.declarations.length, sections.procedures.length) =
        (2, 2, 2) := by
  intro source
  have hread : ((parseModule source Settings.standard).toOption.bind fun tree =>
      (ofModule tree source 40).toOption.map fun sections =>
        (sections.attributeValue "N", sections.options.length, sections.declarations.length,
          sections.procedures.length)) = some (some "1", 2, 2, 2) := by
    decide +kernel
  obtain ⟨tree, htree, hread⟩ := Option.bind_eq_some_iff.mp hread
  obtain ⟨sections, hsections, hread⟩ := Option.map_eq_some_iff.mp hread
  obtain ⟨hvalue, hlengths⟩ := Prod.mk.inj hread
  have hok := Grammar.eq_ok_of_toOption hsections
  exact ⟨tree, sections, Grammar.eq_ok_of_toOption htree, hok, (ofModule_loses_nothing hok).1,
    hvalue, hlengths⟩

end Sections

end VisualBasic
