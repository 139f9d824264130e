import VisualBasic.Proofs.Span.Module
import VisualBasic.Section

/-!
# The order of sections

The items of a module can be sorted into sections exactly when their sections never go back,
comments and empty lines apart. Where they do go back, the diagnostic stands at the start of the
first item that is of an earlier section than an item before it.
-/

set_option autoImplicit false

namespace VisualBasic

variable {items : List Item} {sections : List Section} {own reached : Section}

def sectionsOf (items : List Item) : List Section := items.filterMap Item.section?

@[simp] theorem sectionsOf_nil : sectionsOf [] = [] := rfl

theorem sectionsOf_cons (item : Item) (rest : List Item) :
    sectionsOf (item :: rest) = item.section?.toList ++ sectionsOf rest := by
  cases h : item.section? <;> simp [sectionsOf, h]

/-- Sections that never go back. -/
def Rising (sections : List Section) : Prop :=
  sections.Pairwise fun earlier later => earlier.rank ≤ later.rank

theorem Rising.head_le (h : Rising (reached :: sections)) :
    ∀ own ∈ sections, reached.rank ≤ own.rank :=
  (List.pairwise_cons.mp h).1

theorem rising_cons_cons :
    Rising (reached :: own :: sections) ↔ reached.rank ≤ own.rank ∧ Rising (own :: sections) := by
  constructor
  · intro h
    exact ⟨h.head_le own List.mem_cons_self, h.tail⟩
  · rintro ⟨hle, h⟩
    refine List.pairwise_cons.mpr ⟨?_, h⟩
    intro later hlater
    rcases List.mem_cons.mp hlater with rfl | hlater
    · exact hle
    · exact Nat.le_trans hle (h.head_le later hlater)

/-- Attributes may come first before anything. -/
theorem rising_attributes_cons : Rising (.attributes :: sections) ↔ Rising sections := by
  rw [Rising, List.pairwise_cons]
  exact and_iff_right fun own _ => Nat.zero_le own.rank

namespace Sections

/-- Sorting goes through exactly when the sections, from the one reached already, never go back. -/
theorem isOk_sort_iff (filled : Sections) (source : String) (width : Nat) :
    (∃ sorted, filled.sort source width reached items = .ok sorted) ↔
      Rising (reached :: sectionsOf items) := by
  induction items generalizing filled reached with
  | nil => simp [sort, Rising]
  | cons item rest ih =>
    rw [sort, sectionsOf_cons]
    cases hown : item.section? with
    | none => simpa using ih _
    | some own =>
      rw [Option.getD_some, Option.toList_some, List.singleton_append, rising_cons_cons]
      by_cases hback : own.rank < reached.rank
      · simp [hback, Nat.not_le.mpr hback]
      · rw [if_neg hback, ih]
        exact (and_iff_right (Nat.not_lt.mp hback)).symm

/-- A misplaced item is the first to go back: the sections before it never do, and its own comes
before the last of them. -/
structure Misplaced.IsFirst (misplaced : Misplaced) (before : List Section) : Prop where
  belongs : misplaced.item.section? = some misplaced.found
  rising : Rising before
  reached_mem : misplaced.reached ∈ before
  le_reached : ∀ own ∈ before, own.rank ≤ misplaced.reached.rank
  back : misplaced.found.rank < misplaced.reached.rank

variable {filled : Sections} {misplaced : Misplaced} {source : String} {width : Nat}
  {diagnostic : Diagnostic}

theorem Misplaced.IsFirst.cons (h : misplaced.IsFirst (own :: sections))
    (hle : reached.rank ≤ own.rank) : misplaced.IsFirst (reached :: own :: sections) where
  belongs := h.belongs
  rising := rising_cons_cons.mpr ⟨hle, h.rising⟩
  reached_mem := List.mem_cons_of_mem _ h.reached_mem
  le_reached := by
    intro other hother
    rcases List.mem_cons.mp hother with rfl | hother
    · exact Nat.le_trans hle (h.le_reached own List.mem_cons_self)
    · exact h.le_reached other hother
  back := h.back

/-- Nothing goes back from the attributes, so some item before it has reached the section that an
item goes back from. -/
theorem Misplaced.IsFirst.of_attributes_cons (h : misplaced.IsFirst (.attributes :: sections)) :
    misplaced.IsFirst sections where
  belongs := h.belongs
  rising := rising_attributes_cons.mp h.rising
  reached_mem := by
    rcases List.mem_cons.mp h.reached_mem with hreached | hreached
    · have hback := h.back
      rw [hreached] at hback
      contradiction
    · exact hreached
  le_reached := fun own hown => h.le_reached own (List.mem_cons_of_mem _ hown)
  back := h.back

/-- Sorting stops at the first item that goes back, with its diagnostic. -/
theorem misplaced_of_sort (h : filled.sort source width reached items = .error diagnostic) :
    ∃ (misplaced : Misplaced) (before after : List Item),
      diagnostic = misplaced.diagnose source width ∧
      items = before ++ misplaced.item :: after ∧
      misplaced.IsFirst (reached :: sectionsOf before) := by
  induction items generalizing filled reached with
  | nil => contradiction
  | cons item rest ih =>
    rw [sort] at h
    cases hown : item.section? with
    | none =>
      rw [hown, Option.getD_none, if_neg (Nat.lt_irrefl _)] at h
      obtain ⟨misplaced, before, after, hdiagnose, rfl, hfirst⟩ := ih h
      refine ⟨misplaced, item :: before, after, hdiagnose, rfl, ?_⟩
      rwa [sectionsOf_cons, hown, Option.toList_none, List.nil_append]
    | some own =>
      rw [hown, Option.getD_some] at h
      by_cases hback : own.rank < reached.rank
      · rw [if_pos hback] at h
        cases h
        exact ⟨⟨item, own, reached⟩, [], rest, rfl, rfl, hown, List.pairwise_singleton _ _,
          by simp, by simp, hback⟩
      · rw [if_neg hback] at h
        obtain ⟨misplaced, before, after, hdiagnose, rfl, hfirst⟩ := ih h
        refine ⟨misplaced, item :: before, after, hdiagnose, rfl, ?_⟩
        rw [sectionsOf_cons, hown, Option.toList_some, List.singleton_append]
        exact hfirst.cons (Nat.not_lt.mp hback)

end Sections

/-! ## The place of a misplaced item -/

/-- The items of a parsed module start between two characters of the source. -/
theorem isBoundary_of_mem_items {source : String} {settings : Settings}
    {tree : Module} {item : Item}
    (h : parseModule source settings = .ok tree) (hitem : item ∈ tree.items) :
    IsBoundary source.toList item.span.start := by
  obtain ⟨d, hd⟩ := inOrder_of_parseModule h
  obtain ⟨isTight, parts, hregions⟩ := item.exists_regions
  have hmem : Region.mk item.span isTight parts ∈ tree.regions :=
    List.mem_flatMap.mpr ⟨item, hitem, by simp [hregions]⟩
  cases ((hd.sound (Cursor.Reaches.refl _)).1 _ hmem).1 with
  | mk _ _ starts _ _ _ _ _ => exact starts

/-- A diagnostic stays where it is when this is between two characters. -/
theorem Diagnostic.locate_of_isBoundary (diagnostic : Diagnostic) {source : String}
    (h : IsBoundary source.toList diagnostic.offset) (width : Nat) :
    (diagnostic.locate source width).offset = diagnostic.offset ∧
      (diagnostic.locate source width).location =
        ⟨(Position.ofOffset source.toList diagnostic.offset).line,
          (Position.ofOffset source.toList diagnostic.offset).column,
          diagnostic.location.file⟩ := by
  obtain ⟨before, after, hsource, hoffset⟩ := h
  have hbefore : byteLength (splitBytes diagnostic.offset source.toList).1 = diagnostic.offset := by
    rw [hsource, hoffset, splitBytes_byteLength]
  simp only [Diagnostic.locate, hbefore, and_self]

namespace Sections.Misplaced

/-- A diagnostic stands at the start of a misplaced item and names the section it goes back from and
its own. -/
structure IsReportedBy (misplaced : Misplaced) (source : String) (diagnostic : Diagnostic) :
    Prop where
  kind : diagnostic.kind = .moduleLayout
  offset : diagnostic.offset = misplaced.item.span.start
  location : diagnostic.location =
    ⟨(Position.ofOffset source.toList misplaced.item.span.start).line,
      (Position.ofOffset source.toList misplaced.item.span.start).column, none⟩
  expected : diagnostic.expected = misplaced.reached.member ++ " or later section"
  help : diagnostic.help = some (misplaced.found.member ++ " found after a " ++
    misplaced.reached.member ++
    "; attributes, options, declarations and procedures must appear in that order")

theorem isReportedBy_diagnose {misplaced : Misplaced} {source : String}
    (h : IsBoundary source.toList misplaced.item.span.start) (width : Nat) :
    misplaced.IsReportedBy source (misplaced.diagnose source width) := by
  obtain ⟨hoffset, hlocation⟩ := Diagnostic.locate_of_isBoundary
    (.unlocated .moduleLayout "module" (misplaced.reached.member ++ " or later section")
      misplaced.item.span.start) h width
  exact ⟨rfl, hoffset, hlocation, rfl, rfl⟩

end Sections.Misplaced

/-! ## Sections of a module -/

/-- A parsed module has sections exactly when those of its items never go back. Otherwise a
diagnostic tells of the first item that goes back. -/
theorem ofModule_of_parseModule {source : String} {settings : Settings}
    {tree : Module} (width : Nat)
    (h : parseModule source settings = .ok tree) :
    ((∃ sections, Sections.ofModule tree source width = .ok sections) ↔
      Rising (sectionsOf tree.items)) ∧
    (¬ Rising (sectionsOf tree.items) →
      ∃ (diagnostic : Diagnostic) (misplaced : Sections.Misplaced) (before after : List Item),
        Sections.ofModule tree source width = .error diagnostic ∧
        tree.items = before ++ misplaced.item :: after ∧
        misplaced.IsFirst (sectionsOf before) ∧ misplaced.IsReportedBy source diagnostic) := by
  have hsort : (∃ sorted, Sections.empty.sort source width .attributes tree.items = .ok sorted) ↔
      Rising (sectionsOf tree.items) := by
    rw [Sections.isOk_sort_iff, rising_attributes_cons]
  rw [Sections.ofModule]
  cases hresult : Sections.empty.sort source width .attributes tree.items with
  | ok sorted =>
    have hrising : Rising (sectionsOf tree.items) := hsort.mp ⟨sorted, hresult⟩
    exact ⟨⟨fun _ => hrising, fun _ => ⟨sorted, rfl⟩⟩, fun hnot => absurd hrising hnot⟩
  | error diagnostic =>
    have hnot : ¬ Rising (sectionsOf tree.items) := by
      intro hrising
      obtain ⟨sorted, hok⟩ := hsort.mpr hrising
      rw [hresult] at hok
      contradiction
    constructor
    · constructor
      · rintro ⟨sections, hok⟩
        contradiction
      · exact fun hrising => absurd hrising hnot
    · intro _
      obtain ⟨misplaced, before, after, rfl, hitems, hfirst⟩ := Sections.misplaced_of_sort hresult
      have hmem : misplaced.item ∈ tree.items := by simp [hitems]
      have hplace := isBoundary_of_mem_items h hmem
      exact ⟨misplaced.diagnose source width, misplaced, before, after, rfl, hitems,
        hfirst.of_attributes_cons, misplaced.isReportedBy_diagnose hplace width⟩

/-- A declaration after a procedure, with a comment between them. -/
theorem ofModule_of_late_declaration :
    ∃ (tree : Module) (diagnostic : Diagnostic) (misplaced : Sections.Misplaced)
        (before after : List Item),
      parseModule "Sub A()\nEnd Sub\n' c\nDim x\n" Settings.standard = .ok tree ∧
      sectionsOf tree.items = [.procedures, .declarations] ∧
      Sections.ofModule tree "Sub A()\nEnd Sub\n' c\nDim x\n" 40 = .error diagnostic ∧
      tree.items = before ++ misplaced.item :: after ∧
      misplaced.IsFirst (sectionsOf before) ∧
      misplaced.IsReportedBy "Sub A()\nEnd Sub\n' c\nDim x\n" diagnostic := by
  have h : (parseModule "Sub A()\nEnd Sub\n' c\nDim x\n" Settings.standard).toOption.map
      (fun tree => sectionsOf tree.items) = some [.procedures, .declarations] := by
    decide +kernel
  obtain ⟨tree, htree, hsections⟩ := Option.map_eq_some_iff.mp h
  have hparse := Grammar.eq_ok_of_toOption htree
  have hnot : ¬ Rising (sectionsOf tree.items) := by
    rw [hsections, Rising, List.pairwise_pair]
    decide
  obtain ⟨diagnostic, misplaced, before, after, hfound⟩ :=
    (ofModule_of_parseModule 40 hparse).2 hnot
  exact ⟨tree, diagnostic, misplaced, before, after, hparse, hsections, hfound⟩

end VisualBasic
