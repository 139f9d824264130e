import Mathlib.Data.List.Forall2
import VisualBasic.Proofs.CommandLine.Agreement
import VisualBasic.Proofs.Gap.Module
import VisualBasic.Proofs.Lookahead.LongestWord
import VisualBasic.Proofs.Session.Settings
import VisualBasic.Proofs.Text.Breaks
import VisualBasic.Proofs.WellFormed.Module

/-!
# Rows of the flat listing

The listing without flags has a row for each item. No row holds a break, with one exception: what a
row shows of a declaration ends at its first LF, so a lone CR that is the first break of a
declaration is shown with what follows it.
-/

set_option autoImplicit false

namespace VisualBasic

/-! ## Texts without breaks -/

variable {text other : String}

theorem IsUnbroken.append (h : IsUnbroken text) (h' : IsUnbroken other) :
    IsUnbroken (text ++ other) := by
  rw [IsUnbroken, String.toList_append]
  exact Unbroken.append h h'

theorem isUnbroken_toString (n : Nat) : IsUnbroken (toString n) := unbroken_toString n

theorem isUnbroken_replicate (n : Nat) : IsUnbroken (String.ofList (List.replicate n ' ')) := by
  rw [IsUnbroken, String.toList_ofList]
  exact unbroken_replicate rfl n

theorem IsUnbroken.padLeft (h : IsUnbroken text) (width : Nat) : IsUnbroken (padLeft width text) :=
  (isUnbroken_replicate _).append h

theorem IsUnbroken.padRight (h : IsUnbroken text) (width : Nat) :
    IsUnbroken (padRight width text) :=
  h.append (isUnbroken_replicate _)

theorem mem_reopen {opening chars : List Char} {c : Char} (h : c ∈ reopen opening chars) :
    c ∈ opening ∨ c ∈ chars := by
  fun_induction reopen opening chars with
  | case1 rest ih =>
    simp only [List.mem_append, List.mem_cons, List.not_mem_nil, or_false] at h ⊢
    rcases h with (h | h) | h
    · grind
    · exact .inl h
    · grind
  | case2 d rest _ ih =>
    rcases List.mem_cons.mp h with rfl | h
    · exact .inr List.mem_cons_self
    · exact (ih h).imp_right (List.mem_cons_of_mem d)
  | case3 => contradiction

theorem isUnbroken_opening (style : Style) : IsUnbroken style.opening := by
  cases style <;> exact unbroken_of_all rfl

theorem IsUnbroken.paint (h : IsUnbroken text) (palette : Palette) (style : Style) :
    IsUnbroken (palette.paint style text) := by
  cases palette with
  | plain => exact h
  | coloured =>
    refine ((isUnbroken_opening style).append ?_).append (unbroken_of_all rfl)
    intro c hc
    rw [String.toList_ofList] at hc
    exact (mem_reopen hc).elim (isUnbroken_opening style c) (h c)

theorem IsWord.isUnbroken (h : IsWord text) : IsUnbroken text := fun c hc =>
  isBreak_eq_false_of_isInk (isInk_of_isWordChar (h.isWordChar c hc))

theorem IsDottedName.isUnbroken (h : IsDottedName text) : IsUnbroken text := by
  obtain ⟨names, -, rfl, hnames⟩ := h
  induction names with
  | nil => exact unbroken_of_all rfl
  | cons first rest ih =>
    have hfirst : IsUnbroken first := (hnames first List.mem_cons_self).word.isUnbroken
    cases rest with
    | nil => rwa [String.intercalate_singleton]
    | cons second rest =>
      rw [String.intercalate_cons_cons]
      have hrest := ih fun part hpart => hnames part (List.mem_cons_of_mem _ hpart)
      exact (hfirst.append (unbroken_of_all rfl)).append hrest

/-! ## The text up to a break -/

theorem mem_of_mem_trimWhiteSpace {chars : List Char} {c : Char} (h : c ∈ trimWhiteSpace chars) :
    c ∈ chars := by
  have hback := (List.dropWhile_sublist _).subset (List.mem_reverse.mp h)
  exact (List.dropWhile_sublist _).subset (List.mem_reverse.mp hback)

theorem trimWhiteSpace_concat {c : Char} (hc : isWhiteSpace c = true) (chars : List Char) :
    trimWhiteSpace (chars ++ [c]) = trimWhiteSpace chars := by
  rw [trimWhiteSpace, trimWhiteSpace, List.dropWhile_append]
  split
  · rename_i hall
    rw [List.isEmpty_iff.mp hall]
    simp [hc]
  · rw [List.reverse_append]
    simp [hc]

/-- The first break of a text is a CR that no LF follows. -/
def BreaksAtReturn (chars : List Char) : Prop :=
  ∃ before after, chars = before ++ '\r' :: after ∧ Unbroken before ∧ after.head? ≠ some '\n'

/-- A text up to its first LF is its first line, perhaps with the CR of a CR LF, unless a lone CR
comes first. -/
theorem takeWhile_of_not_breaksAtReturn {chars : List Char} (h : ¬ BreaksAtReturn chars) :
    chars.takeWhile (· ≠ '\n') = chars.takeWhile (! isBreak ·) ∨
      chars.takeWhile (· ≠ '\n') = chars.takeWhile (! isBreak ·) ++ ['\r'] := by
  induction chars with
  | nil => exact .inl rfl
  | cons c rest ih =>
    by_cases hfeed : c = '\n'
    · subst hfeed
      exact .inl rfl
    by_cases hreturn : c = '\r'
    · subst hreturn
      have hhead : rest.head? = some '\n' := by
        by_contra hhead
        exact h ⟨[], rest, rfl, by simp [Unbroken], hhead⟩
      obtain ⟨rest, rfl⟩ := List.head?_eq_some_iff.mp hhead
      exact .inr rfl
    · have hc : isBreak c = false := by simp [isBreak, hfeed, hreturn]
      have hrest : ¬ BreaksAtReturn rest := by
        rintro ⟨before, after, rfl, hbefore, hafter⟩
        refine h ⟨c :: before, after, rfl, ?_, hafter⟩
        intro d hd
        rcases List.mem_cons.mp hd with rfl | hd
        · exact hc
        · exact hbefore d hd
      simpa [hfeed, hc] using ih hrest

/-- The item is a declaration whose first break is a lone CR. -/
def Item.BreaksAtReturn (item : Item) (source : String) : Prop :=
  ∃ declared, item = .declaration declared ∧
  VisualBasic.BreaksAtReturn (declared.span.slice source).toList

theorem IsUnbroken.feed_notMem (h : IsUnbroken text) : '\n' ∉ text.toList := by
  intro hmem
  exact absurd (h _ hmem) (by decide)

namespace CommandLine

theorem feed_notMem_firstLine (text : String) : '\n' ∉ (firstLine text).toList := by
  intro h
  rw [firstLine, String.toList_ofList] at h
  have hfeed := List.mem_takeWhile_imp (mem_of_mem_trimWhiteSpace h)
  simp at hfeed

/-- Where no lone CR is the first break, the label of a declaration is its first line. -/
theorem firstLine_of_not_breaksAtReturn (h : ¬ BreaksAtReturn text.toList) :
    firstLine text = String.ofList (trimWhiteSpace (text.toList.takeWhile (! isBreak ·))) := by
  rw [firstLine]
  rcases takeWhile_of_not_breaksAtReturn h with htake | htake
  · rw [htake]
  · rw [htake, trimWhiteSpace_concat rfl]

theorem isUnbroken_firstLine (h : ¬ BreaksAtReturn text.toList) : IsUnbroken (firstLine text) := by
  intro c hc
  rw [firstLine_of_not_breaksAtReturn h, String.toList_ofList] at hc
  simpa using List.mem_takeWhile_imp (mem_of_mem_trimWhiteSpace hc)

/-! ## Rows -/

/-- What a row of the listing holds before the label. -/
def rowMargin (palette : Palette) (source : String) (item : Item) : String :=
  lineNumber palette source item.span ++ "  " ++ padRight 12 item.kind ++ " "

/-- The row of an item in the listing, without the LF at its end. -/
structure IsRow (palette : Palette) (source : String) (item : Item) (row : String) : Prop where
  text : row = rowMargin palette source item ++ label source item
  feed_notMem : '\n' ∉ row.toList
  unbroken : ¬ item.BreaksAtReturn source → IsUnbroken row
  label_upToFeed : ∀ declared, item = .declaration declared → label source item =
    String.ofList (trimWhiteSpace ((declared.span.slice source).toList.takeWhile (· ≠ '\n')))
  label_firstLine : ∀ declared, item = .declaration declared → ¬ item.BreaksAtReturn source →
    label source item =
    String.ofList (trimWhiteSpace ((declared.span.slice source).toList.takeWhile (! isBreak ·)))

variable {palette : Palette} {source : String} {item : Item}

theorem isUnbroken_kind (item : Item) : IsUnbroken item.kind := by
  cases item with
  | procedure definition =>
    rw [Item.kind]
    cases definition <;> (rw [Procedure.kind]; exact unbroken_of_all rfl)
  | _ =>
    rw [Item.kind]
    exact unbroken_of_all rfl

theorem isUnbroken_rowMargin (palette : Palette) (source : String) (item : Item) :
    IsUnbroken (rowMargin palette source item) := by
  have hnumber : IsUnbroken (lineNumber palette source item.span) :=
    ((isUnbroken_toString _).padLeft 5).paint palette _
  have hkind : IsUnbroken (padRight 12 item.kind) := (isUnbroken_kind item).padRight 12
  exact ((hnumber.append (unbroken_of_all rfl)).append hkind).append (unbroken_of_all rfl)

theorem isIdentifier_headName {head : PropertyHead} (h : head.WellFormed) :
    IsIdentifier head.head.name := by
  cases head with
  | letter head => exact Head.WellFormed.name h
  | setter head => exact Head.WellFormed.name h
  | getter head => exact Head.WellFormed.name h.plain

theorem isIdentifier_name {definition : Procedure} (h : definition.WellFormed) :
    IsIdentifier definition.name := by
  cases definition with
  | sub definition => exact h.head.name
  | function definition => exact h.head.plain.name
  | property definition => exact isIdentifier_headName h.head

theorem isUnbroken_optionName (option : ModuleOption) : IsUnbroken option.name := by
  cases option <;> (rw [ModuleOption.name]; exact unbroken_of_all rfl)

/-- Of the labels only those of declarations can hold a break. -/
theorem isUnbroken_label (h : item.WellFormed) (hreturn : ¬ item.BreaksAtReturn source) :
    IsUnbroken (label source item) := by
  cases item with
  | comment note => exact IsUnbroken.append (unbroken_of_all rfl) h
  | emptyLine line => exact unbroken_of_all rfl
  | attributeLine entry => exact (h.name.isUnbroken.append (unbroken_of_all rfl)).append h.value
  | optionLine line => exact isUnbroken_optionName line.option
  | declaration declared =>
    exact isUnbroken_firstLine fun hbreaks => hreturn ⟨declared, rfl, hbreaks⟩
  | procedure definition =>
    have hname : IsUnbroken definition.name := (isIdentifier_name h).word.isUnbroken
    exact ((hname.append (unbroken_of_all rfl)).append (isUnbroken_toString _)).append
      (unbroken_of_all rfl)

theorem feed_notMem_label (h : item.WellFormed) : '\n' ∉ (label source item).toList := by
  cases item with
  | declaration declared => exact feed_notMem_firstLine _
  | _ =>
    refine (isUnbroken_label h ?_).feed_notMem
    rintro ⟨declared, hitem, -⟩
    contradiction

theorem isRow_of_wellFormed (palette : Palette) (source : String) (h : item.WellFormed) :
    IsRow palette source item (rowMargin palette source item ++ label source item) where
  text := rfl
  feed_notMem := by
    rw [String.toList_append, List.mem_append]
    rintro (hmem | hmem)
    · exact (isUnbroken_rowMargin palette source item).feed_notMem hmem
    · exact feed_notMem_label h hmem
  unbroken :=
    fun hreturn => (isUnbroken_rowMargin palette source item).append (isUnbroken_label h hreturn)
  label_upToFeed := by
    rintro declared rfl
    rfl
  label_firstLine := by
    rintro declared rfl hreturn
    exact firstLine_of_not_breaksAtReturn fun hbreaks => hreturn ⟨declared, rfl, hbreaks⟩

theorem itemRow_eq (palette : Palette) (source : String) (item : Item) :
    itemRow palette source item = rowMargin palette source item ++ label source item ++ "\n" := rfl

/-- The listing of a parsed module has one row for each item in the order of the source, each with
the line that the item starts on, its kind and its label, and each ended by LF. Breaks stand in the
rows only of declarations whose first break is a lone CR. -/
theorem flatListing_of_parseModule {settings : Settings} {module : Module}
    (h : parseModule source settings = .ok module) (palette : Palette) :
    (∀ (files : Files) name, files name = .ok source.toUTF8 →
      runParse files palette name .flat = ⟨0, flatListing palette source module, ""⟩) ∧
    ∃ rows : List String, flatListing palette source module = String.join (rows.map (· ++ "\n")) ∧
      List.Forall₂ (IsRow palette source) module.items rows := by
  constructor
  · intro files name hfile
    have hsame := parseModule_agrees source settings { Settings.standard with file := some name }
    rw [h] at hsame
    generalize hother : parseModule source { Settings.standard with file := some name } =
      other at hsame
    cases hsame
    exact runParse_flat_of_ok (parseFile_of_text hfile hother)
  · obtain ⟨after, hm⟩ := matched_of_parseModule h
    have hitems : module.WellFormed := (Grammar.gives_module [] _ module after trivial hm).2
    refine ⟨module.items.map fun item => rowMargin palette source item ++ label source item, ?_, ?_⟩
    · rw [flatListing, List.map_map]
      exact congrArg String.join (List.map_congr_left fun item _ => itemRow_eq palette source item)
    · rw [List.forall₂_map_right_iff, List.forall₂_same]
      exact fun item hitem => isRow_of_wellFormed palette source (hitems item hitem)

/-- A record with LF between its lines. -/
theorem flatListing_of_record :
    ∃ module rows, parseModule "Type T\r\nx As Long\nEnd Type\n" Settings.standard = .ok module ∧
      flatListing .plain "Type T\r\nx As Long\nEnd Type\n" module =
      String.join (rows.map (· ++ "\n")) ∧
      List.Forall₂ (IsRow .plain "Type T\r\nx As Long\nEnd Type\n") module.items rows ∧
      flatListing .plain "Type T\r\nx As Long\nEnd Type\n" module =
      "    1  declaration  Type T\n" := by
  have hlisting : (parseModule "Type T\r\nx As Long\nEnd Type\n" Settings.standard).toOption.map
      (flatListing .plain "Type T\r\nx As Long\nEnd Type\n") =
      some "    1  declaration  Type T\n" := by
    decide +kernel
  obtain ⟨module, hmodule, htext⟩ := Option.map_eq_some_iff.mp hlisting
  have hparse := Grammar.eq_ok_of_toOption hmodule
  obtain ⟨-, rows, hrows, hitems⟩ := flatListing_of_parseModule hparse .plain
  exact ⟨module, rows, hparse, hrows, hitems, htext⟩

/-- A record with CR between its lines: its first line is short, but its row holds all its lines and
their breaks. -/
theorem exists_flatListing_with_return :
    ∃ module, parseModule "Type T\rx As Long\rEnd Type\r" Settings.standard = .ok module ∧
      (module.items.map fun item => String.ofList (trimWhiteSpace
        ((item.span.slice "Type T\rx As Long\rEnd Type\r").toList.takeWhile (! isBreak ·)))) =
        ["Type T"] ∧
      flatListing .plain "Type T\rx As Long\rEnd Type\r" module =
        "    1  declaration  Type T\rx As Long\rEnd Type\n" := by
  have h : (parseModule "Type T\rx As Long\rEnd Type\r" Settings.standard).toOption.map
    (fun module =>
      (module.items.map fun item => String.ofList (trimWhiteSpace
        ((item.span.slice "Type T\rx As Long\rEnd Type\r").toList.takeWhile (! isBreak ·))),
      flatListing .plain "Type T\rx As Long\rEnd Type\r" module)) =
      some (["Type T"], "    1  declaration  Type T\rx As Long\rEnd Type\n") := by
    decide +kernel
  obtain ⟨module, hmodule, hvalue⟩ := Option.map_eq_some_iff.mp h
  exact ⟨module, Grammar.eq_ok_of_toOption hmodule, congrArg Prod.fst hvalue,
    congrArg Prod.snd hvalue⟩

end CommandLine

end VisualBasic
