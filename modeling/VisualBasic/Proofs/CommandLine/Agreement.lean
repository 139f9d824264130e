import VisualBasic.CommandLine.Run
import VisualBasic.Proofs.Section.Order

/-!
# Checking and parsing

`check` reaches every file in the way `parse` does: the rows it prints, the diagnostics it writes
and its exit code are told by what `parse` comes to for each file without flags. Of the flags only
`--grouped` can make `parse` fail where it does not fail without flags.
-/

set_option autoImplicit false

namespace VisualBasic.CommandLine

variable (files : Files) (palette : Palette) (name : String) (names : List String)

/-- The view without flags. -/
def View.flat : View := ⟨false, false, false⟩

/-- The number of items in the module of a file, none if it has no module. -/
def itemCount : Nat :=
  match parseFile files name with
  | .ok (_, module) => module.items.length
  | .error _ => 0

/-- The sections of the items of a file never go back. -/
def IsLaidOut : Prop :=
  ∀ source module, parseFile files name = .ok (source, module) → Rising (sectionsOf module.items)

/-- The row that `check` prints for a file, told by what `parse` comes to. -/
def checkRow : String :=
  if (runParse files palette name .flat).exitCode = 0 then
    palette.paint .boldGreen "ok" ++ " " ++ name ++ " (" ++ toString (itemCount files name) ++
    " items)\n"
  else palette.paint .boldRed "FAILED" ++ " " ++ name ++ "\n"

/-- The files that `parse` fails on. -/
def failing : List String :=
  names.filter fun name => (runParse files palette name .flat).exitCode ≠ 0

variable {files palette name names} {view : View}

/-! ## One file -/

section File

variable {source : String} {module : Module} {diagnostic : Diagnostic}

theorem runParse_of_ok (h : parseFile files name = .ok (source, module)) :
    runParse files palette name view =
      match viewModule palette view name source module with
      | .ok text => ⟨0, text, ""⟩
      | .error diagnostic => ⟨1, "", diagnostic.render palette⟩ := by
  rw [runParse, h]
  rfl

/-- A file without a module comes to its diagnostic, whatever the view. -/
theorem runParse_of_error (h : parseFile files name = .error diagnostic) :
    runParse files palette name view = ⟨1, "", diagnostic.render palette⟩ := by
  rw [runParse, h]
  rfl

theorem runParse_flat_of_ok (h : parseFile files name = .ok (source, module)) :
    runParse files palette name .flat = ⟨0, flatListing palette source module, ""⟩ := by
  rw [runParse_of_ok h]
  rfl

theorem isLaidOut_iff (h : parseFile files name = .ok (source, module)) :
    IsLaidOut files name ↔ Rising (sectionsOf module.items) := by
  constructor
  · exact fun hall => hall source module h
  · rintro hrising _ _ h'
    cases h.symm.trans h'
    exact hrising

theorem exists_ofModule_iff (source : String) (width : Nat) :
    (∃ sections, Sections.ofModule module source width = .ok sections) ↔
    Rising (sectionsOf module.items) := by
  rw [Sections.ofModule, Sections.isOk_sort_iff, rising_attributes_cons]

/-- A module can be shown in every view, unless sections are asked for that it does not have. -/
theorem exists_viewModule_iff (palette : Palette) :
    (∃ text, viewModule palette view name source module = .ok text) ↔
      (view.isGrouped → ¬ view.isStatistics → Rising (sectionsOf module.items)) := by
  rw [← exists_ofModule_iff source Settings.standard.snippetWidth, viewModule]
  by_cases hstatistics : view.isStatistics
  · simp [hstatistics]
  by_cases hgrouped : view.isGrouped
  · cases Sections.ofModule module source Settings.standard.snippetWidth <;>
      simp [hstatistics, hgrouped]
  · simp [hstatistics, hgrouped]

/-- `parse` succeeds in a view if it does without flags, and if the file has the sections that it is
asked for. -/
theorem exitCode_runParse_eq_zero_iff :
    (runParse files palette name view).exitCode = 0 ↔
      (runParse files palette name .flat).exitCode = 0 ∧
        (view.isGrouped → ¬ view.isStatistics → IsLaidOut files name) := by
  cases h : parseFile files name with
  | error diagnostic => simp [runParse_of_error h]
  | ok parsed =>
    obtain ⟨source, module⟩ := parsed
    rw [runParse_flat_of_ok h, isLaidOut_iff h, ← exists_viewModule_iff palette, runParse_of_ok h]
    cases viewModule palette view name source module <;> simp

/-- What `check` notes of a file is told by what `parse` comes to. -/
theorem checkFile_eq :
    checkFile files palette name =
      (checkRow files palette name,
        if (runParse files palette name .flat).exitCode ≠ 0 then
          some (runParse files palette name .flat).errors
        else none) := by
  cases h : parseFile files name with
  | error diagnostic => simp [checkFile, checkRow, runParse_of_error h, h]
  | ok parsed => simp [checkFile, checkRow, itemCount, runParse_flat_of_ok h, h]

end File

/-! ## Many files -/

theorem failing_cons (name : String) (rest : List String) :
    failing files palette (name :: rest) =
      if (runParse files palette name .flat).exitCode = 0 then failing files palette rest
      else name :: failing files palette rest := by
  by_cases h : (runParse files palette name .flat).exitCode = 0 <;> simp [failing, h]

theorem failing_eq_nil_iff :
    failing files palette names = [] ↔
    ∀ name ∈ names, (runParse files palette name .flat).exitCode = 0 := by
  simp [failing, List.filter_eq_nil_iff]

/-- The failures are noted in the order of the files. -/
theorem filterMap_checkFile :
    (names.map (checkFile files palette)).filterMap Prod.snd =
      (failing files palette names).map fun name => (runParse files palette name .flat).errors := by
  induction names with
  | nil => rfl
  | cons name rest ih =>
    rw [List.map_cons, List.filterMap_cons, ih, checkFile_eq, failing_cons]
    by_cases h : (runParse files palette name .flat).exitCode = 0 <;> simp [h]

theorem map_checkFile :
    (names.map (checkFile files palette)).map Prod.fst = names.map (checkRow files palette) := by
  simp only [List.map_map, List.map_inj_left, Function.comp_apply, checkFile_eq, implies_true]

/-! ## Command lines -/

/-- The flags that ask for a view. -/
def View.flags (view : View) : List String :=
  (if view.isGrouped then ["--grouped"] else []) ++ (if view.isJson then ["--json"] else []) ++
    (if view.isStatistics then ["--stats"] else [])

/-- After two dashes every argument names a file, as long as there is room for it. -/
theorem readCommand_files {allowed flags : List Flag} {room : Option Nat} {given : List String}
    (hnames : ∀ name ∈ names, name ≠ "")
    (hroom : ∀ most ∈ room, given.length + names.length ≤ most) :
    readCommand allowed room true names flags given = .ok (flags, given.reverse ++ names) := by
  induction names generalizing given with
  | nil => simp [readCommand]
  | cons name rest ih =>
    have hname : name.isEmpty = false := by simpa using hnames name List.mem_cons_self
    have hfree : room.any (· ≤ given.length) = false := by
      cases room with
      | none => rfl
      | some most => simpa using Nat.lt_of_lt_of_le (by simp) (hroom most rfl)
    have hrest : ∀ most ∈ room, (name :: given).length + rest.length ≤ most := by
      intro most hmost
      have := hroom most hmost
      simp only [List.length_cons] at this ⊢
      omega
    simp only [readCommand, hname, hfree, Bool.or_self, Bool.false_eq_true, if_false, if_true]
    rw [ih (fun other hother => hnames other (List.mem_cons_of_mem _ hother)) hrest]
    simp

theorem readCommand_separator {allowed flags : List Flag} {room : Option Nat}
    {given : List String} :
    readCommand allowed room false ("--" :: names) flags given =
      readCommand allowed room true names flags given := by
  rfl

theorem run_check (hne : names ≠ []) (hnames : ∀ name ∈ names, name ≠ "") :
    run files palette ("check" :: "--" :: names) = runCheck files palette names := by
  have hread : readCommand commonFlags none true names [] [] = .ok ([], names) :=
    readCommand_files hnames (by simp)
  have hcommand : Command.ofArguments "check" ("--" :: names) = .ok (.check names, []) := by
    rw [Command.ofArguments, if_neg (by decide), if_pos rfl, readCommand_separator, hread]
    cases names with
    | nil => contradiction
    | cons name rest => rfl
  have hargument : Argument.ofString "check" = .file "check" := rfl
  simp [run, Invocation.ofArguments, Invocation.read, hargument, hcommand, Except.map]

/-- The flags of a view as `parse` holds them, the last one first. -/
def View.given (view : View) : List Flag :=
  (if view.isStatistics then [.stats] else []) ++ (if view.isJson then [.json] else []) ++
    (if view.isGrouped then [.grouped] else [])

theorem readCommand_flags :
    readCommand (commonFlags ++ [.grouped, .json, .stats]) (some 1) false
      (view.flags ++ "--" :: names) [] [] =
      readCommand (commonFlags ++ [.grouped, .json, .stats]) (some 1) true names view.given [] := by
  obtain ⟨_ | _, _ | _, _ | _⟩ := view <;> rfl

theorem View.of_given :
    (⟨view.given.contains .grouped, view.given.contains .json, view.given.contains .stats⟩ : View) =
    view := by
  obtain ⟨_ | _, _ | _, _ | _⟩ := view <;> rfl

theorem run_parse (hname : name ≠ "") :
    run files palette ("parse" :: view.flags ++ ["--", name]) =
    runParse files palette name view := by
  have hread : readCommand (commonFlags ++ [.grouped, .json, .stats]) (some 1) true
    [name] view.given [] =
      .ok (view.given, [name]) :=
    readCommand_files (by simpa using hname) (by simp)
  have hcommand :
      Command.ofArguments "parse" (view.flags ++ ["--", name]) =
      .ok (.parse name view, view.given) := by
    rw [Command.ofArguments, if_pos rfl, readCommand_flags, hread]
    simp only [View.of_given]
  have hargument : Argument.ofString "parse" = .file "parse" := rfl
  have hcolour : Flag.noColor ∉ view.given := by
    obtain ⟨_ | _, _ | _, _ | _⟩ := view <;> decide
  simp [run, Invocation.ofArguments, Invocation.read, hargument, hcommand, Except.map, hcolour]

/-! ## Agreement -/

/-- `check` prints a row for each file in the order of the files and then the totals, writes what
`parse` writes for each file that it fails on, and fails if there is one. The flags of `parse`
change whether it succeeds only where sections are asked for that the module does not have. -/
theorem check_agrees_with_parse (files : Files) (palette : Palette) (names : List String) :
    ((runCheck files palette names).output =
        String.join (names.map (checkRow files palette)) ++ "\n" ++
        toString names.length ++ " checked, " ++
          toString (failing files palette names).length ++ " failed\n" ∧
      (runCheck files palette names).errors =
        String.join ((failing files palette names).map
          fun name => (runParse files palette name .flat).errors) ∧
      (runCheck files palette names).exitCode =
        if ∀ name ∈ names, (runParse files palette name .flat).exitCode = 0 then 0 else 1) ∧
    (∀ name view, (runParse files palette name view).exitCode = 0 ↔
      (runParse files palette name .flat).exitCode = 0 ∧
        (view.isGrouped → ¬ view.isStatistics → IsLaidOut files name)) ∧
    (names ≠ [] → (∀ name ∈ names, name ≠ "") →
      run files palette ("check" :: "--" :: names) = runCheck files palette names) ∧
    (∀ name view, name ≠ "" →
      run files palette ("parse" :: view.flags ++ ["--", name]) =
      runParse files palette name view) := by
  refine ⟨⟨?_, ?_, ?_⟩, fun _ _ => exitCode_runParse_eq_zero_iff, run_check, fun _ _ => run_parse⟩
  · simp only [runCheck, map_checkFile, filterMap_checkFile, List.length_map]
  · simp only [runCheck, filterMap_checkFile]
  · simp only [runCheck, filterMap_checkFile, List.isEmpty_map, List.isEmpty_iff,
      failing_eq_nil_iff]

/-- A file that holds a text is parsed as that text. -/
theorem parseFile_of_text {text : String} {module : Module} (h : files name = .ok text.toUTF8)
    (hmodule : parseModule text { Settings.standard with file := some name } = .ok module) :
    parseFile files name = .ok (text, module) := by
  have htext : String.fromUTF8? text.toUTF8 = some text := by
    simp [String.fromUTF8?, String.fromUTF8, text.isValidUTF8]
  have hread : files.read name = .ok text := by
    rw [Files.read, h]
    simp only [htext]
  rw [parseFile, hread]
  simp only [bind, Except.bind, hmodule]
  rfl

/-- A file with one item, and one that is missing. -/
theorem check_agrees_with_parse_of_missing :
    let files : Files :=
      fun name => if name = "a.bas" then .ok "Dim x\n".toUTF8 else .error .missing
    (run files .plain ["check", "--", "a.bas", "b.bas"]).output =
        "ok a.bas (1 items)\nFAILED b.bas\n\n2 checked, 1 failed\n" ∧
      (run files .plain ["check", "--", "a.bas", "b.bas"]).errors =
        (run files .plain ["parse", "--", "b.bas"]).errors ∧
      (run files .plain ["check", "--", "a.bas", "b.bas"]).exitCode = 1 := by
  intro files
  have hcount : (parseModule "Dim x\n" { Settings.standard with file := some "a.bas" }).toOption.map
      (fun module => module.items.length) = some 1 := by
    decide +kernel
  obtain ⟨module, hmodule, hlength⟩ := Option.map_eq_some_iff.mp hcount
  have hparsed : parseFile files "a.bas" = .ok ("Dim x\n", module) :=
    parseFile_of_text rfl (Grammar.eq_ok_of_toOption hmodule)
  have hmissing : parseFile files "b.bas" =
      .error (Diagnostic.ofUnreadable "b.bas" Unreadable.missing.text) :=
    rfl
  have hfailing : failing files .plain ["a.bas", "b.bas"] = ["b.bas"] := by
    simp [failing, runParse_flat_of_ok hparsed, runParse_of_error hmissing]
  obtain ⟨⟨houtput, herrors, hexit⟩, -, hcheck, hparse⟩ :=
    check_agrees_with_parse files .plain ["a.bas", "b.bas"]
  have hsingle : run files .plain ["parse", "--", "b.bas"] = runParse files .plain "b.bas" .flat :=
    hparse "b.bas" .flat (by simp)
  rw [hcheck (by simp) (by simp), houtput, herrors, hexit, hfailing, hsingle]
  refine ⟨?_, ?_, ?_⟩
  · simp [checkRow, runParse_flat_of_ok hparsed, runParse_of_error hmissing, itemCount,
      hparsed, hlength]
    decide
  · simp
  · simp [runParse_of_error hmissing]

end VisualBasic.CommandLine
