import VisualBasic.Proofs.Diagnostic.Reported
import VisualBasic.Proofs.Session.Restoration
import VisualBasic.Section

/-!
# What the settings of a session reach

The settings of a session choose how much text a diagnostic quotes and which file it names, and
nothing else. Two sessions over one source that differ in their settings parse the same trees rule
by rule, or fail with diagnostics that differ in those two texts alone; so do the parses of a
module, sorted into sections or not.
-/

set_option autoImplicit false

namespace VisualBasic

/-! ## Diagnostics -/

/-- A diagnostic but for the text that it quotes from its place and the file that it names. -/
def Diagnostic.withoutSettings (diagnostic : Diagnostic) : Diagnostic :=
  { diagnostic with snippet := "", location := { diagnostic.location with file := none } }

namespace Diagnostic

variable {diagnostic other : Diagnostic}

theorem kind_eq (h : diagnostic.withoutSettings = other.withoutSettings) :
    diagnostic.kind = other.kind :=
  show diagnostic.withoutSettings.kind = other.withoutSettings.kind by rw [h]

theorem sourceLine_eq (h : diagnostic.withoutSettings = other.withoutSettings) :
    diagnostic.sourceLine = other.sourceLine :=
  show diagnostic.withoutSettings.sourceLine = other.withoutSettings.sourceLine by rw [h]

/-- Where a diagnostic is located does not depend on how much it quotes. -/
theorem withoutSettings_locate (h : diagnostic.withoutSettings = other.withoutSettings)
    (source : String)
    (width width' : Nat) :
    (diagnostic.locate source width).withoutSettings =
    (other.locate source width').withoutSettings := by
  have hlocate (unset : Diagnostic) (width : Nat) : (unset.locate source width).withoutSettings =
      (unset.withoutSettings.locate source 0).withoutSettings := rfl
  rw [hlocate diagnostic, h]
  exact (hlocate other width').symm

theorem withoutSettings_ofFailure (source : String) (width width' : Nat) (failure : Failure) :
    (ofFailure source width failure).withoutSettings =
    (ofFailure source width' failure).withoutSettings := rfl

end Diagnostic

theorem Sections.Misplaced.withoutSettings_diagnose (misplaced : Misplaced) (source : String)
    (width width' : Nat) :
    (misplaced.diagnose source width).withoutSettings =
    (misplaced.diagnose source width').withoutSettings := rfl

/-! ## Sessions -/

variable {report report' : Report} {diagnostic other : Diagnostic}

/-- Reports of one source that hold the same diagnostics but for what settings choose. -/
structure Report.Agrees (report report' : Report) : Prop where
  source : report.source = report'.source
  diagnostics : report.diagnostics.map Diagnostic.withoutSettings =
    report'.diagnostics.map Diagnostic.withoutSettings

namespace Report

theorem withoutSettings_stamp (report : Report) (diagnostic : Diagnostic) :
    (report.stamp diagnostic).withoutSettings =
      (if diagnostic.sourceLine.isNone && diagnostic.kind ≠ .unreadable then
        diagnostic.locate report.source report.width
      else diagnostic).withoutSettings := by
  unfold stamp
  cases report.file <;> rfl

theorem Agrees.stamp (h : report.Agrees report')
    (hd : diagnostic.withoutSettings = other.withoutSettings) :
    (report.stamp diagnostic).withoutSettings = (report'.stamp other).withoutSettings := by
  have hkind : diagnostic.kind = other.kind := Diagnostic.kind_eq hd
  have hline : diagnostic.sourceLine = other.sourceLine := Diagnostic.sourceLine_eq hd
  rw [withoutSettings_stamp, withoutSettings_stamp, hkind, hline, h.source]
  split
  · exact Diagnostic.withoutSettings_locate hd _ _ _
  · exact hd

theorem Agrees.add (h : report.Agrees report')
    (hd : diagnostic.withoutSettings = other.withoutSettings) :
    (report.add diagnostic).Agrees (report'.add other) := by
  refine ⟨h.source, ?_⟩
  simp only [Report.add, List.map_append, List.map_cons, List.map_nil, h.diagnostics, h.stamp hd]

theorem agrees_empty (source : String) (file file' : Option String) (width width' : Nat) :
    (empty source file width).Agrees (empty source file' width') := ⟨rfl, rfl⟩

end Report

/-- Steps with the same outcome but for what settings choose in a diagnostic. -/
inductive Step.Agrees : Step Json → Step Json → Prop
  | matched (tree : Json) : Step.Agrees (.matched tree) (.matched tree)
  | unmatched : Step.Agrees .unmatched .unmatched
  | failed {diagnostic other : Diagnostic}
      (h : diagnostic.withoutSettings = other.withoutSettings) :
    Step.Agrees (.failed diagnostic) (.failed other)

/-- Sessions that have come to the same place of one source, whatever their settings. -/
structure Session.Agrees (session session' : Session) : Prop where
  source : session.source = session'.source
  inside : session.inside = session'.inside
  cursor : session.cursor = session'.cursor
  report : session.report.Agrees session'.report

namespace Session

variable {session session' : Session}

theorem agrees_start (source : String) (settings settings' : Settings) :
    (start source settings).Agrees (start source settings') :=
  ⟨rfl, rfl, rfl, Report.agrees_empty _ _ _ _ _⟩

/-- A rule comes to the same in both sessions. -/
theorem Agrees.run (h : session.Agrees session') (rule : Rule) :
    (session.run rule).1.Agrees (session'.run rule).1 ∧
    (session.run rule).2.Agrees (session'.run rule).2 := by
  obtain ⟨source, settings, inside, cursor, report⟩ := session
  obtain ⟨source', settings', inside', cursor', report'⟩ := session'
  obtain ⟨rfl, rfl, rfl, hreport⟩ := h
  rw [run_eq, run_eq]
  dsimp only
  cases rule.parse inside cursor with
  | matched tree after => exact ⟨.matched tree, rfl, rfl, rfl, hreport⟩
  | unmatched => exact ⟨.unmatched, rfl, rfl, rfl, hreport⟩
  | failed failure =>
    have hdiagnose :=
      Diagnostic.withoutSettings_ofFailure source settings.snippetWidth
        settings'.snippetWidth failure
    dsimp only [diagnose]
    split
    · exact ⟨.failed (hreport.stamp hdiagnose), rfl, rfl, rfl, hreport.add hdiagnose⟩
    · exact ⟨.failed hdiagnose, rfl, rfl, rfl, hreport⟩

/-- So does any run of rules. -/
theorem Agrees.runAll (h : session.Agrees session') (rules : List Rule) :
    (session.runAll rules).Agrees (session'.runAll rules) := by
  induction rules generalizing session session' with
  | nil => exact h
  | cons rule rest ih => exact ih (h.run rule).2

end Session

/-! ## Modules -/

/-- The same result, or diagnostics that differ at most in what settings choose. -/
inductive ResultsAgree {α : Type} : Except Diagnostic α → Except Diagnostic α → Prop
  | ok (value : α) : ResultsAgree (.ok value) (.ok value)
  | error {diagnostic other : Diagnostic} (h : diagnostic.withoutSettings = other.withoutSettings) :
    ResultsAgree (.error diagnostic) (.error other)

theorem ResultsAgree.bind {α β : Type} {result result' : Except Diagnostic α}
    {f g : α → Except Diagnostic β}
    (h : ResultsAgree result result') (hf : ∀ value, ResultsAgree (f value) (g value)) :
    ResultsAgree (result >>= f) (result' >>= g) := by
  cases h with
  | ok value => exact hf value
  | error h => exact .error h

theorem parseModule_agrees (source : String) (settings settings' : Settings) :
    ResultsAgree (parseModule source settings) (parseModule source settings') := by
  rw [parseModule_eq, parseModule_eq]
  cases Grammar.module [] (Cursor.start source.toList) with
  | matched tree after => exact .ok tree
  | unmatched => exact .ok (Module.mk [])
  | failed failure =>
    have hreport := Report.agrees_empty source settings.file settings'.file settings.snippetWidth
      settings'.snippetWidth
    exact .error (hreport.stamp (Diagnostic.withoutSettings_ofFailure _ _ _ failure))

/-- Item by item, sections are filled alike, or the same item goes back. -/
theorem sort_agrees (sections : Sections) (reached : Section) (items : List Item) (source : String)
    (width width' : Nat) : ResultsAgree (sections.sort source width reached items)
      (sections.sort source width' reached items) := by
  induction items generalizing sections reached with
  | nil => exact .ok sections
  | cons item rest ih =>
    rw [Sections.sort, Sections.sort]
    split
    · exact .error (Sections.Misplaced.withoutSettings_diagnose _ source width width')
    · exact ih _ _

theorem ofModule_agrees (tree : Module) (source : String) (width width' : Nat) :
    ResultsAgree (Sections.ofModule tree source width) (Sections.ofModule tree source width') :=
  sort_agrees Sections.empty .attributes tree.items source width width'

/-- The sections of the module of a source. -/
def parseSections (source : String) (settings : Settings) : Except Diagnostic Sections := do
  let tree ← parseModule source settings
  Sections.ofModule tree source settings.snippetWidth

/-- Whatever the settings, a source is parsed to the same module and the same sections, and every
rule of a session comes to the same, or all fail with diagnostics that differ in the text quoted
from their place and in the file alone. -/
theorem settings_change_diagnostics_only (source : String) (settings settings' : Settings) :
    ResultsAgree (parseModule source settings) (parseModule source settings') ∧
      ResultsAgree (parseSections source settings) (parseSections source settings') ∧
      ∀ (rules : List Rule) (rule : Rule),
        (((Session.start source settings).runAll rules).run rule).1.Agrees
          (((Session.start source settings').runAll rules).run rule).1 :=
  ⟨parseModule_agrees source settings settings',
    (parseModule_agrees source settings settings').bind fun tree =>
      ofModule_agrees tree source settings.snippetWidth settings'.snippetWidth,
    fun rules rule => (((Session.agrees_start source settings settings').runAll rules).run rule).1⟩

end VisualBasic
