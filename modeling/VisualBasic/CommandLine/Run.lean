import VisualBasic.CommandLine.Arguments
import VisualBasic.CommandLine.Files
import VisualBasic.CommandLine.Listing
import VisualBasic.Session

/-!
# The command line

`parse` shows the module of one file in a view; `check` parses any number of files and counts those
that fail. Both are functions of the files: what they come to is an exit code and two texts.
-/

set_option autoImplicit false

namespace VisualBasic.CommandLine

/-- What a command comes to. -/
structure Result where
  exitCode : Nat
  output : String
  errors : String
  deriving DecidableEq, Repr

def usage : String :=
  "Usage: parse [--grouped] [--json] [--stats] FILE\n       check FILE...\n\n" ++
    "Both take [-v | --verbose] and [--no-color].\n"

def version : String := "vb6-parser 0.3.0\n"

/-- The source of a file and its module. -/
def parseFile (files : Files) (name : String) : Except Diagnostic (String × Module) := do
  let source ← files.read name
  let module ← parseModule source { Settings.standard with file := some name }
  return (source, module)

/-- The text of a module in a view. Statistics come before sections, sections before the items. -/
def viewModule (palette : Palette) (view : View) (name source : String) (module : Module) :
    Except Diagnostic String :=
  if view.isStatistics then
    let counts := Statistics.ofModule module
    .ok (if view.isJson then counts.toJson.pretty ++ "\n" else statisticsListing counts)
  else if view.isGrouped then
    match Sections.ofModule module source Settings.standard.snippetWidth with
    | .error diagnostic => .error (diagnostic.inFile name)
    | .ok sections =>
      .ok (if view.isJson then sections.toJson.pretty ++ "\n"
        else sectionListing palette source sections)
  else .ok (if view.isJson then module.toJson.pretty ++ "\n" else flatListing palette source module)

def runParse (files : Files) (palette : Palette) (name : String) (view : View) : Result :=
  let shown := do
    let (source, module) ← parseFile files name
    viewModule palette view name source module
  match shown with
  | .ok text => ⟨0, text, ""⟩
  | .error diagnostic => ⟨1, "", diagnostic.render palette⟩

/-- The row of a checked file, and the text of its diagnostic if it fails. -/
def checkFile (files : Files) (palette : Palette) (name : String) : String × Option String :=
  match parseFile files name with
  | .ok (_, module) =>
    (palette.paint .boldGreen "ok" ++ " " ++ name ++ " (" ++ toString module.items.length ++
      " items)\n", none)
  | .error diagnostic =>
    (palette.paint .boldRed "FAILED" ++ " " ++ name ++ "\n", some (diagnostic.render palette))

def runCheck (files : Files) (palette : Palette) (names : List String) : Result :=
  let checked := names.map (checkFile files palette)
  let failures := checked.filterMap Prod.snd
  { exitCode := if failures.isEmpty then 0 else 1
    output := String.join (checked.map Prod.fst) ++ "\n" ++ toString names.length ++ " checked, " ++
      toString failures.length ++ " failed\n"
    errors := String.join failures }

/-- Carries out a command line; `palette` is what the terminal asks for. -/
def run (files : Files) (palette : Palette) (arguments : List String) : Result :=
  match Invocation.ofArguments arguments with
  | .error .usage => ⟨2, "", usage⟩
  | .error .help => ⟨0, usage, ""⟩
  | .error .version => ⟨0, version, ""⟩
  | .ok invocation =>
    let palette := if invocation.isColorless then Palette.plain else palette
    match invocation.command with
    | .parse name view => runParse files palette name view
    | .check names => runCheck files palette names

end VisualBasic.CommandLine
