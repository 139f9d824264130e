/-!
# Command-line arguments

A command line names a command with its flags and files. Flags may stand anywhere after the command,
the common ones also before it; after two dashes every argument is a file. Each flag may be given
once on either side of the command. The first flag that asks for help or for the version ends the
reading.
-/

set_option autoImplicit false

namespace VisualBasic.CommandLine

inductive Flag where
  | verbose
  | noColor
  | grouped
  | json
  | stats
  | help
  | version
  deriving DecidableEq, Repr

/-- The flags that every command has. -/
def commonFlags : List Flag := [.verbose, .noColor, .help]

/-- The flags that may stand before the command. -/
def leadingFlags : List Flag := .version :: commonFlags

def Flag.ofLong : String → Option Flag
  | "--verbose" => some .verbose
  | "--no-color" => some .noColor
  | "--grouped" => some .grouped
  | "--json" => some .json
  | "--stats" => some .stats
  | "--help" => some .help
  | "--version" => some .version
  | _ => none

def Flag.ofShort (c : Char) : Option Flag :=
  if c = 'v' then some .verbose
  else if c = 'h' then some .help
  else if c = 'V' then some .version
  else none

/-- An argument by its first characters. -/
inductive Argument where
  | file (name : String)
  | flags (flags : List (Option Flag))
  /-- Ends the flags. -/
  | separator

def Argument.ofString (text : String) : Argument :=
  match text.toList with
  | ['-', '-'] => .separator
  | '-' :: '-' :: _ => .flags [Flag.ofLong text]
  | '-' :: c :: rest => .flags ((c :: rest).map Flag.ofShort)
  | _ => .file text

/-- Why a command line is not carried out. -/
inductive Refusal where
  | usage
  | help
  | version
  deriving DecidableEq, Repr

/-- Adds flags to those given before. -/
def addFlags (allowed : List Flag) : List (Option Flag) → List Flag → Except Refusal (List Flag)
  | [], given => .ok given
  | none :: _, _ => .error .usage
  | some flag :: rest, given =>
    if ! allowed.contains flag then .error .usage
    else if flag = .help then .error .help
    else if flag = .version then .error .version
    else if given.contains flag then .error .usage
    else addFlags allowed rest (flag :: given)

/-- Flags and files of a command that takes at most `room` files. -/
def readCommand (allowed : List Flag) (room : Option Nat) :
    Bool → List String → List Flag → List String → Except Refusal (List Flag × List String)
  | _, [], flags, files => .ok (flags, files.reverse)
  | onlyFiles, text :: rest, flags, files =>
    let addFile : Except Refusal (List Flag × List String) :=
      if text.isEmpty || room.any (· ≤ files.length) then .error .usage
      else readCommand allowed room onlyFiles rest flags (text :: files)
    if onlyFiles then addFile
    else
      match Argument.ofString text with
      | .separator => readCommand allowed room true rest flags files
      | .file _ => addFile
      | .flags found =>
        match addFlags allowed found flags with
        | .ok flags => readCommand allowed room false rest flags files
        | .error refusal => .error refusal

/-- How the module of a file is shown. -/
structure View where
  isGrouped : Bool
  isJson : Bool
  isStatistics : Bool
  deriving DecidableEq, Repr

inductive Command where
  | parse (file : String) (view : View)
  | check (files : List String)
  deriving DecidableEq, Repr

structure Invocation where
  command : Command
  isVerbose : Bool
  isColorless : Bool
  deriving DecidableEq, Repr

/-- Help is there for the whole and for each command by its name. -/
def Refusal.ofTopics (topics : List String) : Refusal :=
  if topics.isEmpty || [["parse"], ["check"], ["help"]].contains topics then .help else .usage

def Command.ofArguments (name : String) (arguments : List String) :
    Except Refusal (Command × List Flag) :=
  if name = "parse" then
    match readCommand (commonFlags ++ [.grouped, .json, .stats]) (some 1) false arguments [] [] with
    | .ok (flags, [file]) =>
      .ok
        (.parse file ⟨flags.contains .grouped, flags.contains .json, flags.contains .stats⟩, flags)
    | .ok _ => .error .usage
    | .error refusal => .error refusal
  else if name = "check" then
    match readCommand commonFlags none false arguments [] [] with
    | .ok (_, []) => .error .usage
    | .ok (flags, files) => .ok (.check files, flags)
    | .error refusal => .error refusal
  else if name = "help" then .error (.ofTopics arguments)
  else .error .usage

/-- Reads the flags before the command, then the command. -/
def Invocation.read : List String → List Flag → Except Refusal Invocation
  | [], _ => .error .usage
  | text :: rest, before =>
    match Argument.ofString text with
    | .separator => .error .usage
    | .flags found =>
      match addFlags leadingFlags found before with
      | .ok flags => Invocation.read rest flags
      | .error refusal => .error refusal
    | .file name =>
      (Command.ofArguments name rest).map fun (command, after) =>
        let flags := before ++ after
        ⟨command, flags.contains .verbose, flags.contains .noColor⟩

def Invocation.ofArguments (arguments : List String) : Except Refusal Invocation :=
  Invocation.read arguments []

end VisualBasic.CommandLine
