import VisualBasic.CommandLine.Run

/-!
# The program

Reads the files that the command line names and writes what the command comes to. Colours are off
unless the environment forces them.
-/

set_option autoImplicit false

open VisualBasic CommandLine

/-- Why an error of the system leaves a file unread. Opening a file fails with a negated code,
reading from it with the code itself. -/
def unreadable : IO.Error → Unreadable
  | .noFileOrDirectory _ _ _ => .missing
  | .permissionDenied _ _ _ => .denied
  | .inappropriateType _ code _ => if code = 21 then .directory else .notDirectory
  | .invalidArgument _ code details =>
    if code = -36 then .nameTooLong else .other details
  | error => .other (toString error)

/-- The bytes of a file, or why there are none. -/
def readBytes (name : String) : IO (Except Unreadable ByteArray) := do
  try
    return .ok (← IO.FS.readBinFile name)
  catch error =>
    return .error (unreadable error)

/-- The files that a command line may read. -/
def loadFiles : List String → IO Files
  | [] => return fun _ => .error .missing
  | name :: rest => do
    let bytes ← readBytes name
    let others ← loadFiles rest
    return fun other => if other = name then bytes else others other

def main (arguments : List String) : IO UInt32 := do
  let forced ← IO.getEnv "CLICOLOR_FORCE"
  let palette := if forced.any (· ≠ "0") then Palette.coloured else Palette.plain
  let files ← loadFiles arguments
  let result := run files palette arguments
  IO.print result.output
  IO.eprint result.errors
  return UInt32.ofNat result.exitCode
