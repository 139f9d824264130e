import VisualBasic.Diagnostic.Basic

/-!
# Files

What the command line sees of the file system: for each path, the bytes of a file or the reason why
there are none. A source is read as UTF-8 text. `FileTree.files` follows a path name by name through
a tree of files: every name but the last must lead to a directory, and an empty one or a dot stays
where it is, which must be a directory too.
-/

set_option autoImplicit false

namespace VisualBasic.CommandLine

inductive Unreadable where
  | missing
  | denied
  | notDirectory
  | directory
  | nameTooLong
  | notText
  | other (reason : String)
  deriving DecidableEq, Repr

def Unreadable.text : Unreadable → String
  | .missing => "No such file or directory (os error 2)"
  | .denied => "Permission denied (os error 13)"
  | .notDirectory => "Not a directory (os error 20)"
  | .directory => "Is a directory (os error 21)"
  | .nameTooLong => "File name too long (os error 36)"
  | .notText => "stream did not contain valid UTF-8"
  | .other reason => reason

/-- The contents under each path. -/
abbrev Files : Type := String → Except Unreadable ByteArray

def Files.read (files : Files) (path : String) : Except Diagnostic String :=
  match files path with
  | .error reason => .error (Diagnostic.ofUnreadable path reason.text)
  | .ok bytes =>
    match String.fromUTF8? bytes with
    | some text => .ok text
    | none => .error (Diagnostic.ofUnreadable path Unreadable.notText.text)

/-- The most bytes that a name may have. -/
def longestName : Nat := 255

/-- The most bytes that a path may have. -/
def longestPath : Nat := 4095

/-- Files, which have bytes, and directories, by the names that lead to them from the root. The
directories on the way to an entry need no entries of their own. -/
abbrev FileTree : Type := List (List String × Option ByteArray)

namespace FileTree

def bytesAt (tree : FileTree) (place : List String) : Option ByteArray :=
  (tree.find? fun entry => entry.1 = place).bind Prod.snd

/-- Follows one name from a place. -/
def follow (tree : FileTree) (place : List String) (name : String) :
    Except Unreadable (List String) :=
  if (tree.bytesAt place).isSome then .error .notDirectory
  else if name = "" || name = "." then .ok place
  else if name = ".." then .ok place.dropLast
  else if longestName < name.utf8ByteSize then .error .nameTooLong
  else if tree.any fun entry => (place ++ [name]).isPrefixOf entry.1 then .ok (place ++ [name])
  else .error .missing

/-- The files of a tree as paths name them in a directory of it. -/
def files (tree : FileTree) (here : List String) : Files := fun path =>
  if path.isEmpty then .error .missing
  else if longestPath < path.utf8ByteSize then .error .nameTooLong
  else
    match (path.splitOn "/").foldlM tree.follow (if path.startsWith "/" then [] else here) with
    | .error reason => .error reason
    | .ok place =>
      match tree.bytesAt place with
      | some bytes => .ok bytes
      | none => .error .directory

end FileTree

end VisualBasic.CommandLine
