/-
  Reckoner.Folder — the files a command can be told to read.

  A path goes from the working folder, or from the root if it begins with a slash, name by
  name. A file has contents; a folder can be opened too, but reading it fails. Of what lies
  outside the working folder only the folders on the way up from it are known, and what POSIX
  puts below the root. Paths and names have a greatest length: that of a path is looked at
  first, that of a name when the folder is reached in which it is looked up.
-/

import Reckoner.Source

namespace Reckoner

/-- What a request to open a path is answered with. -/
inductive Opening where
  | source (pieces : List Piece)
  | refused (reason : String)
  deriving DecidableEq

/-- The files below a folder, each under the names that lead to it, and the folders below it
    that may be without files. -/
structure Folder where
  files : List (List String × List Piece)
  folders : List (List String) := []
  isRoot : Bool := false

namespace Folder

def names (path : String) : List String := path.splitOn "/"

def ofFiles (files : List (String × List Piece)) : Folder :=
  { files := files.map fun (path, pieces) => (names path, pieces) }

/-- What there is on every system: the null device, which is empty, and a folder for
    temporary files. -/
def root : Folder := { files := [(["dev", "null"], [])], folders := [["tmp"]], isRoot := true }

def contents? (f : Folder) (path : List String) : Option (List Piece) := (f.files.find? (·.1 == path)).map (·.2)

def isFolder (f : Folder) (path : List String) : Bool :=
  f.files.any (fun file => path.isPrefixOf file.1) || f.folders.contains path

def missing : Opening := .refused "No such file or directory (os error 2)"

def notAFolder : Opening := .refused "Not a directory (os error 20)"

def tooLong : Opening := .refused "File name too long (os error 36)"

def aFolder : Opening := .source [.failure "Is a directory (os error 21)"]

/-- The greatest number of bytes of a path. -/
def maxPath : Nat := 4095

/-- The greatest number of bytes of a name. -/
def maxName : Nat := 255

/-- Follows names from a folder on the way up from the working folder. -/
def outside : List String → Opening
  | [] => aFolder
  | name :: rest =>
    if name = "" ∨ name = "." ∨ name = ".." then outside rest
    else if maxName < name.utf8ByteSize then tooLong
    else missing

/-- Follows names from `here`, which is below the folder. The way up from the root ends there. -/
def follow (f : Folder) (here : List String) : List String → Opening
  | [] => aFolder
  | name :: rest =>
    if name = "" ∨ name = "." then f.follow here rest
    else if name = ".." then
      if here = [] ∧ f.isRoot = false then outside rest else f.follow here.dropLast rest
    else if maxName < name.utf8ByteSize then tooLong
    else
      let path := here ++ [name]
      match f.contents? path with
      | some pieces => if rest = [] then .source pieces else notAFolder
      | none => if f.isFolder path then f.follow path rest else missing

def openPath (f : Folder) (path : String) : Opening :=
  if maxPath < path.utf8ByteSize then tooLong
  else if path.startsWith "/" then root.follow [] (names path)
  else f.follow [] (names path)

end Folder

end Reckoner
