/-!
# Files and the paths that lead to them

A file tree is a finite set of files. Its directories are those on the way to a file or to the
working directory. A path is followed from left to right, one name at a time, and the first name
that leads nowhere decides why the file cannot be read.
-/

namespace TypeRecovery

namespace CommandLine

/-- Why a file cannot be read. -/
inductive ReadError where
  /-- A name leads nowhere. -/
  | missing
  /-- The path goes on behind a file. -/
  | notDirectory
  /-- The path ends at a directory. -/
  | isDirectory
  /-- The path or one of its names exceeds its limit. -/
  | nameTooLong
  /-- The contents are no text. -/
  | notText
  /-- Any other reason. -/
  | other (reason : String)
  deriving DecidableEq, Repr

/-- The words for a reason. -/
def ReadError.message : ReadError → String
  | missing => "No such file or directory (os error 2)"
  | notDirectory => "Not a directory (os error 20)"
  | isDirectory => "Is a directory (os error 21)"
  | nameTooLong => "File name too long (os error 36)"
  | notText => "stream did not contain valid UTF-8"
  | other reason => reason

/-- The contents of the file at a path, or the reason why it cannot be read. -/
abbrev Files := String → Except ReadError String

/-- The names that lead from the root to a place. -/
abbrev Place := List String

/-- Some files and the place where paths start. -/
structure FileTree where
  /-- The place of each file with its contents. -/
  files : List (Place × String)
  /-- The working directory. -/
  working : Place
  deriving DecidableEq, Repr

namespace FileTree

/-- The largest number of bytes of a name. -/
def nameLimit : Nat := 255

/-- The largest number of bytes of a path. -/
def pathLimit : Nat := 4095

/-- Whether a place is a directory. -/
def isDirectory (t : FileTree) (place : Place) : Bool :=
  (t.working :: t.files.map (·.1.dropLast)).any place.isPrefixOf

/-- The place that a name leads to from another place. An empty name and a single dot stay, and two
dots lead towards the root. -/
def step (t : FileTree) (place : Place) (name : String) : Except ReadError Place :=
  if !t.isDirectory place then .error .notDirectory
  else if name = "" ∨ name = "." then .ok place
  else if name = ".." then .ok place.dropLast
  else if nameLimit < name.utf8ByteSize then .error .nameTooLong
  else
    let next := place ++ [name]
    if (t.files.lookup next).isSome || t.isDirectory next then .ok next else .error .missing

/-- The place that a path leads to, from the root if the path starts with a slash. -/
def resolve (t : FileTree) (path : String) : Except ReadError Place :=
  if path = "" then .error .missing
  else if pathLimit < path.utf8ByteSize then .error .nameTooLong
  else (path.splitOn "/").foldlM t.step (if path.startsWith "/" then [] else t.working)

/-- The contents of the file at a path. -/
def read (t : FileTree) : Files := fun path => do
  let place ← t.resolve path
  (t.files.lookup place).elim (.error .isDirectory) .ok

end FileTree

end CommandLine

end TypeRecovery
