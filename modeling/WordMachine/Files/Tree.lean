import WordMachine.Files.Error
import WordMachine.Files.Path

/-!
# File trees

A tree of files and directories in which the command line can work. A path has a
directory if it was made as one or if something lies below it; the root is always
a directory.

A path is walked name by name from the root, and the first name that stops the
walk decides the error: a name that is too long, a file that would have to be a
directory, or a directory that is not there.
-/

namespace WordMachine

/-- A tree of files. -/
structure FileTree where
  /-- The files with their contents. -/
  files : List (Path × List UInt8) := []
  /-- The directories that were made as such. -/
  directories : List Path := []

/-- What stands at a place of a tree. -/
inductive Place where
  /-- A file with its contents. -/
  | file (contents : List UInt8)
  /-- A directory. -/
  | directory
  /-- Nothing yet. -/
  | vacant
  deriving DecidableEq, Repr

namespace FileTree

/-- The length of the longest name, in bytes. -/
def longestName : Nat := 255

/-- The length of the longest path, in bytes. -/
def longestPath : Nat := 4095

/-- Whether a path leads to a directory. -/
def isDirectory (tree : FileTree) (path : Path) : Bool :=
  path.parts.isEmpty || tree.directories.contains path ||
    tree.directories.any (·.isBelow path) || tree.files.any (·.1.isBelow path)

/-- What stands at a path. -/
def place (tree : FileTree) (path : Path) : Place :=
  match tree.files.lookup path with
  | some contents => .file contents
  | none => if tree.isDirectory path then .directory else .vacant

/-- What some names lead to, one after the other, from a directory. -/
def walk (tree : FileTree) (here : Path) : List String → Except FileErrorCause Place
  | [] => .ok .directory
  | name :: rest =>
    if longestName < name.utf8ByteSize then .error .nameTooLong
    else
      match tree.place (here.enter name) with
      | .directory => tree.walk (here.enter name) rest
      | .file contents => if rest.isEmpty then .ok (.file contents) else .error .notADirectory
      | .vacant => if rest.isEmpty then .ok .vacant else .error .missing

/-- What a path leads to. The length of the whole path is checked before its names are. -/
def locate (tree : FileTree) (path : Path) : Except FileErrorCause Place :=
  if longestPath < path.text.utf8ByteSize then .error .nameTooLong
  else tree.walk {} path.parts

/-- The contents of a file. A directory can be opened but not read. -/
def read (tree : FileTree) (path : Path) : Except FileError (List UInt8) :=
  match tree.locate path with
  | .ok (.file contents) => .ok contents
  | .ok .directory => .error { cause := .isADirectory, action := .reading }
  | .ok .vacant => .error { cause := .missing, action := .opening path.text }
  | .error cause => .error { cause, action := .opening path.text }

/-- The tree with other contents of a file, which is made if its directory is there. -/
def write (tree : FileTree) (path : Path) (bytes : List UInt8) : Except FileError FileTree :=
  match tree.locate path with
  | .ok .directory => .error { cause := .isADirectory, action := .opening path.text }
  | .ok _ => .ok { tree with files := (path, bytes) :: tree.files.filter (·.1 != path) }
  | .error cause => .error { cause, action := .opening path.text }

end FileTree

end WordMachine
