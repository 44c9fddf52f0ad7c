/-!
# File errors

Why a file could not be read or written.
-/

namespace WordMachine

/-- The reasons why a file is not accessible. -/
inductive FileErrorCause where
  /-- There is no such file, or no directory to hold it. -/
  | missing
  /-- A part of the path that should be a directory is a file. -/
  | notADirectory
  /-- The path leads to a directory. -/
  | isADirectory
  /-- The permissions do not allow it. -/
  | denied
  /-- The path, or a name in it, is longer than the system takes. -/
  | nameTooLong
  /-- Anything else that the system reports. -/
  | other (number : Nat) (details : String)
  deriving DecidableEq, Repr

namespace FileErrorCause

/-- The symbolic code of a cause. -/
def code : FileErrorCause → String
  | missing => "ENOENT"
  | notADirectory => "ENOTDIR"
  | isADirectory => "EISDIR"
  | denied => "EACCES"
  | nameTooLong => "ENAMETOOLONG"
  | other _ _ => "UNKNOWN"

/-- The number of a cause. -/
def number : FileErrorCause → Int
  | missing => -2
  | notADirectory => -20
  | isADirectory => -21
  | denied => -13
  | nameTooLong => -36
  | other number _ => -number

/-- The wording of a cause. -/
def text : FileErrorCause → String
  | missing => "no such file or directory"
  | notADirectory => "not a directory"
  | isADirectory => "illegal operation on a directory"
  | denied => "permission denied"
  | nameTooLong => "name too long"
  | other _ details => details

end FileErrorCause

/-- What was being done to a file. -/
inductive FileAction where
  /-- The file at a path was being opened. -/
  | opening (path : String)
  /-- An open file was being read. -/
  | reading
  deriving DecidableEq, Repr

/-- The name of an action. -/
def FileAction.name : FileAction → String
  | opening _ => "open"
  | reading => "read"

/-- Why an action on a file failed. -/
structure FileError where
  /-- The reason. -/
  cause : FileErrorCause
  /-- What was being done. -/
  action : FileAction
  deriving DecidableEq, Repr

namespace FileError

/-- The path that was being opened. -/
def path? (error : FileError) : Option String :=
  match error.action with
  | .opening path => some path
  | .reading => none

/-- The wording of a file error. -/
def message (error : FileError) : String :=
  let path := match error.path? with
    | none => ""
    | some path => " '" ++ path ++ "'"
  error.cause.code ++ ": " ++ error.cause.text ++ ", " ++ error.action.name ++ path

end FileError

end WordMachine
