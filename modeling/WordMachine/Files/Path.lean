import WordMachine.Text

/-!
# Paths

A path is made absolute against a working directory and normalised: empty parts
and single dots are dropped, and two dots lead to the directory above. The root
lies above itself.
-/

namespace WordMachine

/-- An absolute path in normal form. -/
structure Path where
  /-- The names on the way from the root. -/
  parts : List String := []
  deriving DecidableEq, Repr

namespace Path

/-- The text of a path. -/
def text (path : Path) : String :=
  "/" ++ "/".intercalate path.parts

/-- The directory that holds a path; the root holds itself. -/
def parent (path : Path) : Path :=
  { parts := path.parts.dropLast }

/-- The path of what has a given name in the directory at a path. -/
def enter (path : Path) (name : String) : Path :=
  { parts := path.parts ++ [name] }

/-- The path one step further on. -/
def follow (path : Path) (step : String) : Path :=
  if step = "" ∨ step = "." then path
  else if step = ".." then path.parent
  else path.enter step

/-- The path that a text denotes, seen from a working directory. -/
def resolve (working : Path) (text : String) : Path :=
  let start := if text.toList.head? = some '/' then {} else working
  ((Text.split (· = '/') text.toList).map String.ofList).foldl follow start

/-- Whether a path lies strictly below another. -/
def isBelow (path above : Path) : Bool :=
  above.parts.isPrefixOf path.parts && path != above

end Path

end WordMachine
