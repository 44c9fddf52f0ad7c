import WordMachine.Log.Entry

/-!
# Reports of commands

A command reports its output, its trace and its errors as lines of text, gives
an exit code and writes to the log.
-/

namespace WordMachine.Command

/-- What a command has to say (`CommandIO`), with its exit code and its log. -/
structure Report where
  /-- The exit code. -/
  code : Nat := 0
  /-- The lines of output. -/
  out : List String := []
  /-- The lines of the trace. -/
  traced : List String := []
  /-- The lines for the errors. -/
  errors : List String := []
  /-- The entries for the log. -/
  logs : List LogEntry := []

/-- Where lines of output go. -/
inductive Emission where
  /-- There are no lines. -/
  | nothing
  /-- The text goes to the console. -/
  | console (text : String)
  /-- The text goes into a file. -/
  | file (path : String) (text : String)
  deriving DecidableEq, Repr

/-- Decides where lines go (`emitOutput`): into the file that is named, and to the console if no
file or the empty name is given. Each line is ended; no lines give no text. -/
def emit (lines : List String) (output : Option String) : Emission :=
  match lines with
  | [] => .nothing
  | lines =>
    let text := "\n".intercalate lines ++ "\n"
    match output with
    | none | some "" => .console text
    | some path => .file path text

end WordMachine.Command
