import WordMachine.CommandLine.Session
import WordMachine.Settings
import WordMachine.Text

/-!
# The program

The command line on the files of the system. What is to be done is decided by
`CommandLine.intent` and `Request.perform`; here files are read and written, and
texts are printed.
-/

namespace WordMachine.CommandLine

/-- A value of a log entry as JSON. -/
def scalarJson : LogScalar → String
  | .number value => toString value
  | .text value => Text.quotedText value

/-- Named values as a JSON object. -/
def recordJson (fields : List (String × String)) : String :=
  "\x7b" ++
    ",".intercalate (fields.map fun (name, value) => Text.quotedText name ++ ":" ++ value) ++ "\x7d"

/-- A log entry as JSON. -/
def entryJson (entry : LogEntry) : String :=
  recordJson <| entry.record.map fun
    | (name, .plain value) => (name, scalarJson value)
    | (name, .record fields) =>
      (name, recordJson (fields.map fun (name, value) => (name, scalarJson value)))

/-- The reason that a number of the system stands for; some calls report it negated. -/
def causeOfNumber (number : UInt32) (details : String) : FileErrorCause :=
  match (min number (0 - number)).toNat with
  | 20 => .notADirectory
  | 21 => .isADirectory
  | 36 => .nameTooLong
  | number => .other number details

/-- The reason of a failed access to a file. -/
def causeOf : IO.Error → FileErrorCause
  | .noFileOrDirectory .. => .missing
  | .permissionDenied .. => .denied
  | .inappropriateType _ number details | .invalidArgument _ number details
  | .resourceExhausted _ number details | .otherError number details =>
    causeOfNumber number details
  | error => .other 0 (toString error)

/-- Reads a file. A directory can be opened but not read. -/
def readBytes (path : Path) : IO (Except FileError (List UInt8)) := do
  try
    return .ok (← IO.FS.readBinFile path.text).toList
  catch error =>
    match causeOf error with
    | .isADirectory => return .error { cause := .isADirectory, action := .reading }
    | cause => return .error { cause, action := .opening path.text }

/-- Writes the output file of what was done, which fails the command if it cannot be
written. -/
def storeBytes (working : Path) (done : Performance) : IO Performance := do
  match done.output with
  | none => return done
  | some (name, bytes) =>
    let path := working.resolve name
    try
      IO.FS.writeBinFile path.text ⟨bytes.toArray⟩
      return done
    catch error =>
      return done.failed (.file { cause := causeOf error, action := .opening path.text })

/-- Repeats an attempt with more and more fuel until there is an answer. -/
partial def untilAnswered {α : Type} [Inhabited α] (attempt : Nat → Option α) (fuel : Nat) : α :=
  match attempt fuel with
  | some a => a
  | none => untilAnswered attempt (8 * fuel)

instance : Inhabited Performance := ⟨{}⟩

/-- Carries out a request on the files of the system. -/
def carryOutHere (request : Request) : IO Performance := do
  let working := Path.resolve {} (toString (← IO.currentDir))
  match ← readBytes (working.resolve request.input) with
  | .error error => return Performance.failed {} (.file error)
  | .ok bytes => storeBytes working (untilAnswered (request.perform · bytes) 100000)

/-- Prints what was done and gives the exit code. -/
def print (level : LogLevel) (done : Performance) : IO UInt32 := do
  for entry in done.logs do
    if level.admits entry.level then
      IO.eprintln (entryJson entry)
  IO.print done.stdout
  IO.eprint done.stderr
  return done.code.toUInt32

end WordMachine.CommandLine

open WordMachine CommandLine in
/-- Runs the command line. -/
def main (arguments : List String) : IO UInt32 := do
  let setting := (← IO.getEnv Settings.logLevelName).map Setting.text
  match Settings.read (.table (setting.map (Settings.logLevelName, ·)).toList) with
  | .error error =>
    IO.eprintln error.message
    return 1
  | .ok settings =>
    let done ← match intent arguments with
      | .perform request => carryOutHere request
      | .help => pure { stdout := Performance.lines usage }
      | .nothing => pure { code := 1, stderr := Performance.lines usage }
      | .misuse error => pure error.performance
    print settings.logLevel done
