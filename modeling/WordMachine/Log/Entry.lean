import WordMachine.Bytecode.Error
import WordMachine.Files.Error
import WordMachine.Log.Level
import WordMachine.Machine.Event

/-!
# Log entries

What is written to the log: the entries of a machine, undecodable programs and
failed commands. An entry has a level, a source, fields and a message.
-/

namespace WordMachine

/-- Why a command failed as a whole. -/
inductive CommandFailure where
  /-- A file could not be read or written. -/
  | file (error : FileError)
  /-- The machine gave no answer. -/
  | interrupt (cause : Interrupt)
  deriving DecidableEq, Repr

/-- The wording of a failed command. -/
def CommandFailure.message : CommandFailure → String
  | file error => error.message
  | interrupt cause => cause.message

/-- A plain value in a log entry. -/
inductive LogScalar where
  | number (value : Int)
  | text (value : String)
  deriving DecidableEq, Repr

/-- The value of a field of a log entry. -/
inductive LogValue where
  | plain (value : LogScalar)
  | record (fields : List (String × LogScalar))
  deriving DecidableEq, Repr

/-- A number as the value of a field. -/
def LogValue.number (value : Int) : LogValue :=
  .plain (.number value)

/-- A text as the value of a field. -/
def LogValue.text (value : String) : LogValue :=
  .plain (.text value)

/-- An entry in the log. -/
inductive LogEntry where
  /-- An entry of a machine. -/
  | machine (entry : RunLog)
  /-- The bytes given are no program. -/
  | decodeFailed (error : DecodeError)
  /-- The command failed as a whole. -/
  | commandFailed (failure : CommandFailure)

/-- The fields of an entry of a machine. -/
def RunLog.fields : RunLog → List (String × LogValue)
  | started instructions => [("instructions", .number instructions)]
  | faulted pc fault => [("pc", .text (toString pc)), ("kind", .text fault.kind.label)]
  | finished outcome steps => [("outcome", .text outcome.label), ("steps", .number steps)]

/-- The message of an entry of a machine. -/
def RunLog.message : RunLog → String
  | started _ => "run started"
  | faulted _ fault => fault.message
  | finished _ _ => "run finished"

/-- The fields that describe a failed command. -/
def CommandFailure.fields : CommandFailure → List (String × LogScalar)
  | file error =>
    [("type", .text "Error"), ("message", .text error.message),
      ("errno", .number error.cause.number), ("code", .text error.cause.code),
      ("syscall", .text error.action.name)] ++
      (match error.path? with
      | none => []
      | some path => [("path", .text path)])
  | interrupt cause => [("type", .text "Error"), ("message", .text cause.message)]

namespace LogEntry

/-- The name under which all entries are written. -/
def logName : String := "stackvm"

/-- The level of an entry. -/
def level : LogEntry → LogLevel
  | machine _ | decodeFailed _ => .debug
  | commandFailed _ => .error

/-- The part of the program that writes an entry. -/
def source? : LogEntry → Option String
  | machine _ => some "machine"
  | decodeFailed _ => some "cli"
  | commandFailed _ => none

/-- The fields of an entry. -/
def fields : LogEntry → List (String × LogValue)
  | machine entry => entry.fields
  | decodeFailed error => [("kind", .text error.kind.label), ("offset", .number error.offset)]
  | commandFailed failure => [("err", .record failure.fields)]

/-- The message of an entry. -/
def message : LogEntry → String
  | machine entry => entry.message
  | decodeFailed _ => "decode failed"
  | commandFailed _ => "command failed"

/-- All that is written of an entry. -/
def record (entry : LogEntry) : List (String × LogValue) :=
  let source := match entry.source? with
    | none => []
    | some source => [("module", LogValue.text source)]
  [("level", .number ((entry.level.weight?).getD 0)), ("name", .text logName)] ++ source ++
    entry.fields ++ [("msg", .text entry.message)]

end LogEntry

end WordMachine
