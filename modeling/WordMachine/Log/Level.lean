/-!
# Log levels

A log has a level, and entries below it are not written. The silent level
writes nothing. A text asks for a level by its name; some names are reserved, and
a log that is asked for by one of them has no level and writes nothing.
-/

namespace WordMachine

/-- The levels of a log. -/
inductive LogLevel where
  | trace
  | debug
  | info
  | warn
  | error
  | fatal
  | silent
  deriving DecidableEq, Repr

namespace LogLevel

/-- The levels, from the most to the least talkative. -/
def all : List LogLevel :=
  [trace, debug, info, warn, error, fatal, silent]

/-- The levels that an entry can have. -/
def ofEntries : List LogLevel :=
  [trace, debug, info, warn, error, fatal]

/-- The name of a level. -/
def name : LogLevel → String
  | trace => "trace"
  | debug => "debug"
  | info => "info"
  | warn => "warn"
  | error => "error"
  | fatal => "fatal"
  | silent => "silent"

/-- The weight of a level; the silent level has none. -/
def weight? : LogLevel → Option Nat
  | trace => some 10
  | debug => some 20
  | info => some 30
  | warn => some 40
  | error => some 50
  | fatal => some 60
  | silent => none

/-- Whether a log of one level writes the entries of another. -/
def admits (level entry : LogLevel) : Bool :=
  match level.weight?, entry.weight? with
  | some least, some weight => least ≤ weight
  | _, _ => false

/-- The levels of the entries that a log writes. -/
def enabled (level : LogLevel) : List LogLevel :=
  ofEntries.filter level.admits

/-- The level with exactly this name. -/
def ofName? (text : String) : Option LogLevel :=
  all.find? fun level => level.name = text

end LogLevel

/-- What a text can ask of a log (`createLogger`). -/
inductive LogRequest where
  /-- A level. -/
  | level (asked : LogLevel)
  /-- No level: nothing is written. -/
  | mute
  deriving DecidableEq, Repr

namespace LogRequest

/-- The reserved names. They are known to every table of names, so that no level can have
one of them, and asking for one is no mistake. -/
def reservedNames : List String :=
  ["constructor", "hasOwnProperty", "isPrototypeOf", "propertyIsEnumerable", "toLocaleString",
    "toString", "valueOf", "__defineGetter__", "__defineSetter__", "__lookupGetter__",
    "__lookupSetter__", "__proto__"]

/-- The request with exactly this name. -/
def ofName? (text : String) : Option LogRequest :=
  if reservedNames.contains text then some mute else (LogLevel.ofName? text).map level

/-- The names that may also be written with capital letters: those of the levels of entries
and the reserved ones, but not that of the silent level. -/
def flexibleNames : List String :=
  LogLevel.ofEntries.map LogLevel.name ++ reservedNames

/-- The request that a text makes. It is read in small letters if that gives a flexible name,
and as it stands otherwise. Small letters matter only from A to Z, since no other capital
gives a letter of a flexible name without capitals. -/
def ofText? (text : String) : Option LogRequest :=
  ofName? (if flexibleNames.contains text.toLower then text.toLower else text)

/-- The level that a log has after a request. -/
def level? : LogRequest → Option LogLevel
  | level asked => some asked
  | mute => none

/-- The levels of the entries that a log writes after a request. -/
def enabled : LogRequest → List LogLevel
  | level asked => asked.enabled
  | mute => []

/-- The wording of the refusal of a text that makes no request. -/
def refusal (text : String) : String :=
  "default level:" ++ text ++ " must be included in custom levels"

end LogRequest

end WordMachine
