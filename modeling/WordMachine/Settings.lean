import WordMachine.Log.Level

/-!
# Settings

The level of the log is read from the environment. A missing setting has a
default, and a setting that is there must be the name of a level.
-/

namespace WordMachine

/-- A value in the environment, as far as the settings look at it. -/
inductive Setting where
  | null
  | boolean
  | number
  | text (value : String)
  | array
  | object
  deriving DecidableEq, Repr

/-- The kind of a value in messages. -/
def Setting.kind : Setting → String
  | null => "null"
  | boolean => "boolean"
  | number => "number"
  | text _ => "string"
  | array => "array"
  | object => "object"

/-- Where settings are read from: normally a table, but anything may be given. -/
inductive Environment where
  /-- A table of named values. -/
  | table (entries : List (String × Setting))
  /-- A value that is no table. -/
  | other (value : Setting)
  deriving Repr

/-- Why settings cannot be read. -/
inductive SettingError where
  /-- The environment is no table. -/
  | notATable (value : Setting)
  /-- The setting is no text. -/
  | notAText (name : String) (value : Setting)
  /-- The text is not the name of a level. -/
  | notALevel (name : String) (text : String)
  deriving DecidableEq, Repr

namespace SettingError

/-- The names of the levels as alternatives. -/
def alternatives : String :=
  " | ".intercalate (LogLevel.all.map fun level => "'" ++ level.name ++ "'")

/-- The label of an error in reports. -/
def label : SettingError → String
  | notATable _ | notAText _ _ => "invalid_type"
  | notALevel _ _ => "invalid_enum_value"

/-- The setting to blame; none if it is the environment as a whole. -/
def name? : SettingError → Option String
  | notATable _ => none
  | notAText name _ | notALevel name _ => some name

/-- The wording of an error. -/
def message : SettingError → String
  | notATable value => "Expected object, received " ++ value.kind
  | notAText _ value => "Expected " ++ alternatives ++ ", received " ++ value.kind
  | notALevel _ text =>
    "Invalid enum value. Expected " ++ alternatives ++ ", received '" ++ text ++ "'"

end SettingError

/-- The settings of the program. -/
structure Settings where
  /-- The level of the log. -/
  logLevel : LogLevel := .info
  deriving DecidableEq, Repr

namespace Settings

/-- The name of the setting for the level of the log. -/
def logLevelName : String := "STACKVM_LOG_LEVEL"

/-- Reads the settings from the environment (`loadConfig`). -/
def read : Environment → Except SettingError Settings
  | .other value => .error (.notATable value)
  | .table entries =>
    match entries.lookup logLevelName with
    | none => .ok {}
    | some (.text text) =>
      match LogLevel.ofName? text with
      | none => .error (.notALevel logLevelName text)
      | some logLevel => .ok { logLevel }
    | some value => .error (.notAText logLevelName value)

end Settings

end WordMachine
