import WordMachine.CommandLine.Request

/-!
# Arguments

How arguments name a request, for the outer layer of the program only. The first argument
names a command, and the command's own arguments and options follow. Options may stand
anywhere after the command's name, short ones may be joined, and two hyphens end the
options. Of several mistakes an unknown option is reported before a missing argument.
-/

namespace WordMachine.CommandLine

/-- What can be wrong with arguments. -/
inductive UsageError where
  | missingArgument (name : String)
  | unknownOption (option : String)
  | unknownCommand (name : String)
  deriving DecidableEq, Repr

/-- The wording of a usage error. -/
def UsageError.message : UsageError → String
  | missingArgument name => "error: missing required argument '" ++ name ++ "'"
  | unknownOption option => "error: unknown option '" ++ option ++ "'"
  | unknownCommand name => "error: unknown command '" ++ name ++ "'"

/-- What arguments ask for. -/
inductive Intent where
  /-- Something is to be done. -/
  | perform (request : Request)
  /-- Help is asked for. -/
  | help
  /-- There is no command. -/
  | nothing
  /-- The arguments cannot be understood. -/
  | misuse (error : UsageError)
  deriving DecidableEq, Repr

/-- The options of commands. -/
inductive Flag where
  | trace
  | json
  deriving DecidableEq, Repr

/-- The commands. -/
inductive CommandName where
  | run
  | list
  | assemble
  deriving DecidableEq, Repr

namespace CommandName

/-- The command of a name. -/
def ofName? : String → Option CommandName
  | "run" => some run
  | "disasm" => some list
  | "asm" => some assemble
  | _ => none

/-- The option of a command that an argument spells out. -/
def flag? : CommandName → String → Option Flag
  | run, "-t" | run, "--trace" => some .trace
  | run, "--json" => some .json
  | _, _ => none

/-- What a command is to do with its arguments; those in excess are ignored. -/
def request (flags : List Flag) : CommandName → List String → Except UsageError Request
  | run, path :: rest =>
    .ok (.run path rest.head? { trace := flags.contains .trace, json := flags.contains .json })
  | list, path :: _ => .ok (.list path)
  | assemble, source :: output :: _ => .ok (.assemble source output)
  | run, [] | list, [] => .error (.missingArgument "path")
  | assemble, [] => .error (.missingArgument "source")
  | assemble, [_] => .error (.missingArgument "output")

end CommandName

/-- Whether an argument looks like an option. A single hyphen does not. -/
def isOption (argument : String) : Bool :=
  match argument.toList with
  | '-' :: _ :: _ => true
  | _ => false

/-- Whether an argument asks for help. -/
def isHelp (argument : String) : Bool :=
  argument == "-h" || argument == "--help"

/-- Takes the known short options off the front of a group of letters, which is what follows
a hyphen; the last letter stays. -/
def peel (command : CommandName) : List Char → List Flag × List Char
  | c :: d :: rest =>
    match command.flag? (String.ofList ['-', c]) with
    | some flag =>
      let (flags, group) := peel command (d :: rest)
      (flag :: flags, group)
    | none => ([], c :: d :: rest)
  | group => ([], group)

/-- The arguments of a command, sorted. -/
structure Sorted where
  /-- The arguments proper. -/
  operands : List String := []
  /-- The first unknown option and the arguments after it. -/
  unknown : List String := []
  /-- The options. -/
  flags : List Flag := []

/-- Sorts the arguments of a command. Once an unknown option has been `seen`, the arguments
proper are no longer told from what belongs to it. -/
def sort (command : CommandName) (seen : Bool) : List String → Sorted
  | [] => {}
  | argument :: rest =>
    if isOption argument then
      let (flags, group) := peel command (argument.toList.drop 1)
      let option := String.ofList ('-' :: group)
      if option = "--" then
        if seen then { flags, unknown := "--" :: rest } else { flags, operands := rest }
      else
        match command.flag? option with
        | some flag =>
          let sorted := sort command seen rest
          { sorted with flags := flags ++ flag :: sorted.flags }
        | none =>
          let sorted := sort command true rest
          { sorted with unknown := option :: sorted.unknown, flags := flags ++ sorted.flags }
    else
      let sorted := sort command seen rest
      if seen then { sorted with unknown := argument :: sorted.unknown }
      else { sorted with operands := argument :: sorted.operands }

/-- The arguments before the first option, and the rest. If two hyphens come first, all
arguments are on the left. -/
def beforeOptions (arguments : List String) : List String × List String :=
  let front := arguments.takeWhile fun argument => !isOption argument
  match arguments.dropWhile fun argument => !isOption argument with
  | "--" :: rest => (front ++ rest, [])
  | rest => (front, rest)

/-- What the arguments after a command's name ask for. -/
def intentOf (command : CommandName) (front rest : List String) : Intent :=
  let sorted := sort command false rest
  if sorted.unknown.any isHelp then .help
  else
    match sorted.unknown with
    | option :: _ => .misuse (.unknownOption option)
    | [] =>
      match command.request sorted.flags (front ++ sorted.operands) with
      | .ok request => .perform request
      | .error error => .misuse error

/-- What arguments ask for. -/
def intent (arguments : List String) : Intent :=
  match beforeOptions arguments with
  | ([], []) => .nothing
  | ([], option :: rest) =>
    if (option :: rest).any isHelp then .help else .misuse (.unknownOption option)
  | (name :: front, rest) =>
    match CommandName.ofName? name with
    | some command => intentOf command front rest
    | none =>
      if name = "help" || rest.any isHelp then .help else .misuse (.unknownCommand name)

end WordMachine.CommandLine
