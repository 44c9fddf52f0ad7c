import WordMachine.CommandLine.Arguments

/-!
# Sessions

The outer layer of the program in a tree of files: from arguments to an exit code, the
console output, the log and the tree afterwards.
-/

namespace WordMachine.CommandLine

/-- The lines that tell how the program is used. -/
def usage : List String :=
  ["Usage: stackvm [options] [command]",
    "",
    "Run and inspect stack machine bytecode",
    "",
    "Options:",
    "  -h, --help                     display help for command",
    "",
    "Commands:",
    "  run [options] <path> [output]  Execute a binary program and print the final machine state",
    "  disasm <path>                  Print the decoded instructions of a binary program",
    "  asm <source> <output>          Assemble a text program into bytecode",
    "  help [command]                 display help for command"]

/-- What a run of the command line leaves behind. -/
structure Session where
  /-- The exit code. -/
  code : Nat
  /-- The text on the standard output. -/
  stdout : String
  /-- The text on the standard error output, without the log. -/
  stderr : String
  /-- The entries of the log. -/
  logs : List LogEntry
  /-- The tree afterwards. -/
  tree : FileTree

/-- A session from what was done, in a log of a given level. -/
def Session.ofPerformance (level : LogLevel) (tree : FileTree) (done : Performance) : Session :=
  { code := done.code
    stdout := done.stdout
    stderr := done.stderr
    logs := done.logs.filter fun entry => level.admits entry.level
    tree }

/-- The answer to arguments that cannot be understood. -/
def UsageError.performance (error : UsageError) : Performance :=
  { code := 1, stderr := Performance.lines [error.message] }

/-- Runs the command line. There is no answer if the fuel does not suffice. -/
def run (fuel : Nat) (level : LogLevel) (working : Path) (tree : FileTree)
    (arguments : List String) : Option Session :=
  match intent arguments with
  | .perform request =>
    (carryOut fuel working tree request).map fun (tree, done) => .ofPerformance level tree done
  | .help => some (.ofPerformance level tree { stdout := Performance.lines usage })
  | .nothing => some (.ofPerformance level tree { code := 1, stderr := Performance.lines usage })
  | .misuse error => some (.ofPerformance level tree error.performance)

end WordMachine.CommandLine
