import WordMachine.Command
import WordMachine.Files.Tree
import WordMachine.Text.Utf8

/-!
# Carrying out requests

A request reads one file and turns its contents into console output, log
entries, an exit code and at most one file to be written. Requests are carried out in
a tree of files. Reading and writing may fail there, which fails the command.
-/

namespace WordMachine.CommandLine

/-- What is to be done: one of the commands `run`, `disasm` and `asm`. -/
inductive Request where
  /-- Run the program in a file. -/
  | run (path : String) (output : Option String) (options : Command.RunOptions)
  /-- List the program in a file. -/
  | list (path : String)
  /-- Assemble a source file into another file. -/
  | assemble (source output : String)
  deriving DecidableEq, Repr

/-- What a command does once its input has been read. -/
structure Performance where
  /-- The exit code. -/
  code : Nat := 0
  /-- The text for the standard output. -/
  stdout : String := ""
  /-- The text for the standard error output. -/
  stderr : String := ""
  /-- The entries for the log. -/
  logs : List LogEntry := []
  /-- The file to be written, with its contents. -/
  output : Option (String × List UInt8) := none

namespace Performance

/-- The text of lines, each of them ended. -/
def lines (texts : List String) : String :=
  String.join (texts.map (· ++ "\n"))

/-- Adds that the command has failed. -/
def failed (performance : Performance) (failure : CommandFailure) : Performance :=
  { code := 1
    stdout := performance.stdout
    stderr := performance.stderr ++ lines [failure.message]
    logs := performance.logs ++ [.commandFailed failure] }

/-- Turns a report into output. The trace comes first, and the output goes where it is to go. -/
def ofReport (report : Command.Report) (output : Option String) : Performance :=
  let performance : Performance :=
    { code := report.code
      stdout := lines report.traced
      stderr := lines report.errors
      logs := report.logs }
  match Command.emit report.out output with
  | .nothing => performance
  | .console text => { performance with stdout := performance.stdout ++ text }
  | .file path text => { performance with output := some (path, text.toUTF8.toList) }

end Performance

namespace Request

/-- The file that a request reads. -/
def input : Request → String
  | run path _ _ => path
  | list path => path
  | assemble source _ => source

/-- What a request does with the contents of its file. There is no answer if the fuel does
not suffice. -/
def perform (fuel : Nat) (bytes : List UInt8) : Request → Option Performance
  | run _ output options =>
    (Command.run fuel options bytes).map fun
      | .ok report => .ofReport report output
      | .error cause => Performance.failed {} (.interrupt cause)
  | list _ => some (.ofReport (Command.list bytes) none)
  | assemble _ output =>
    let (bytes?, report) := Command.assemble (Text.Utf8.decode bytes)
    some { Performance.ofReport report none with output := bytes?.map (output, ·) }

end Request

/-- Writes the output file of what was done, which fails the command if it cannot be
written. -/
def store (working : Path) (tree : FileTree) (done : Performance) : FileTree × Performance :=
  match done.output with
  | none => (tree, done)
  | some (path, bytes) =>
    match tree.write (working.resolve path) bytes with
    | .error error => (tree, done.failed (.file error))
    | .ok tree => (tree, done)

/-- Carries out a request in a tree. -/
def carryOut (fuel : Nat) (working : Path) (tree : FileTree) (request : Request) :
    Option (FileTree × Performance) :=
  match tree.read (working.resolve request.input) with
  | .error error => some (tree, Performance.failed {} (.file error))
  | .ok bytes => (request.perform fuel bytes).map (store working tree)

end WordMachine.CommandLine
