import WordMachine.Assembly
import WordMachine.Command.Report
import WordMachine.Machine
import WordMachine.Rendering

/-!
# Commands

The three things to be done with a program: run it, list it and assemble it from
a source text. Running takes fuel, since a program need not end.
-/

namespace WordMachine.Command

/-- How a program is run (`RunCommandOptions`). -/
structure RunOptions where
  /-- Whether every step is traced. -/
  trace : Bool := false
  /-- Whether the last state is given as JSON. -/
  json : Bool := false
  deriving DecidableEq, Repr

/-- The line for an undecodable program. -/
def decodeErrorLine (error : DecodeError) : String :=
  "decode error: " ++ error.message

/-- The line of the trace for an event, if it has one. -/
def traceLine? : Event → Option String
  | .observe inst state => some (state.stepText inst)
  | _ => none

/-- The log entry of an event, if it has one. -/
def logEntry? : Event → Option LogEntry
  | .log entry => some (.machine entry)
  | _ => none

/-- The report on a finished run: the last state as output, or the fault and the last state
as errors. -/
def reportResult (options : RunOptions) (result : Result) : Report :=
  match result.outcome with
  | .faulted fault =>
    { code := 1
      errors := ["execution error: " ++ fault.message, "last state: " ++ result.state.text] }
  | _ => { out := [if options.json then result.state.json else result.state.text] }

/-- Runs a machine, observed if the run is to be traced. -/
def drive (fuel : Nat) (options : RunOptions) (m : Machine) : Option (Reply Result) :=
  if options.trace then m.observe fuel .quiet else m.run fuel

/-- Runs a loaded machine and reports. A trace starts with the first state. -/
def runMachine (fuel : Nat) (options : RunOptions) (m : Machine) :
    Option (Except Interrupt Report) :=
  (drive fuel options m).map fun reply =>
    reply.value.map fun result =>
      { reportResult options result with
        traced :=
          if options.trace then m.state.text :: reply.events.filterMap traceLine? else []
        logs := reply.events.filterMap logEntry? }

/-- Decodes and runs a program (`runProgram`). There is no answer if the fuel does not suffice. -/
def run (fuel : Nat) (options : RunOptions) (bytes : List UInt8) :
    Option (Except Interrupt Report) :=
  match Program.decode bytes with
  | .error error =>
    some (.ok { code := 1, errors := [decodeErrorLine error], logs := [.decodeFailed error] })
  | .ok program =>
    match Machine.load program with
    | .error failure => some (.error (.failure failure))
    | .ok m => runMachine fuel options m

/-- Decodes and lists a program (`disassembleProgram`); an empty program has no lines. -/
def list (bytes : List UInt8) : Report :=
  match Program.decode bytes with
  | .error error => { code := 1, errors := [decodeErrorLine error] }
  | .ok [] => {}
  | .ok program => { out := [program.listing] }

/-- The line for a remark on a source text. -/
def messageLine (message : Assembly.Message) : String :=
  let severity := if message.remark.isError then "error" else "warning"
  "line " ++ toString message.line ++ ": " ++ severity ++ ": " ++ message.remark.text

/-- Assembles a source text into bytes, and reports on its lines (`assembleSource`). -/
def assemble (source : String) : Option (List UInt8) × Report :=
  let assembly := Assembly.ofSource source
  let errors := assembly.messages.map messageLine
  match assembly.program with
  | none => (none, { code := 1, errors })
  | some program => (some program.encode, { errors })

end WordMachine.Command
