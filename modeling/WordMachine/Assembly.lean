import WordMachine.Assembly.Line
import WordMachine.Bytecode

/-!
# Assembly

A source text is assembled line by line. The result holds a program if no line
has a problem, and the remarks on the lines in order: their problems, and
warnings about reserved operations, which stay in the program.
-/

namespace WordMachine

namespace Assembly

/-- What there is to say about a line. -/
inductive Remark where
  /-- The line is no instruction. -/
  | problem (cause : Problem)
  /-- The line holds an operation that will not execute. -/
  | reserved (op : ReservedOp)
  deriving DecidableEq, Repr

namespace Remark

/-- Whether a remark keeps the source from being a program. -/
def isError : Remark → Bool
  | problem _ => true
  | reserved _ => false

/-- The wording of a remark. -/
def text : Remark → String
  | problem cause => cause.text
  | reserved op => (Operation.reserved op).name ++ " is reserved and will not execute"

end Remark

/-- A remark and the number of its line (`AssemblerMessage`). -/
structure Message where
  /-- The number of the line, counted from one. -/
  line : Nat
  /-- The remark. -/
  remark : Remark
  deriving DecidableEq, Repr

/-- The remark on a line, if there is one. -/
def Line.remark? : Line → Option Remark
  | problem cause => some (.problem cause)
  | instruction (.plain (.reserved op)) => some (.reserved op)
  | _ => none

/-- The instruction on a line, if there is one. -/
def Line.instruction? : Line → Option Instruction
  | instruction inst => some inst
  | _ => none

/-- The lines of a source text, read one by one. -/
def readLines (source : String) : List Line :=
  (Text.split (· = '\n') source.toList).map Line.read

/-- The remarks on lines that are numbered from `first`. -/
def messagesFrom (first : Nat) (lines : List Line) : List Message :=
  (lines.zipIdx first).filterMap fun (line, number) =>
    line.remark?.map fun remark => { line := number, remark }

end Assembly

/-- The result of assembling a source text (`AssembleResult`). -/
structure Assembly where
  /-- The program, unless a line has a problem. -/
  program : Option Program
  /-- The remarks on the lines in order. -/
  messages : List Assembly.Message

namespace Assembly

/-- Assembles lines that have been read. -/
def ofLines (lines : List Line) : Assembly :=
  let messages := messagesFrom 1 lines
  { program :=
      if messages.any (·.remark.isError) then none else some (lines.filterMap Line.instruction?)
    messages }

/-- Assembles a source text (`assemble`). -/
def ofSource (source : String) : Assembly :=
  ofLines (readLines source)

/-- The wording of a failed assembly, which names its errors in order. -/
def failureText (messages : List Message) : String :=
  let errors := messages.filter (·.remark.isError)
  "Assembly failed: " ++
    ", ".intercalate (errors.map fun m => "line " ++ toString m.line ++ ": " ++ m.remark.text)

/-- The bytes of a source text (`assembleToBytes`), or the remarks that say why there are none. -/
def bytesOfSource (source : String) : Except (List Message) (List UInt8) :=
  let assembly := ofSource source
  match assembly.program with
  | none => .error assembly.messages
  | some program => .ok program.encode

end Assembly

end WordMachine
