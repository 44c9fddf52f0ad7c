import WordMachine.Instruction
import WordMachine.State

/-!
# Renderings

How states, steps and programs are shown: a line of text for people, a JSON
object for programs, and a numbered listing.
-/

namespace WordMachine

/-- A number as a JSON string. -/
def Text.quoted (value : Int) : String :=
  "\"" ++ toString value ++ "\""

/-- A text filled up with blanks on the left. -/
def Text.padLeft (width : Nat) (text : String) : String :=
  "".pushn ' ' (width - text.length) ++ text

namespace State

/-- A state in one line, the stack from bottom to top and the memory by ascending address
(`formatState`). -/
def text (state : State) : String :=
  let stack := ", ".intercalate (state.stack.toList.map toString)
  let memory := ", ".intercalate (state.memory.entries.map fun cell =>
    toString cell.1 ++ ": " ++ toString cell.2)
  "pc=" ++ toString state.pc ++ " reg=" ++ toString state.register ++
    " stack=[" ++ stack ++ "] memory=\x7b" ++ memory ++ "\x7d"

/-- A state as a JSON object, with all numbers as strings (`toJSON`). -/
def json (state : State) : String :=
  let stack := ",".intercalate (state.stack.toList.map Text.quoted)
  let memory := ",".intercalate (state.memory.entries.map fun cell =>
    Text.quoted cell.1 ++ ":" ++ Text.quoted cell.2)
  "\x7b\"pc\":" ++ Text.quoted state.pc ++ ",\"register\":" ++ Text.quoted state.register ++
    ",\"stack\":[" ++ stack ++ "],\"memory\":\x7b" ++ memory ++ "\x7d\x7d"

/-- An instruction and the state after it in one line (`formatStep`). -/
def stepText (state : State) (inst : Instruction) : String :=
  "[" ++ inst.text ++ "] " ++ state.text

end State

namespace Program

/-- The instructions of a program, one to a line, each after its index (`formatProgram`). The
indices are filled up to the width of the last one. -/
def listing (program : Program) : String :=
  let width := (toString (program.length - 1)).length
  "\n".intercalate (program.zipIdx.map fun (inst, index) =>
    Text.padLeft width (toString index) ++ "  " ++ inst.text)

end Program

end WordMachine
