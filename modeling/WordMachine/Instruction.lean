import WordMachine.Operation

/-!
# Instructions and programs

An instruction is a plain operation, a literal to be put into the register, or
a code that belongs to no opcode. The last never executes and is never decoded,
but a program assembled by other means may hold one. A literal is any integer:
its range is not checked where it is written.
-/

namespace WordMachine

/-- A code that belongs to no opcode. -/
structure UnknownCode where
  /-- The code itself. -/
  value : Int
  /-- No opcode has the code. -/
  ofCode?_eq_none : Opcode.ofCode? value = none
  deriving DecidableEq

/-- One instruction of a program. -/
inductive Instruction where
  /-- An operation that stands alone. -/
  | plain (op : Operation)
  /-- Sets the register to a literal. -/
  | set (literal : Int)
  /-- A code that belongs to no opcode. -/
  | unknown (code : UnknownCode)
  deriving DecidableEq

/-- A program is a list of instructions, addressed from zero. -/
abbrev Program := List Instruction

namespace Instruction

/-- The instruction with a given code; the literal matters only to the literal opcode. -/
def ofCode (code literal : Int) : Instruction :=
  match h : Opcode.ofCode? code with
  | some .set => .set literal
  | some (.plain op) => .plain op
  | none => .unknown ⟨code, h⟩

/-- The opcode of an instruction, if its code belongs to one. -/
def opcode? : Instruction → Option Opcode
  | plain op => some (.plain op)
  | set _ => some .set
  | unknown _ => none

/-- The code of an instruction. -/
def code : Instruction → Int
  | plain op => op.code
  | set _ => Opcode.set.code
  | unknown code => code.value

/-- The number of stack values that must be present; an unknown code asks for none. -/
def arity (inst : Instruction) : Nat :=
  (inst.opcode?.map Opcode.arity).getD 0

/-- The mnemonic, followed by the literal if there is one (`disassemble`). -/
def text : Instruction → String
  | plain op => op.name
  | set literal => Opcode.set.name ++ " " ++ toString literal
  | unknown code => Opcode.nameOfCode code.value

end Instruction

end WordMachine
