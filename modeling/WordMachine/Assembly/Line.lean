import WordMachine.Instruction
import WordMachine.Text
import WordMachine.Word

/-!
# Lines of assembly

A line holds at most one instruction: a mnemonic in any case and, for the
literal opcode only, one literal. A semicolon starts a comment. `Line.read` says
what a line holds or what is wrong with it.
-/

namespace WordMachine

/-- The opcode of a mnemonic, which may be written in any case. -/
def Opcode.ofMnemonic? (mnemonic : List Char) : Option Opcode :=
  all.find? fun opcode => opcode.name.toList = Text.upperCase mnemonic

namespace Assembly

/-- What can be wrong with a line. -/
inductive Problem where
  | unknownInstruction (mnemonic : String)
  | literalCount
  | badLiteral (literal : String)
  | literalTooLarge (literal : String)
  | operandsGiven (op : Operation)
  deriving DecidableEq, Repr

/-- The wording of a problem; mnemonics and literals are quoted as written. -/
def Problem.text : Problem → String
  | unknownInstruction mnemonic => "Unknown instruction '" ++ mnemonic ++ "'"
  | literalCount => "SET takes exactly one literal"
  | badLiteral literal => "Bad literal '" ++ literal ++ "'"
  | literalTooLarge literal => "Literal '" ++ literal ++ "' does not fit in 64 bits"
  | operandsGiven op => op.name ++ " takes no operands"

/-- What a line holds. -/
inductive Line where
  /-- Nothing but white space and a comment. -/
  | blank
  /-- An instruction. -/
  | instruction (inst : Instruction)
  /-- Something that is no instruction. -/
  | problem (cause : Problem)
  deriving DecidableEq

/-- The instruction of the literal opcode with the operands of a line. -/
def readLiteral : List (List Char) → Line
  | [operand] =>
    match Text.literal? operand with
    | none => .problem (.badLiteral (String.ofList operand))
    | some value =>
      if IsWord value then .instruction (.set value)
      else .problem (.literalTooLarge (String.ofList operand))
  | _ => .problem .literalCount

/-- The parts of a line that stand before a comment. -/
def lineWords (line : List Char) : List (List Char) :=
  Text.words Text.isBlank (line.takeWhile (· ≠ ';'))

/-- What a line holds or what is wrong with it. -/
def Line.read (line : List Char) : Line :=
  match lineWords line with
  | [] => .blank
  | mnemonic :: operands =>
    match Opcode.ofMnemonic? mnemonic with
    | none => .problem (.unknownInstruction (String.ofList mnemonic))
    | some .set => readLiteral operands
    | some (.plain op) =>
      if operands.isEmpty then .instruction (.plain op) else .problem (.operandsGiven op)

end Assembly

end WordMachine
