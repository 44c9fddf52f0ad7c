import WordMachine.Bytecode.Error
import WordMachine.Instruction
import WordMachine.Word.Bytes

/-!
# Bytecode

A program is stored as bytes: an opcode takes one byte, and the literal opcode
is followed by the eight bytes of its literal. `decodeOne` reads a single
instruction that takes up all of the bytes. `encode` writes a program and `decode`
reads one slice by slice, reporting the first instruction that cannot be read.
-/

namespace WordMachine

/-- The byte of the literal opcode. -/
def literalByte : UInt8 := 6

/-- The number of bytes of an instruction with a literal. -/
def literalLength : Nat := 9

/-- The number of bytes of the instruction that starts with a byte. -/
def instructionLength (byte : UInt8) : Nat :=
  if byte = literalByte then literalLength else 1

/-- The opcode of a byte, if the byte stands for one. -/
def Opcode.ofByte? (byte : UInt8) : Option Opcode :=
  Opcode.ofCode? byte.toNat

namespace Instruction

/-- The bytes of an instruction (`encodeInstruction`); a literal is taken modulo `2 ^ 64` and an
unknown code modulo 256. -/
def encode : Instruction → List UInt8
  | plain op => [UInt8.ofNat op.code]
  | set literal => literalByte :: Word.toBytes literal
  | unknown code => [UInt8.ofNat (code.value % 256).toNat]

/-- Reads a single instruction from all of the bytes (`decodeInstruction`). -/
def decodeOne : List UInt8 → Except DecodeError Instruction
  | [] => .error { kind := .noData }
  | [byte] =>
    match Opcode.ofByte? byte with
    | none => .error { kind := .invalidOpcode, byte := some byte.toNat }
    | some .set => .error { kind := .missingLiteral }
    | some (.plain op) => .ok (.plain op)
  | byte :: rest =>
    if byte ≠ literalByte then
      .error { kind := .inappropriateLiteral, byte := some byte.toNat }
    else if rest.length ≠ Word.width then .error { kind := .incompleteLiteral }
    else .ok (.set (Word.ofBytes rest))

end Instruction

namespace Program

/-- The bytes of a program (`encodeProgram`). -/
def encode (program : Program) : List UInt8 :=
  program.flatMap Instruction.encode

/-- Reads the instructions of the bytes that start at `offset`, after those already read,
which are held in reverse. Each instruction is read from a slice of its own, and an error in
the slice is moved to the offset at which the slice starts. -/
def decodeFrom (offset : Nat) (read : Program) (bytes : List UInt8) :
    Except DecodeError Program :=
  match bytes with
  | [] => .ok read.reverse
  | byte :: rest =>
    let length := instructionLength byte
    let slice := (byte :: rest).take length
    if slice.length < length then .error { kind := .incompleteLiteral, offset }
    else
      match Instruction.decodeOne slice with
      | .error error => .error (error.moveTo offset)
      | .ok inst => decodeFrom (offset + length) (inst :: read) (rest.drop (length - 1))
termination_by bytes.length

/-- Reads a program from its bytes (`decode`). -/
def decode (bytes : List UInt8) : Except DecodeError Program :=
  decodeFrom 0 [] bytes

end Program

end WordMachine
