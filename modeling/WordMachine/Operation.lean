/-!
# Operations and opcodes

Every instruction starts with an opcode: either a plain operation, which stands
alone, or the literal opcode, which a word follows. The plain operations are
grouped by what they do: nine replace two values by one, three are reserved and
never execute, and the others move values or control.
-/

namespace WordMachine

/-- The operations that replace two values by one. -/
inductive BinaryOp where
  | add
  | sub
  | mul
  | div
  | mod
  | cmp
  | and
  | or
  | xor
  deriving DecidableEq, Repr

/-- The operations that have a code and a name but never execute. -/
inductive ReservedOp where
  | read
  | write
  | jumpIf
  deriving DecidableEq, Repr

/-- The operations that stand alone in a program. -/
inductive Operation where
  | nop
  | halt
  | load
  | store
  | push
  | pop
  | jump
  | not
  | binary (op : BinaryOp)
  | reserved (op : ReservedOp)
  deriving DecidableEq, Repr

/-- What the first byte of an instruction names. -/
inductive Opcode where
  /-- Sets the register to the literal that follows. -/
  | set
  /-- An operation that stands alone. -/
  | plain (op : Operation)
  deriving DecidableEq, Repr

namespace Operation

/-- The byte that stands for an operation. -/
def code : Operation → Nat
  | nop => 0
  | halt => 1
  | load => 2
  | store => 3
  | push => 4
  | pop => 5
  | reserved .read => 7
  | reserved .write => 8
  | jump => 9
  | reserved .jumpIf => 10
  | binary .add => 11
  | binary .sub => 12
  | binary .mul => 13
  | binary .div => 14
  | binary .mod => 15
  | binary .cmp => 16
  | binary .and => 17
  | binary .or => 18
  | not => 19
  | binary .xor => 20

/-- The mnemonic of an operation. -/
def name : Operation → String
  | nop => "NOP"
  | halt => "HALT"
  | load => "LOAD"
  | store => "STORE"
  | push => "PUSH"
  | pop => "POP"
  | reserved .read => "READ"
  | reserved .write => "WRITE"
  | jump => "JUMP"
  | reserved .jumpIf => "JUMPIF"
  | binary .add => "ADD"
  | binary .sub => "SUB"
  | binary .mul => "MUL"
  | binary .div => "DIV"
  | binary .mod => "MOD"
  | binary .cmp => "CMP"
  | binary .and => "AND"
  | binary .or => "OR"
  | not => "NOT"
  | binary .xor => "XOR"

/-- The number of stack values that must be present before an operation. -/
def arity : Operation → Nat
  | load | jump | not => 1
  | store | binary _ => 2
  | nop | halt | push | pop | reserved _ => 0

end Operation

namespace Opcode

/-- The opcodes in the order of their codes. -/
def all : List Opcode :=
  [plain .nop, plain .halt, plain .load, plain .store, plain .push, plain .pop, set,
    plain (.reserved .read), plain (.reserved .write), plain .jump, plain (.reserved .jumpIf),
    plain (.binary .add), plain (.binary .sub), plain (.binary .mul), plain (.binary .div),
    plain (.binary .mod), plain (.binary .cmp), plain (.binary .and), plain (.binary .or),
    plain .not, plain (.binary .xor)]

/-- The byte that stands for an opcode. -/
def code : Opcode → Nat
  | set => 6
  | plain op => op.code

/-- The mnemonic of an opcode. -/
def name : Opcode → String
  | set => "SET"
  | plain op => op.name

/-- The identifier of an opcode in tables, with its words kept apart. -/
def identifier : Opcode → String
  | plain (.reserved .jumpIf) => "JUMP_IF"
  | opcode => opcode.name

/-- The number of stack values that must be present before an opcode. -/
def arity : Opcode → Nat
  | set => 0
  | plain op => op.arity

/-- The opcode of a code, if the code belongs to one (`isOpcode`). -/
def ofCode? (code : Int) : Option Opcode :=
  all.find? fun opcode => (opcode.code : Int) = code

/-- The name shown for a code; a code without an opcode is shown as undefined. -/
def nameOfCode (code : Int) : String :=
  ((ofCode? code).map name).getD "undefined"

/-- Every opcode is found by its code. -/
@[simp] theorem ofCode?_code (opcode : Opcode) : ofCode? opcode.code = some opcode := by
  rcases opcode with _ | ⟨_ | _ | _ | _ | _ | _ | _ | _ | ⟨_ | _⟩ | ⟨_ | _⟩⟩ <;> decide

end Opcode

end WordMachine
