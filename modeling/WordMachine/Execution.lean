import WordMachine.Instruction
import WordMachine.State

/-!
# Execution of one instruction

`execute` carries out an instruction on a state. The stack must hold as many
values as the instruction asks for; then the state is copied, which refuses a
program counter or register outside the word range; then the instruction takes
effect. Every instruction but a jump and a halt moves on to the next one.
-/

namespace WordMachine

/-- The value that a binary operation leaves; `a` was on top and `b` below it. -/
def BinaryOp.apply? : BinaryOp → Int → Int → Option Int
  | add, a, b => Word.add? a b
  | sub, a, b => Word.sub? a b
  | mul, a, b => Word.mul? a b
  | div, a, b => Word.div? a b
  | mod, a, b => Word.mod? a b
  | cmp, a, b => some (Word.equal a b)
  | and, a, b => some (Word.and a b)
  | or, a, b => some (Word.or a b)
  | xor, a, b => some (Word.xor a b)

namespace State

variable {α : Type}

/-- Carries out an operation on the stack of a state. -/
def onStack (action : Action Stack α) : Action State α := fun state =>
  match action state.stack with
  | .ok a stack => .ok a { state with stack }
  | .error failure stack => .error failure { state with stack }

/-- Carries out an operation on the memory of a state. -/
def onMemory (action : Action Memory α) : Action State α := fun state =>
  match action state.memory with
  | .ok a memory => .ok a { state with memory }
  | .error failure memory => .error failure { state with memory }

/-- Pushes a value. -/
def push (value : Int) : Action State Nat :=
  onStack (Stack.push value)

/-- Takes the top value. -/
def pop : Action State Int :=
  onStack Stack.pop

/-- Writes a cell. -/
def write (address value : Int) : Action State Unit :=
  onMemory (Memory.write address value)

end State

/-- The effect of a plain operation (`apply`). -/
def Operation.effect : Operation → Action State Unit
  | nop => modify State.next
  | halt => return ()
  | load => do
    let address ← State.pop
    let _ ← State.push ((← get).memory.read address)
    modify State.next
  | store => do
    let address ← State.pop
    let value ← State.pop
    State.write address value
    modify State.next
  | push => do
    let _ ← State.push (← get).register
    modify State.next
  | pop => do
    let register ← State.pop
    modify fun state => { state with register }.next
  | jump => do
    let pc ← State.pop
    modify fun state => { state with pc }
  | not => do
    let value ← State.pop
    let _ ← State.push (Word.complement value)
    modify State.next
  | binary op => do
    let a ← State.pop
    let b ← State.pop
    match op.apply? a b with
    | none => throw (.fault { kind := .arithmeticOverflow })
    | some value =>
      let _ ← State.push value
      modify State.next
  | reserved _ => throw (.fault { kind := .illegalInstruction })

/-- The effect of an instruction. A literal goes into the register unchecked. -/
def Instruction.effect : Instruction → Action State Unit
  | plain op => op.effect
  | set literal => modify fun state => { state with register := literal }.next
  | unknown _ => throw (.fault { kind := .illegalInstruction })

/-- Carries out one instruction on a copy of the state (`executeInstruction`), which is given up if
the instruction fails. A fault carries the code of the instruction. -/
def execute (state : State) (inst : Instruction) : Except Failure State :=
  if state.stack.depth < inst.arity then
    throw (.fault { kind := .insufficientArguments, code := some inst.code })
  else do
    let state ← state.copy
    (inst.effect.exec state).mapError (·.withCode inst.code)

end WordMachine
