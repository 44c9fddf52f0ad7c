import WordMachine.Machine.Hook

/-!
# Events of a run

What a machine lets others see while it runs: its log entries and the calls of
its hooks, each with the state at that time.
-/

namespace WordMachine

/-- How a run has ended. -/
inductive Outcome where
  /-- A halt was executed. -/
  | halted
  /-- There is no instruction at the program counter. -/
  | endOfProgram
  /-- An instruction could not be executed. -/
  | faulted (fault : Fault)
  deriving DecidableEq, Repr

/-- The label of an outcome in reports. -/
def Outcome.label : Outcome → String
  | halted => "HALTED"
  | endOfProgram => "END_OF_PROGRAM"
  | faulted _ => "ERROR"

/-- The result of a finished run (`RunResult`). -/
structure Result where
  /-- How the run ended. -/
  outcome : Outcome
  /-- The number of instructions executed. -/
  steps : Nat
  /-- The last state. -/
  state : State
  deriving DecidableEq

/-- An entry that a machine writes to its log. -/
inductive RunLog where
  /-- A run of a program of so many instructions has started. -/
  | started (instructions : Nat)
  /-- The instruction at a program counter could not be executed. -/
  | faulted (pc : Int) (fault : Fault)
  /-- The run has finished. -/
  | finished (outcome : Outcome) (steps : Nat)
  deriving DecidableEq, Repr

/-- What can be seen of a machine while it runs. -/
inductive Event where
  /-- An entry in the log. -/
  | log (entry : RunLog)
  /-- The step hook was told of the instruction at `index` and the state after it. -/
  | step (index : Nat) (inst : Instruction) (state : State)
  /-- The observer was told of an instruction and a state. -/
  | observe (inst : Instruction) (state : State)
  /-- The error hook was told of a fault and the state in which it occurred. -/
  | error (fault : Fault) (state : State)
  /-- The end hook was told of the result. -/
  | finish (result : Result)
  deriving DecidableEq

/-- What keeps a machine from answering. -/
inductive Interrupt where
  /-- A state could not be copied. -/
  | failure (failure : Failure)
  /-- A hook failed. -/
  | hook (name : HookName)
  deriving DecidableEq, Repr

/-- The wording of an interrupt. -/
def Interrupt.message : Interrupt → String
  | failure cause => cause.message
  | hook name => name.text ++ " hook failed"

end WordMachine
