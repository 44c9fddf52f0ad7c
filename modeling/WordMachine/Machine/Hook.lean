import WordMachine.Instruction
import WordMachine.State

/-!
# Hooks

A machine reports to hooks: callbacks that are told of an event and may fail. A step
hook may also write in the report that it is handed, and it is this report that an
observer is shown afterwards. A hook is described by what its calls do, one after
another, and by whether the listener owns it, on which it depends who is told during
an observed run.
-/

namespace WordMachine

/-- The occasions on which a hook is called. -/
inductive HookName where
  /-- An instruction has been executed. -/
  | step
  /-- An instruction has been executed during an observed run. -/
  | observe
  /-- An instruction could not be executed. -/
  | error
  /-- The run has ended. -/
  | finish
  deriving DecidableEq, Repr

/-- The name of a hook in messages. -/
def HookName.text : HookName → String
  | step => "step"
  | observe => "observe"
  | error => "error"
  | finish => "end"

/-- What the step hook and the observer are told of an executed instruction (`StepEvent`, of
whose index only the step hook learns). -/
structure StepReport where
  /-- The instruction. -/
  inst : Instruction
  /-- A state, which is the one after the instruction unless a hook has written in it. -/
  state : State
  deriving DecidableEq

/-- A hook: what its calls do, whose it is, and how many calls there have been. -/
structure Hook where
  /-- Whether the call with a given index fails, the first call having index zero. -/
  fails : Nat → Bool
  /-- What a call leaves in the report that it is handed, if it writes in it. -/
  leaves : Nat → Option StepReport := fun _ => none
  /-- Whether the listener owns the hook; otherwise it inherits it. -/
  owned : Bool := true
  /-- The number of calls so far. -/
  calls : Nat := 0

namespace Hook

/-- The hook that never fails and writes nothing. -/
def quiet : Hook where
  fails _ := false

/-- The hook that fails on its `n`-th call only, counted from one. -/
def failingAt (n : Int) : Hook where
  fails index := (index + 1 : Int) == n

/-- Whether the next call fails. -/
def failsNext (hook : Hook) : Bool :=
  hook.fails hook.calls

/-- What the next call leaves in its report. -/
def leavesNext (hook : Hook) : Option StepReport :=
  hook.leaves hook.calls

/-- The hook after one more call. -/
def afterCall (hook : Hook) : Hook :=
  { hook with calls := hook.calls + 1 }

end Hook

/-- The hooks that are told of every step, of a fault and of the end of a run
(`MachineEventListener`). -/
structure Listener where
  step : Option Hook := none
  error : Option Hook := none
  finish : Option Hook := none

end WordMachine
