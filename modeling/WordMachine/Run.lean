import WordMachine.Execution
import WordMachine.Machine.Event

/-!
# Runs

The meaning of a program with no machine around it: instructions are executed one
after another until a halt, the end of the program or a fault. A state outside
the word range keeps a run from going on.
-/

namespace WordMachine

/-- How far a run has come. -/
inductive Progress where
  /-- So many instructions have been executed, and the run goes on from a state. -/
  | running (steps : Nat) (state : State)
  /-- The run has ended. -/
  | ended (result : Result)
  /-- The run cannot go on from a state after so many instructions. -/
  | stuck (steps : Nat) (state : State) (error : RangeError)
  deriving DecidableEq

namespace Progress

/-- What becomes of a run when one more instruction is due. -/
def next (program : Program) : Progress → Progress
  | running steps state =>
    match program[state.pc.toNat]? with
    | none => .ended { outcome := .endOfProgram, steps, state }
    | some inst =>
      match execute state inst with
      | .error (.range error) => .stuck steps state error
      | .error (.fault fault) => .ended { outcome := .faulted fault, steps, state }
      | .ok after =>
        if inst = .plain .halt then
          .ended { outcome := .halted, steps := steps + 1, state := after }
        else .running (steps + 1) after
  | progress => progress

/-- How far a run from a state has come when `n` instructions have been due. -/
def after (program : Program) (start : State) : Nat → Progress
  | 0 => .running 0 start
  | n + 1 => (after program start n).next program

end Progress

end WordMachine
