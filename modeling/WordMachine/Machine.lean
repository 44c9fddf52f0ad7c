import WordMachine.Execution
import WordMachine.Machine.Call

/-!
# The machine

A machine executes its program one instruction at a time until a halt, the end
of the program or a fault, and keeps the result from then on. Each step is
reported to the hooks; a step that has been counted stays counted even if a hook
then fails. Since a program need not end, `run` takes the number of steps after
which it gives up.
-/

namespace WordMachine.Machine

/-- A machine for a program, starting from a copy of a state (the constructor of `Machine`). -/
def load (program : Program) (state : State := {}) : Except Failure Machine := do
  let state ← state.copy
  return { code := program.toArray, state }

/-- The program of a machine (`getProgram`). -/
def program (m : Machine) : Program :=
  m.code.toList

/-- Whether the run has finished (`finished`). -/
def finished (m : Machine) : Bool :=
  m.result.isSome

/-- The instruction at the program counter, if there is one. -/
def current? (m : Machine) : Option Instruction :=
  m.code[m.state.pc.toNat]?

/-- The machine with other hooks (`setEventListener`). -/
def listen (m : Machine) (listener : Listener) : Machine :=
  { m with listener }

/-- Ends the run: keeps the result, logs it and tells the end hook (`finish`). -/
def finish (outcome : Outcome) : Call Result := do
  let state ← Call.snapshot
  let m ← Call.machine
  let result : Result := { outcome, steps := m.steps, state }
  Call.update fun m => { m with result := some result }
  Call.log (.finished outcome m.steps)
  let _ ← Call.notify .finish state fun _ => .finish result
  return result

/-- Ends the run at an instruction that could not be executed, as `step` does. -/
def fault (cause : Fault) : Call Result := do
  let m ← Call.machine
  Call.log (.faulted m.state.pc cause)
  let _ ← Call.notify .error m.state (.error cause)
  finish (.faulted cause)

/-- Goes on to the state after an instruction, as `step` does. The observer is shown what the step
hook has left of its report. A halt ends the run. -/
def proceed (inst : Instruction) (state : State) : Call (Option Result) := do
  let m ← Call.machine
  Call.update fun m => { m with state, steps := m.steps + 1 }
  let left ← Call.notify .step state (.step m.state.pc.toNat inst)
  let report := left.getD { inst, state }
  let _ ← Call.notify .observe report.state (.observe report.inst)
  if inst = .plain .halt then
    return some (← finish .halted)
  else
    return none

/-- Executes one instruction (`step`). The answer is the result once the run has finished. -/
def step : Call (Option Result) := do
  let m ← Call.machine
  match m.result with
  | some result => return some result
  | none =>
    match m.current? with
    | none => return some (← finish .endOfProgram)
    | some inst =>
      match execute m.state inst with
      | .error (.range error) => Call.fail (.range error)
      | .error (.fault cause) => return some (← fault cause)
      | .ok state => proceed inst state

/-- Executes at most `n` instructions, stopping at a result or an interrupt; `past` are the
events so far. -/
def advance (n : Nat) (past : Array Event) (m : Machine) : Reply (Option Result) :=
  match n with
  | 0 => { machine := m, events := past.toList, value := .ok none }
  | n + 1 =>
    let reply := step m
    let past := past ++ reply.events
    match reply.value with
    | .ok none => advance n past reply.machine
    | value => { reply with events := past.toList, value }

/-- Executes at most `n` instructions. -/
def stepUpTo (n : Nat) : Call (Option Result) :=
  advance n #[]

/-- Runs the machine to its result (`run`), or gives up after `fuel` steps. -/
def run (fuel : Nat) (m : Machine) : Option (Reply Result) :=
  let reply := advance fuel #[.log (.started m.code.size)] m
  match reply.value with
  | .ok none => none
  | .ok (some result) => some { reply with value := .ok result }
  | .error interrupt => some { reply with value := .error interrupt }

/-- Runs the machine under the eyes of an observer (`runWithObserver`), which is called after the
step hook and dismissed at the end, also if the run is interrupted. -/
def observe (fuel : Nat) (observer : Hook) (m : Machine) : Option (Reply Result) :=
  (run fuel { m with observer := some observer }).map fun reply =>
    { reply with machine := { reply.machine with observer := none } }

end WordMachine.Machine
