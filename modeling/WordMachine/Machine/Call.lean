import WordMachine.Machine.Event

/-!
# Calls to a machine

A machine is a value, and a call to it gives a reply: the machine afterwards, the
events of the call in order, and the answer or the interrupt that took its place.
What a call has changed before an interrupt stays changed. Calls are written in
sequence with `do`.
-/

namespace WordMachine

/-- A machine: a program, a state, and what is needed to report on the run. -/
structure Machine where
  /-- The program. -/
  code : Array Instruction
  /-- The current state. -/
  state : State
  /-- The number of instructions executed. -/
  steps : Nat := 0
  /-- The result, once the run has finished. -/
  result : Option Result := none
  /-- The hooks that are told of the run. -/
  listener : Listener := {}
  /-- The observer of the run in progress. -/
  observer : Option Hook := none

namespace Machine

/-- Whether a hook for a fault or for the end is called. In an observed run the machine reports to
a copy of the listener, which has the hooks that the listener owns (`runWithObserver`). -/
def hears (m : Machine) (hook : Hook) : Bool :=
  !m.observer.isSome || hook.owned

/-- The hook that is called on an occasion. In an observed run the step hook comes along with the
observer, whether the listener owns it or not. -/
def hook? (m : Machine) : HookName → Option Hook
  | .step => m.listener.step
  | .observe => m.observer
  | .error => m.listener.error.filter m.hears
  | .finish => m.listener.finish.filter m.hears

/-- The machine with another hook of a given name. -/
def setHook (m : Machine) (hook : Hook) : HookName → Machine
  | .step => { m with listener := { m.listener with step := some hook } }
  | .observe => { m with observer := some hook }
  | .error => { m with listener := { m.listener with error := some hook } }
  | .finish => { m with listener := { m.listener with finish := some hook } }

end Machine

/-- What comes back from a call. -/
structure Reply (α : Type) where
  /-- The machine after the call. -/
  machine : Machine
  /-- The events of the call. -/
  events : List Event
  /-- The answer, or what took its place. -/
  value : Except Interrupt α

/-- A call to a machine. -/
def Call (α : Type) : Type :=
  Machine → Reply α

namespace Call

/-- Answers without doing anything. -/
def answer {α : Type} (a : α) : Call α := fun m =>
  { machine := m, events := [], value := .ok a }

/-- One call after another; the second is not made if the first is interrupted. -/
def andThen {α β : Type} (call : Call α) (next : α → Call β) : Call β := fun m =>
  let first := call m
  match first.value with
  | .error interrupt => { first with value := .error interrupt }
  | .ok a =>
    let second := next a first.machine
    { second with events := first.events ++ second.events }

instance : Monad Call where
  pure := answer
  bind := andThen

/-- Answers with the machine itself. -/
def machine : Call Machine := fun m =>
  { machine := m, events := [], value := .ok m }

/-- Changes the machine. -/
def update (change : Machine → Machine) : Call Unit := fun m =>
  { machine := change m, events := [], value := .ok () }

/-- Is interrupted by a failure. -/
def fail {α : Type} (failure : Failure) : Call α := fun m =>
  { machine := m, events := [], value := .error (.failure failure) }

/-- Answers with a copy of the current state (`getState`). -/
def snapshot : Call State := fun m =>
  { machine := m, events := [], value := m.state.copy.mapError .failure }

/-- Writes to the log. -/
def log (entry : RunLog) : Call Unit := fun m =>
  { machine := m, events := [.log entry], value := .ok () }

/-- Tells a hook of an event, for which a state is copied, and answers with what the hook leaves
in its report. Nothing happens if there is no hook; a hook that fails has still been told. -/
def notify (name : HookName) (state : State) (event : State → Event) :
    Call (Option StepReport) := fun m =>
  match m.hook? name with
  | none => { machine := m, events := [], value := .ok none }
  | some hook =>
    match state.copy with
    | .error failure => { machine := m, events := [], value := .error (.failure failure) }
    | .ok state =>
      { machine := m.setHook hook.afterCall name
        events := [event state]
        value := if hook.failsNext then .error (.hook name) else .ok hook.leavesNext }

end Call

end WordMachine
