import WordMachine.Memory
import WordMachine.Stack

/-!
# Machine states

A state is a program counter, a register, a stack and a memory. The program
counter and the register may leave the word range while a state is in use; a
state that is made or copied is checked.
-/

namespace WordMachine

/-- The state of a machine. -/
structure State where
  /-- The index of the next instruction. -/
  pc : Int := 0
  /-- The register. -/
  register : Int := 0
  /-- The stack. -/
  stack : Stack := {}
  /-- The memory. -/
  memory : Memory := .empty
  deriving DecidableEq

namespace State

/-- Makes a state from its parts (the constructor of `State`), which are checked in the order in
which they are given. -/
def ofParts (pc register : Int) (stack : List Int) (memory : List (Int × Int)) :
    Except Failure State := do
  checkWord .pc pc
  checkWord .register register
  let stack ← Stack.ofList stack
  let memory ← Memory.ofList memory
  return { pc, register, stack, memory }

/-- The same state, after all of its parts have been checked again (`clone`). -/
def copy (state : State) : Except Failure State := do
  checkWord .pc state.pc
  checkWord .register state.register
  let stack ← state.stack.copy
  let memory ← state.memory.copy
  return { state with stack, memory }

/-- Whether two states have the same numbers everywhere (`equals`); the capacities may differ. -/
def agrees (a b : State) : Bool :=
  a.pc == b.pc && a.register == b.register && a.stack.agrees b.stack && a.memory.agrees b.memory

/-- The same state at the next instruction. -/
def next (state : State) : State :=
  { state with pc := state.pc + 1 }

/-- A state of words whose stack is no deeper than its capacity. -/
def WellFormed (state : State) : Prop :=
  IsWord state.pc ∧ IsWord state.register ∧ state.stack.WellFormed ∧ state.memory.WellFormed

instance (state : State) : Decidable state.WellFormed :=
  inferInstanceAs (Decidable (_ ∧ _ ∧ _ ∧ _))

/-- A state can be copied exactly if it is well formed, and the copy is the state itself. -/
theorem copy_eq_ok_iff {state after : State} :
    state.copy = .ok after ↔ state.WellFormed ∧ after = state := by
  simp only [copy, WellFormed, bind_eq_ok_iff, return_eq_ok_iff, checkWord_eq_ok_iff,
    Stack.copy_eq_ok_iff, Memory.copy_eq_ok_iff, exists_const]
  constructor
  · rintro ⟨hpc, hregister, _, ⟨hstack, rfl⟩, _, ⟨hmemory, rfl⟩, rfl⟩
    exact ⟨⟨hpc, hregister, hstack, hmemory⟩, rfl⟩
  · rintro ⟨⟨hpc, hregister, hstack, hmemory⟩, rfl⟩
    exact ⟨hpc, hregister, _, ⟨hstack, rfl⟩, _, ⟨hmemory, rfl⟩, rfl⟩

end State

end WordMachine
