import Mathlib.Data.Int.Bitwise
import WordMachine.Proofs.Execution.WordRange

/-!
# What an instruction changes and what it leaves alone

An instruction that is carried out takes some values from the top of the stack and leaves its
results in their place. Tables say for each instruction how many values it takes, what the
results are, and what happens to the register, the memory and the program counter. Whatever is
not in the tables stays as it is. The values that are taken are listed like the stack, from
bottom to top, so that the first one popped comes last.
-/

namespace WordMachine

/-- The exact value of a binary operation, computed on integers of any size; `a` is on top and `b`
below it. -/
def BinaryOp.value : BinaryOp → Int → Int → Int
  | add, a, b => a + b
  | sub, a, b => a - b
  | mul, a, b => a * b
  | div, a, b => a / b
  | mod, a, b => a % b
  | cmp, a, b => if a = b then 1 else 0
  | and, a, b => Int.land a b
  | or, a, b => Int.lor a b
  | xor, a, b => Int.xor a b

/-- An operation on words that does not fail has the exact value. -/
theorem BinaryOp.eq_value_of_apply? {op : BinaryOp} {a b value : Int} (ha : IsWord a)
    (hb : IsWord b) (h : op.apply? a b = some value) : value = op.value a b := by
  -- Quotients and bits are taken of the natural numbers behind the words.
  obtain ⟨m, rfl⟩ := Int.eq_ofNat_of_zero_le ha.1
  obtain ⟨n, rfl⟩ := Int.eq_ofNat_of_zero_le hb.1
  cases op with
  | add =>
    simp only [Word.add?, BinaryOp.apply?, Option.ite_none_left_eq_some] at h
    exact (Option.some.inj h.2).symm
  | sub =>
    simp only [Word.sub?, BinaryOp.apply?, Option.ite_none_left_eq_some] at h
    exact (Option.some.inj h.2).symm
  | mul =>
    simp only [Word.mul?, BinaryOp.apply?, Option.ite_none_left_eq_some] at h
    exact (Option.some.inj h.2).symm
  | div =>
    simp only [Word.div?, BinaryOp.apply?, Option.ite_none_left_eq_some] at h
    rw [← Option.some.inj h.2]
    exact Int.tdiv_eq_ediv_of_nonneg ha.1
  | mod =>
    simp only [Word.mod?, BinaryOp.apply?, Option.ite_none_left_eq_some] at h
    rw [← Option.some.inj h.2]
    exact Int.tmod_eq_emod_of_nonneg ha.1
  | cmp | and | or | xor => exact (Option.some.inj h).symm

/-- The complement of a word is its distance from the largest word. -/
theorem Word.complement_of_isWord {a : Int} (ha : IsWord a) : complement a = 2 ^ 64 - 1 - a := by
  obtain ⟨hnonneg, hmax⟩ := ha
  simp only [complement, max, modulus] at hmax ⊢
  omega

namespace Instruction

/-- The number of values that an instruction takes from the stack. These are the values that it
asks for, except that a pop takes one without asking. -/
def taken (inst : Instruction) : Nat :=
  if inst = .plain .pop then 1 else inst.arity

/-- The values that an instruction leaves on the stack in place of those it takes. -/
def results (state : State) : Instruction → List Int → List Int
  | plain .load, [address] => [state.memory.read address]
  | plain .push, [] => [state.register]
  | plain .not, [value] => [2 ^ 64 - 1 - value]
  | plain (.binary op), [b, a] => [op.value a b]
  | _, _ => []

/-- The number that an instruction puts into the register, if it does. -/
def registered : Instruction → List Int → Option Int
  | plain .pop, [top] => some top
  | set literal, _ => some literal
  | _, _ => none

/-- The cell that an instruction writes, if it does: the address is popped before the value. -/
def written : Instruction → List Int → Option (Int × Int)
  | plain .store, [value, address] => some (address, value)
  | _, _ => none

/-- The program counter after an instruction. -/
def target (pc : Int) : Instruction → List Int → Int
  | plain .jump, [target] => target
  | plain .halt, _ => pc
  | _, _ => pc + 1

/-- How an instruction that takes the values `args` leads from one state to another, with the
values `rest` below them. -/
structure Effect (inst : Instruction) (before after : State) (rest args : List Int) : Prop where
  /-- The values that are taken are on top. -/
  stack_before : before.stack.toList = rest ++ args
  /-- They are as many as the instruction takes. -/
  length_args : args.length = inst.taken
  /-- The results are in their place. -/
  stack_after : after.stack.toList = rest ++ inst.results before args
  /-- The capacity stays. -/
  capacity_eq : after.stack.capacity = before.stack.capacity
  /-- The register holds what is put into it, or what it held. -/
  register_eq : after.register = (inst.registered args).getD before.register
  /-- Without a cell to write the memory stays. -/
  memory_eq : inst.written args = none → after.memory = before.memory
  /-- With one, this cell is written and all others stay, written or not. -/
  cell?_eq : ∀ address value, inst.written args = some (address, value) → ∀ x,
    after.memory.cell? x = if x = address then some value else before.memory.cell? x
  /-- The program counter is moved. -/
  pc_eq : after.pc = inst.target before.pc args

/-- The state that the tables tell, with the values that are taken and those below them listed from
the top. -/
def performed (inst : Instruction) (before : State) (top rest : List Int) : State where
  pc := inst.target before.pc top.reverse
  register := (inst.registered top.reverse).getD before.register
  stack := { before.stack with values := (inst.results before top.reverse).reverse ++ rest }
  memory := (inst.written top.reverse).elim before.memory fun (address, value) =>
    before.memory.put address value

/-- What the tables tell is an effect, if the values that are taken are on top of the stack. -/
theorem effect_performed {inst : Instruction} {before : State} (top rest : List Int)
    (hvalues : before.stack.values = top ++ rest) (hlength : top.length = inst.taken) :
    inst.Effect before (inst.performed before top rest) rest.reverse top.reverse where
  stack_before := by rw [Stack.toList, hvalues, List.reverse_append]
  length_args := by rw [List.length_reverse, hlength]
  stack_after := by
    simp only [performed, Stack.toList, List.reverse_append, List.reverse_reverse]
  capacity_eq := rfl
  register_eq := rfl
  memory_eq := fun hnone => by rw [performed, hnone, Option.elim_none]
  cell?_eq := fun address value hcell x => by
    simp only [performed, hcell, Option.elim_some, Memory.cell?_put]
  pc_eq := rfl

/-- A transition leads to the state that the tables tell. -/
theorem eq_performed_of_transition {state after : State} {inst : Instruction}
    (hstate : state.WellFormed) (h : inst.transition state state.stack.values = .ok after) :
    ∃ top rest, state.stack.values = top ++ rest ∧ top.length = inst.taken ∧
      after = inst.performed state top rest := by
  have hmem (value : Int) (hvalue : value ∈ state.stack.values) : IsWord value :=
    hstate.isWord_of_mem hvalue
  generalize hvalues : state.stack.values = values at h hmem ⊢
  cases inst with
  | plain op =>
    cases op with
    | nop | halt =>
      subst hvalues
      obtain rfl := Except.ok.inj h
      exact ⟨[], _, rfl, rfl, rfl⟩
    | load =>
      rcases values with _ | ⟨address, rest⟩
      · cases h
      · obtain rfl := Except.ok.inj h
        exact ⟨[address], rest, rfl, rfl, rfl⟩
    | store =>
      rcases values with _ | ⟨address, _ | ⟨value, rest⟩⟩
      · cases h
      · cases h
      · obtain rfl := Except.ok.inj h
        exact ⟨[address, value], rest, rfl, rfl, rfl⟩
    | push =>
      simp only [transition] at h
      split at h
      · obtain rfl := Except.ok.inj h
        exact ⟨[], values, rfl, rfl, rfl⟩
      · cases h
    | pop =>
      rcases values with _ | ⟨top, rest⟩
      · cases h
      · obtain rfl := Except.ok.inj h
        exact ⟨[top], rest, rfl, rfl, rfl⟩
    | jump =>
      rcases values with _ | ⟨target, rest⟩
      · cases h
      · obtain rfl := Except.ok.inj h
        exact ⟨[target], rest, rfl, rfl, rfl⟩
    | not =>
      rcases values with _ | ⟨value, rest⟩
      · cases h
      · obtain rfl := Except.ok.inj h
        rw [Word.complement_of_isWord (hmem value (by simp))]
        exact ⟨[value], rest, rfl, rfl, rfl⟩
    | binary op =>
      rcases values with _ | ⟨a, _ | ⟨b, rest⟩⟩
      · cases h
      · cases h
      · simp only [transition] at h
        cases happly : op.apply? a b with
        | none => simp [happly] at h
        | some value =>
          simp only [happly] at h
          obtain rfl := Except.ok.inj h
          rw [BinaryOp.eq_value_of_apply? (hmem a (by simp)) (hmem b (by simp)) happly]
          exact ⟨[a, b], rest, rfl, rfl, rfl⟩
    | reserved op => cases h
  | set literal =>
    subst hvalues
    obtain rfl := Except.ok.inj h
    exact ⟨[], _, rfl, rfl, rfl⟩
  | unknown code => cases h

end Instruction

/-- What an instruction that is carried out does to a state. It takes as many values from the top of
the stack as it asks for, or one for a pop, and leaves one exact result or none on those below. The
register is changed by a pop and a literal only, and the memory by a store only, in one cell. The
program counter is taken from the stack by a jump, left alone by a halt and moved on by anything
else. -/
theorem effect_of_execute {state after : State} {inst : Instruction}
    (h : execute state inst = .ok after) : ∃ rest args, inst.Effect state after rest args := by
  have hstate := State.wellFormed_of_execute h
  obtain ⟨top, rest, hvalues, hlength, rfl⟩ :=
    Instruction.eq_performed_of_transition hstate (hstate.transition_of_execute h)
  exact ⟨rest.reverse, top.reverse, Instruction.effect_performed top rest hvalues hlength⟩

/-- A store takes the address from the top and the value from below it; it changes a cell that was
written before, and neither another such cell nor one that was not. A difference is taken from the
top. -/
theorem effect_of_execute_of_store :
    let memory := (Memory.empty.put 9 1).put 2 3
    let state : State := { pc := 6, register := 4, stack := { values := [9, 5, 7] }, memory }
    let stored : State :=
      { pc := 7, register := 4, stack := { values := [7] }, memory := memory.put 9 5 }
    let reduced : State := { pc := 7, register := 4, stack := { values := [4, 7] }, memory }
    (execute state (.plain .store) = .ok stored ∧
      ∃ rest args, (Instruction.plain .store).Effect state stored rest args) ∧
    (execute state (.plain (.binary .sub)) = .ok reduced ∧
      ∃ rest args, (Instruction.plain (.binary .sub)).Effect state reduced rest args) := by
  intro memory state stored reduced
  have hstored : execute state (.plain .store) = .ok stored := by rfl
  have hreduced : execute state (.plain (.binary .sub)) = .ok reduced := by rfl
  exact ⟨⟨hstored, effect_of_execute hstored⟩, hreduced, effect_of_execute hreduced⟩

end WordMachine
