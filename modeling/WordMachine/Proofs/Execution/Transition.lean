import WordMachine.Proofs.Memory

/-!
# Execution as a table of transitions

On a well-formed state every check that execution makes on the way succeeds: the
copy, the room for a value that replaces another, and the range of every number
that is stored. What remains is a table that says, for an instruction and the
values on top of the stack, which state comes next or which fault occurs.
-/

namespace WordMachine

namespace State

/-- The state with other values on its stack, the top first. -/
def withValues (state : State) (values : List Int) : State :=
  { state with stack := { state.stack with values } }

@[simp] theorem withValues_memory (state : State) (values : List Int) :
    (state.withValues values).memory = state.memory := rfl

/-- Popping takes the top value. -/
theorem pop_of_cons {state : State} {top : Int} {rest : List Int}
    (h : state.stack.values = top :: rest) : pop state = .ok top (state.withValues rest) := by
  simp only [pop, onStack, Stack.pop_of_cons h, withValues]

/-- Popping fails if there is no value. -/
theorem pop_of_nil {state : State} (h : state.stack.values = []) :
    pop state = .error (.fault { kind := .stackEmpty }) state := by
  simp only [pop, onStack, Stack.pop_of_nil h]

/-- Pushing a word succeeds if there is room. -/
theorem push_of_room {state : State} {value : Int} (hvalue : IsWord value)
    (hroom : (state.stack.values.length : Int) < state.stack.capacity) :
    push value state =
      .ok (state.stack.depth + 1) (state.withValues (value :: state.stack.values)) := by
  simp only [push, onStack, Stack.push_of_room hvalue hroom, withValues]

/-- Pushing a word is a fault if there is no room. -/
theorem push_of_full {state : State} {value : Int} (hvalue : IsWord value)
    (hfull : state.stack.capacity ≤ (state.stack.values.length : Int)) :
    push value state = .error (.fault { kind := .stackFull }) state := by
  simp only [push, onStack, Stack.push_of_full hvalue hfull]

/-- Words are written. -/
theorem write_of_isWord {state : State} {address value : Int} (haddress : IsWord address)
    (hvalue : IsWord value) :
    write address value state = .ok () { state with memory := state.memory.put address value } := by
  simp only [write, onMemory, Memory.write_of_isWord haddress hvalue]

end State

/-- What an instruction makes of a well-formed state: the state after it, or the kind of
fault. The values of the stack are given with the top first. -/
def Instruction.transition (state : State) : Instruction → List Int → Except FaultKind State
  | plain .nop, _ => .ok state.next
  | plain .halt, _ => .ok state
  | plain .load, address :: rest =>
    .ok (state.withValues (state.memory.read address :: rest)).next
  | plain .store, address :: value :: rest =>
    .ok { state.withValues rest with memory := state.memory.put address value }.next
  | plain .push, values =>
    if (values.length : Int) < state.stack.capacity then
      .ok (state.withValues (state.register :: values)).next
    else .error .stackFull
  | plain .pop, [] => .error .stackEmpty
  | plain .pop, top :: rest => .ok { state.withValues rest with register := top }.next
  | plain .jump, target :: rest => .ok { state.withValues rest with pc := target }
  | plain .not, value :: rest => .ok (state.withValues (Word.complement value :: rest)).next
  | plain (.binary op), a :: b :: rest =>
    match op.apply? a b with
    | none => .error .arithmeticOverflow
    | some value => .ok (state.withValues (value :: rest)).next
  | plain (.reserved _), _ => .error .illegalInstruction
  | set literal, _ => .ok { state with register := literal }.next
  | unknown _, _ => .error .illegalInstruction
  | _, _ => .error .insufficientArguments

/-- A value that takes the place of others finds room on the stack. -/
theorem State.WellFormed.push_of_length_lt {state : State} (hstate : state.WellFormed)
    {value : Int} (rest : List Int) (hvalue : IsWord value)
    (hlt : rest.length < state.stack.values.length) :
    State.push value (state.withValues rest) =
      .ok (rest.length + 1) (state.withValues (value :: rest)) := by
  have hdepth : (state.stack.values.length : Int) ≤ state.stack.capacity := hstate.2.2.1.2
  have hroom : (rest.length : Int) < state.stack.capacity := by omega
  exact State.push_of_room hvalue hroom

/-- A stack with two values or more shows its two topmost ones. -/
theorem exists_cons_cons_of_two_le {values : List Int} (h : 2 ≤ values.length) :
    ∃ a b rest, values = a :: b :: rest := by
  obtain ⟨a, tail, rfl⟩ := List.exists_cons_of_length_pos (Nat.lt_of_lt_of_le Nat.zero_lt_two h)
  obtain ⟨b, rest, rfl⟩ := List.exists_cons_of_length_pos (Nat.lt_of_succ_lt_succ h)
  exact ⟨a, b, rest, rfl⟩

/-- With enough values on a well-formed state, the effect of an operation is the one in the
table: no number that it stores is refused, and whatever it pushes after popping has room. -/
theorem Operation.exec_effect {state : State} {op : Operation} (hstate : state.WellFormed)
    (harity : op.arity ≤ state.stack.values.length) :
    op.effect.exec state = (Instruction.transition state (.plain op) state.stack.values).mapError
      fun kind => .fault { kind } := by
  obtain ⟨_, hregister, ⟨hwords, _⟩, hmemory⟩ := id hstate
  unfold Action.exec
  cases op with
  | nop => rfl
  | halt => rfl
  | load =>
    obtain ⟨address, rest, hvalues⟩ := List.exists_cons_of_length_pos harity
    have hpush := hstate.push_of_length_lt rest (hmemory.isWord_read address)
      (by simp [hvalues])
    rw [effect, Action.bind_of_ok (State.pop_of_cons hvalues), Action.get_bind,
      State.withValues_memory, Action.bind_of_ok hpush, hvalues]
    rfl
  | store =>
    obtain ⟨address, value, rest, hvalues⟩ := exists_cons_cons_of_two_le harity
    rw [hvalues] at hwords
    have hpop : State.pop (state.withValues (value :: rest)) = .ok value (state.withValues rest) :=
      State.pop_of_cons rfl
    have hwrite : State.write address value (state.withValues rest) = .ok () _ :=
      State.write_of_isWord (hwords address (by simp)) (hwords value (by simp))
    rw [effect, Action.bind_of_ok (State.pop_of_cons hvalues), Action.bind_of_ok hpop,
      Action.bind_of_ok hwrite, hvalues]
    rfl
  | push =>
    rw [effect, Action.get_bind]
    by_cases hroom : (state.stack.values.length : Int) < state.stack.capacity
    · rw [Action.bind_of_ok (State.push_of_room hregister hroom), Instruction.transition,
        if_pos hroom]
      rfl
    · have hpush := State.push_of_full hregister (Int.not_lt.mp hroom)
      rw [Action.bind_of_error hpush, Instruction.transition, if_neg hroom]
      rfl
  | pop =>
    cases hvalues : state.stack.values with
    | nil =>
      rw [effect, Action.bind_of_error (State.pop_of_nil hvalues)]
      rfl
    | cons top rest =>
      rw [effect, Action.bind_of_ok (State.pop_of_cons hvalues)]
      rfl
  | jump =>
    obtain ⟨target, rest, hvalues⟩ := List.exists_cons_of_length_pos harity
    rw [effect, Action.bind_of_ok (State.pop_of_cons hvalues), hvalues]
    rfl
  | not =>
    obtain ⟨value, rest, hvalues⟩ := List.exists_cons_of_length_pos harity
    have hpush := hstate.push_of_length_lt rest (Word.isWord_complement value)
      (by simp [hvalues])
    rw [effect, Action.bind_of_ok (State.pop_of_cons hvalues), Action.bind_of_ok hpush, hvalues]
    rfl
  | binary op =>
    obtain ⟨a, b, rest, hvalues⟩ := exists_cons_cons_of_two_le harity
    rw [hvalues] at hwords
    have hpop : State.pop (state.withValues (b :: rest)) = .ok b (state.withValues rest) :=
      State.pop_of_cons rfl
    rw [effect, Action.bind_of_ok (State.pop_of_cons hvalues), Action.bind_of_ok hpop, hvalues,
      Instruction.transition]
    cases happly : op.apply? a b with
    | none => rfl
    | some value =>
      have hvalue := BinaryOp.isWord_of_apply? (hwords a (by simp)) (hwords b (by simp)) happly
      have hlt : rest.length < state.stack.values.length := by
        rw [hvalues, List.length_cons, List.length_cons]
        omega
      have hpush := hstate.push_of_length_lt rest hvalue hlt
      simp only [Action.bind_of_ok hpush]
      rfl
  | reserved op => rfl

/-- With too few values there is no transition. -/
theorem Instruction.transition_of_lt_arity {state : State} {inst : Instruction}
    {values : List Int} (harity : values.length < inst.arity) :
    inst.transition state values = .error .insufficientArguments := by
  cases inst with
  | plain op =>
    change values.length < op.arity at harity
    cases op with
    | load | jump | not =>
      obtain rfl := List.length_eq_zero_iff.mp (Nat.lt_one_iff.mp harity)
      rfl
    | store | binary op =>
      rcases values with _ | ⟨a, _ | ⟨b, rest⟩⟩
      · rfl
      · rfl
      · simp only [Operation.arity, List.length_cons] at harity
        omega
    | nop | halt | push | pop | reserved op => exact absurd harity (Nat.not_lt_zero _)
  | set literal => exact absurd harity (Nat.not_lt_zero _)
  | unknown code => exact absurd harity (Nat.not_lt_zero _)

/-- A state with too few values is refused before anything else happens. -/
theorem execute_of_lt_arity {state : State} {inst : Instruction}
    (harity : state.stack.values.length < inst.arity) :
    execute state inst =
      .error (.fault { kind := .insufficientArguments, code := some inst.code }) := by
  have hshort : state.stack.depth < inst.arity := harity
  simp [execute, hshort, throw, throwThe, MonadExceptOf.throw]

/-- A well-formed state with enough values is handed to the instruction as it is. -/
theorem execute_of_arity_le {state : State} {inst : Instruction} (hstate : state.WellFormed)
    (harity : inst.arity ≤ state.stack.values.length) :
    execute state inst = (inst.effect.exec state).mapError (·.withCode inst.code) := by
  have hcopy : state.copy = .ok state := State.copy_eq_ok_iff.mpr ⟨hstate, rfl⟩
  have hnot : ¬ state.stack.depth < inst.arity := Nat.not_lt.mpr harity
  simp [execute, hnot, hcopy, Bind.bind, Except.bind]

/-- On a well-formed state execution follows the table, and a fault carries the code of the
instruction. In particular no number is found outside the word range. -/
theorem execute_eq_transition {state : State} (hstate : state.WellFormed) (inst : Instruction) :
    execute state inst = (inst.transition state state.stack.values).mapError
      fun kind => .fault { kind, code := some inst.code } := by
  by_cases harity : state.stack.values.length < inst.arity
  · rw [execute_of_lt_arity harity, Instruction.transition_of_lt_arity harity]
    rfl
  · have hle := Nat.not_lt.mp harity
    rw [execute_of_arity_le hstate hle]
    cases inst with
    | plain op =>
      rw [Instruction.effect, Operation.exec_effect hstate hle]
      cases Instruction.transition state (.plain op) state.stack.values with
      | error kind => rfl
      | ok after => rfl
    | set literal => rfl
    | unknown code => rfl

/-- A halt leaves a well-formed state as it is. -/
theorem execute_halt {state : State} (hstate : state.WellFormed) :
    execute state (.plain .halt) = .ok state := by
  rw [execute_eq_transition hstate]
  rfl

end WordMachine
