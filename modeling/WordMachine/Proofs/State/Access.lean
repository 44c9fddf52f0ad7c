import WordMachine.Proofs.Execution.WordRange

/-!
# States in the hands of others

Others may put any integers into the program counter and the register of a state, use
its stack and its memory with any integers, copy it and execute instructions on it. A
number is checked on its way into the stack and the memory, so these hold words at all
times. The program counter and the register are checked when the state is copied, and an
instruction copies the state once it has found enough values on the stack.
-/

namespace WordMachine

/-- A well-formed stack with room stays well formed with another word on top. -/
theorem Stack.WellFormed.cons {stack : Stack} (hstack : stack.WellFormed) {value : Int}
    (hword : IsWord value) (hroom : (stack.depth : Int) < stack.capacity) :
    { stack with values := value :: stack.values }.WellFormed := by
  refine ⟨fun other hother => ?_, ?_⟩
  · rcases List.mem_cons.mp hother with rfl | hother
    · exact hword
    · exact hstack.1 other hother
  · simp only [Stack.depth, List.length_cons] at hroom ⊢
    omega

/-- A well-formed stack stays well formed without its top value. -/
theorem Stack.WellFormed.tail {stack : Stack} (hstack : stack.WellFormed) {top : Int}
    {rest : List Int} (hvalues : stack.values = top :: rest) :
    { stack with values := rest }.WellFormed := by
  obtain ⟨hwords, hdepth⟩ := hstack
  refine ⟨fun value hvalue => hwords value ?_, ?_⟩
  · rw [hvalues]
    exact List.mem_cons_of_mem top hvalue
  · simp only [Stack.depth, hvalues, List.length_cons] at hdepth ⊢
    omega

namespace State

/-- What others can do with a state. -/
inductive Access where
  /-- Put a number into the program counter. -/
  | setPc (value : Int)
  /-- Put a number into the register. -/
  | setRegister (value : Int)
  /-- Push a number. -/
  | push (value : Int)
  /-- Take the top value. -/
  | pop
  /-- Look at the top value. -/
  | peek
  /-- Read a cell. -/
  | read (address : Int)
  /-- Write a cell. -/
  | write (address value : Int)
  /-- Go on with a copy. -/
  | copy
  /-- Execute the instruction with a code and go on with the state after it. -/
  | execute (code literal : Int)

/-- What an access gives back. -/
inductive Answer where
  /-- No more than that it has been carried out. -/
  | done
  /-- The depth of the stack. -/
  | depth (depth : Nat)
  /-- A number, or none if there is none. -/
  | number (value : Option Int)

/-- Carries out an access. -/
def Access.carryOut : Access → Action State Answer
  | setPc value => do
    modify fun state => { state with pc := value }
    return .done
  | setRegister value => do
    modify fun state => { state with register := value }
    return .done
  | push value => return .depth (← State.push value)
  | pop => return .number (← State.pop)
  | peek => return .number (← get).stack.peek?
  | read address => return .number ((← get).memory.read address)
  | write address value => do
    State.write address value
    return .done
  | copy => do
    set (← ofExcept (← get).copy)
    return .done
  | execute code literal => do
    set (← ofExcept (WordMachine.execute (← get) (.ofCode code literal)))
    return .done

/-- What an access leaves of a state, whether it fails or not. -/
def accessed (state : State) (access : Access) : State :=
  access.carryOut.left state

/-- The state after one access after another. -/
def accessedAll (state : State) (accesses : List Access) : State :=
  accesses.foldl accessed state

/-- Where an access that succeeds leads to. -/
def Access.Leads (before after : State) : Access → Prop
  | setPc value => after = { before with pc := value }
  | setRegister value => after = { before with register := value }
  | push value => IsWord value ∧ (before.stack.depth : Int) < before.stack.capacity ∧
    after = before.withValues (value :: before.stack.values)
  | pop => ∃ top rest, before.stack.values = top :: rest ∧ after = before.withValues rest
  | peek | read _ => after = before
  | write address value => IsWord address ∧ IsWord value ∧
    after = { before with memory := before.memory.put address value }
  | copy => before.WellFormed ∧ after = before
  | execute code literal => WordMachine.execute before (.ofCode code literal) = .ok after

/-- An access fails and leaves the state as it is, or it succeeds and leads on. -/
theorem Access.carryOut_cases (state : State) (access : Access) :
    (∃ failure, access.carryOut state = .error failure state) ∨
      ∃ answer after, access.carryOut state = .ok answer after ∧ access.Leads state after := by
  cases access with
  | setPc value | setRegister value | peek | read address => exact .inr ⟨_, _, rfl, rfl⟩
  | push value =>
    by_cases hword : IsWord value
    · by_cases hroom : (state.stack.depth : Int) < state.stack.capacity
      · have hpush : State.push value state = .ok _ _ := push_of_room hword hroom
        exact .inr ⟨_, _, Action.bind_of_ok hpush _, hword, hroom, rfl⟩
      · have hpush : State.push value state = .error _ _ := push_of_full hword (Int.not_lt.mp hroom)
        exact .inl ⟨_, Action.bind_of_error hpush _⟩
    · have hpush : State.push value state = .error (.range ⟨.stackValue, value⟩) state := by
        rw [State.push, onStack, Stack.push_of_not_isWord hword]
      exact .inl ⟨_, Action.bind_of_error hpush _⟩
  | pop =>
    cases hvalues : state.stack.values with
    | nil =>
      have hpop : State.pop state = .error _ _ := pop_of_nil hvalues
      exact .inl ⟨_, Action.bind_of_error hpop _⟩
    | cons top rest =>
      have hpop : State.pop state = .ok _ _ := pop_of_cons hvalues
      exact .inr ⟨_, _, Action.bind_of_ok hpop _, top, rest, hvalues, rfl⟩
  | write address value =>
    by_cases hcell : IsWord address ∧ IsWord value
    · have hwrite : State.write address value state = .ok _ _ :=
        write_of_isWord hcell.1 hcell.2
      exact .inr ⟨_, _, Action.bind_of_ok hwrite _, hcell.1, hcell.2, rfl⟩
    · obtain ⟨error, herror⟩ : ∃ error,
          Memory.write address value state.memory = .error (.range error) state.memory :=
        Memory.write_of_not_isWord hcell
      have hwrite : State.write address value state = .error (.range error) state := by
        rw [State.write, onMemory, herror]
      exact .inl ⟨_, Action.bind_of_error hwrite _⟩
  | copy =>
    cases hcopy : state.copy with
    | ok copied =>
      refine .inr ⟨.done, copied, ?_, State.copy_eq_ok_iff.mp hcopy⟩
      exact Action.bind_of_ok (Action.ofExcept_of_ok hcopy) _
    | error failure =>
      exact .inl ⟨failure, Action.bind_of_error (Action.ofExcept_of_error hcopy) _⟩
  | execute code literal =>
    cases hexecute : WordMachine.execute state (.ofCode code literal) with
    | ok after =>
      exact .inr ⟨.done, after, Action.bind_of_ok (Action.ofExcept_of_ok hexecute) _, hexecute⟩
    | error failure =>
      exact .inl ⟨failure, Action.bind_of_error (Action.ofExcept_of_error hexecute) _⟩

/-- An access that fails leaves the state as it is. -/
theorem Access.eq_of_carryOut_eq_error {state after : State} {access : Access} {failure : Failure}
    (h : access.carryOut state = .error failure after) : after = state := by
  rcases Access.carryOut_cases state access with ⟨cause, hfails⟩ | ⟨answer, led, hleads, _⟩
  · exact (EStateM.Result.error.inj (h.symm.trans hfails)).2
  · exact nomatch h.symm.trans hleads

/-- Whatever comes of an access, the state stays as it is or is led on. -/
theorem accessed_cases (state : State) (access : Access) :
    state.accessed access = state ∨ access.Leads state (state.accessed access) := by
  unfold accessed Action.left
  rcases Access.carryOut_cases state access with ⟨cause, hfails⟩ | ⟨answer, led, hleads, hled⟩
  · rw [hfails]
    exact .inl rfl
  · rw [hleads]
    exact .inr hled

/-- A state whose stack and memory hold words, on a stack of a given capacity. The program counter
and the register may be any numbers. -/
structure Guarded (capacity : Int) (state : State) : Prop where
  /-- The stack holds words and is no deeper than its capacity. -/
  stack : state.stack.WellFormed
  /-- The addresses and values of the memory are words. -/
  memory : state.memory.WellFormed
  /-- The stack has the capacity. -/
  capacity_eq : state.stack.capacity = capacity

/-- What is wrong with the numbers outside the stack and the memory. The program counter comes
before the register. -/
def rangeError? (state : State) : Option RangeError :=
  if ¬ IsWord state.pc then some ⟨.pc, state.pc⟩
  else if ¬ IsWord state.register then some ⟨.register, state.register⟩
  else none

/-- Nothing is wrong exactly if the program counter and the register are words. -/
theorem rangeError?_eq_none_iff {state : State} :
    state.rangeError? = none ↔ IsWord state.pc ∧ IsWord state.register := by
  unfold rangeError?
  by_cases hpc : IsWord state.pc
  · by_cases hregister : IsWord state.register <;> simp [hpc, hregister]
  · simp [hpc]

/-- A state that is made of checked parts, with a stack of any capacity, is guarded. -/
theorem guarded_of_ofParts {pc register capacity : Int} {values others : List Int}
    {cells : List (Int × Int)} {made : State} {stack : Stack}
    (hmade : ofParts pc register values cells = .ok made)
    (hstack : Stack.ofList others capacity = .ok stack) :
    { made with stack }.Guarded capacity := by
  obtain ⟨_, _, h⟩ := bind_eq_ok_iff.mp hmade
  obtain ⟨_, _, h⟩ := bind_eq_ok_iff.mp h
  obtain ⟨_, _, h⟩ := bind_eq_ok_iff.mp h
  obtain ⟨memory, hmemory, h⟩ := bind_eq_ok_iff.mp h
  obtain rfl := return_eq_ok_iff.mp h
  obtain ⟨hwell, rfl⟩ := Stack.ofList_eq_ok_iff.mp hstack
  exact ⟨hwell, Memory.wellFormed_of_ofList hmemory, rfl⟩

namespace Guarded

variable {capacity : Int} {state : State}

/-- A guarded state whose program counter and register are words is well formed. -/
theorem wellFormed (hstate : state.Guarded capacity) (hnone : state.rangeError? = none) :
    state.WellFormed := by
  obtain ⟨hpc, hregister⟩ := rangeError?_eq_none_iff.mp hnone
  exact ⟨hpc, hregister, hstate.stack, hstate.memory⟩

/-- Copying a guarded state fails on the program counter or the register, or not at all. -/
theorem copy_eq (hstate : state.Guarded capacity) :
    state.copy = state.rangeError?.elim (.ok state) fun error => .error (.range error) := by
  by_cases hpc : IsWord state.pc
  · by_cases hregister : IsWord state.register
    · have hnone : state.rangeError? = none := rangeError?_eq_none_iff.mpr ⟨hpc, hregister⟩
      rw [hnone]
      exact State.copy_eq_ok_iff.mpr ⟨hstate.wellFormed hnone, rfl⟩
    · rw [copy, checkWord_of_isWord hpc, checkWord_of_not_isWord hregister, rangeError?]
      simp [hpc, hregister, Bind.bind, Except.bind]
  · rw [copy, checkWord_of_not_isWord hpc, rangeError?]
    simp [hpc, Bind.bind, Except.bind]

/-- An instruction is kept from being executed on a guarded state by the program counter or the
register, and only if there are enough values on the stack. -/
theorem execute_eq_range_iff (hstate : state.Guarded capacity) {inst : Instruction}
    {error : RangeError} :
    WordMachine.execute state inst = .error (.range error) ↔
      inst.arity ≤ state.stack.depth ∧ state.rangeError? = some error := by
  by_cases harity : state.stack.depth < inst.arity
  · rw [execute_of_lt_arity harity]
    simp [Nat.not_le.mpr harity]
  · have henough := Nat.not_lt.mp harity
    cases hrange : state.rangeError? with
    | none =>
      have hne := (hstate.wellFormed hrange).execute_ne_range inst error
      simp [hne]
    | some found =>
      have hcopy : state.copy = .error (.range found) := by rw [hstate.copy_eq, hrange]; rfl
      simp [WordMachine.execute, harity, henough, hcopy, Bind.bind, Except.bind]

/-- An instruction that is a fault on a guarded state is named by the fault. -/
theorem code_of_execute_eq_fault (hstate : state.Guarded capacity) {inst : Instruction}
    {fault : Fault} (h : WordMachine.execute state inst = .error (.fault fault)) :
    fault.code = some inst.code := by
  by_cases harity : state.stack.depth < inst.arity
  · rw [execute_of_lt_arity harity] at h
    obtain rfl := Failure.fault.inj (Except.error.inj h)
    rfl
  · -- The state can be copied, or there would be a range error instead of the fault.
    have hnone : state.rangeError? = none := by
      refine Option.eq_none_iff_forall_ne_some.mpr fun error hrange => ?_
      rw [hstate.execute_eq_range_iff.mpr ⟨Nat.not_lt.mp harity, hrange⟩] at h
      cases h
    rw [execute_eq_transition (hstate.wellFormed hnone)] at h
    cases htransition : inst.transition state state.stack.values with
    | error kind =>
      rw [htransition] at h
      obtain rfl := Failure.fault.inj (Except.error.inj h)
      rfl
    | ok after =>
      rw [htransition] at h
      cases h

/-- An instruction leads from a guarded state to a guarded state, whatever its literal. -/
theorem execute (hstate : state.Guarded capacity) {inst : Instruction} {after : State}
    (h : WordMachine.execute state inst = .ok after) : after.Guarded capacity := by
  have hwell := wellFormed_of_execute h
  obtain ⟨_, ⟨_, hstack, hmemory⟩, hcapacity⟩ :=
    Instruction.words_of_transition hwell (hwell.transition_of_execute h)
  exact ⟨hstack, hmemory, hcapacity.trans hstate.capacity_eq⟩

/-- An access leads from a guarded state to a guarded state. -/
theorem of_leads (hstate : state.Guarded capacity) {access : Access} {after : State}
    (hleads : access.Leads state after) : after.Guarded capacity := by
  obtain ⟨hstack, hmemory, hcapacity⟩ := hstate
  cases access with
  | setPc value | setRegister value | peek | read address =>
    obtain rfl := hleads
    exact ⟨hstack, hmemory, hcapacity⟩
  | push value =>
    obtain ⟨hword, hroom, rfl⟩ := hleads
    exact ⟨hstack.cons hword hroom, hmemory, hcapacity⟩
  | pop =>
    obtain ⟨top, rest, hvalues, rfl⟩ := hleads
    exact ⟨hstack.tail hvalues, hmemory, hcapacity⟩
  | write address value =>
    obtain ⟨haddress, hvalue, rfl⟩ := hleads
    exact ⟨hstack, hmemory.put haddress hvalue, hcapacity⟩
  | copy =>
    obtain ⟨_, rfl⟩ := hleads
    exact ⟨hstack, hmemory, hcapacity⟩
  | execute code literal => exact Guarded.execute ⟨hstack, hmemory, hcapacity⟩ hleads

/-- A guarded state stays guarded, whether an access succeeds or fails. -/
theorem accessed (hstate : state.Guarded capacity) (access : Access) :
    (state.accessed access).Guarded capacity := by
  rcases state.accessed_cases access with hsame | hleads
  · rw [hsame]
    exact hstate
  · exact hstate.of_leads hleads

/-- A guarded state stays guarded under any number of accesses. -/
theorem accessedAll (hstate : state.Guarded capacity) (accesses : List Access) :
    (state.accessedAll accesses).Guarded capacity := by
  unfold State.accessedAll
  induction accesses generalizing state with
  | nil => exact hstate
  | cons access accesses ih => exact ih (hstate.accessed access)

end Guarded

/-- Whatever others do with a state that was made of checked parts, its stack and its memory hold
words, the stack keeps its capacity and is never deeper, and no address is written down twice. An
access that fails changes nothing. A copy fails exactly if the program counter or the register is no
word. An instruction fails with the same error if it finds enough values on the stack, and comes
out in a state or a fault of its own otherwise. -/
theorem words_of_accessedAll {pc register capacity : Int} {values others : List Int}
    {cells : List (Int × Int)} {made : State} {stack : Stack}
    (hmade : ofParts pc register values cells = .ok made)
    (hstack : Stack.ofList others capacity = .ok stack) (accesses : List Access) :
    let state := { made with stack }.accessedAll accesses
    ((∀ value ∈ state.stack.toList, IsWord value) ∧
      (state.stack.depth : Int) ≤ state.stack.capacity ∧ state.stack.capacity = capacity) ∧
    ((∀ cell ∈ state.memory.entries, IsWord cell.1 ∧ IsWord cell.2) ∧
      (state.memory.entries.map Prod.fst).Nodup) ∧
    (∀ (access : Access) (failure : Failure) (after : State),
      access.carryOut state = .error failure after → after = state) ∧
    (state.copy = state.rangeError?.elim (.ok state) fun error => .error (.range error)) ∧
    ∀ code literal,
      let inst := Instruction.ofCode code literal
      (∀ error, execute state inst = .error (.range error) ↔
        inst.arity ≤ state.stack.depth ∧ state.rangeError? = some error) ∧
      ((∃ error, execute state inst = .error (.range error)) ∨
        (∃ after, execute state inst = .ok after) ∨
        ∃ fault, execute state inst = .error (.fault fault) ∧ fault.code = some inst.code) := by
  intro state
  have hstate : state.Guarded capacity := (guarded_of_ofParts hmade hstack).accessedAll accesses
  refine ⟨⟨fun value hvalue => ?_, hstate.stack.2, hstate.capacity_eq⟩, ⟨fun cell hcell => ?_, ?_⟩,
    fun access failure after => Access.eq_of_carryOut_eq_error, hstate.copy_eq,
    fun code literal => ⟨fun error => hstate.execute_eq_range_iff, ?_⟩⟩
  · exact hstate.stack.1 value (List.mem_reverse.mp hvalue)
  · exact hstate.memory cell (state.memory.entries_perm.mem_iff.mp hcell)
  · exact (state.memory.entries_perm.map Prod.fst).nodup_iff.mpr state.memory.nodup
  · cases hexecute : execute state (.ofCode code literal) with
    | ok after => exact .inr (.inl ⟨after, rfl⟩)
    | error failure =>
      cases failure with
      | range error => exact .inl ⟨error, rfl⟩
      | fault fault => exact .inr (.inr ⟨fault, rfl, hstate.code_of_execute_eq_fault hexecute⟩)

/-- A literal that is no word gets into the register and from there neither onto the stack nor into
a copy, and a sum fails before that for want of values. -/
theorem words_of_accessedAll_of_literal :
    ∃ made stack, ofParts 3 4 [1] [(5, 7), (2, 0), (5, 8)] = .ok made ∧
      Stack.ofList [9] 1 = .ok stack ∧
      let state := { made with stack }.accessedAll
        [.push 2, .setPc (-1), .copy, .pop, .setPc 0, .execute 6 Word.modulus, .push Word.modulus]
      state.register = Word.modulus ∧ state.stack.values = [] ∧
      (state.memory.entries.map Prod.fst).Nodup ∧
      state.copy = .error (.range ⟨.register, Word.modulus⟩) ∧
      execute state (.ofCode 4 0) = .error (.range ⟨.register, Word.modulus⟩) ∧
      ∀ error, execute state (.ofCode 11 0) ≠ .error (.range error) := by
  have hmade : ofParts 3 4 [1] [(5, 7), (2, 0), (5, 8)] =
      .ok { pc := 3, register := 4, stack := { values := [1] }
            memory := { cells := [(5, 8), (2, 0)] } } := rfl
  have hstack : Stack.ofList [9] 1 = .ok { values := [9], capacity := 1 } := rfl
  obtain ⟨_, ⟨_, hnodup⟩, _, hcopy, hexecute⟩ := words_of_accessedAll hmade hstack
    [.push 2, .setPc (-1), .copy, .pop, .setPc 0, .execute 6 Word.modulus, .push Word.modulus]
  refine ⟨_, _, hmade, hstack, rfl, rfl, hnodup, hcopy, ?_, fun error => ?_⟩
  · exact ((hexecute 4 0).1 _).mpr ⟨by decide, rfl⟩
  · exact fun hrange => absurd (((hexecute 11 0).1 error).mp hrange).1 (by decide)

end State

end WordMachine
