import WordMachine.Proofs.Execution.Transition

/-!
# Execution keeps the words

A well-formed state holds words only, on a stack that is no deeper than its
capacity. An instruction whose literal is a word keeps all of this, with one
exception: the program counter leaves the range when it moves on from the largest
word. A program that has no instruction there never gets into this case.
-/

namespace WordMachine

namespace State.WellFormed

variable {state : State}

/-- Words that fit the capacity may take the place of the values of the stack. -/
theorem withValues (hstate : state.WellFormed) {values : List Int}
    (hwords : ∀ value ∈ values, IsWord value)
    (hdepth : (values.length : Int) ≤ state.stack.capacity) :
    (state.withValues values).WellFormed :=
  ⟨hstate.1, hstate.2.1, ⟨hwords, hdepth⟩, hstate.2.2.2⟩

/-- What lies below some values of the stack may take the place of all of them. -/
theorem withRest (hstate : state.WellFormed) (taken : List Int) {rest : List Int}
    (hvalues : state.stack.values = taken ++ rest) : (state.withValues rest).WellFormed := by
  obtain ⟨hwords, hdepth⟩ := hstate.2.2.1
  simp only [Stack.depth, hvalues, List.length_append] at hdepth
  refine hstate.withValues (fun value hvalue => ?_) (by omega)
  exact hwords value (by rw [hvalues]; exact List.mem_append_right taken hvalue)

/-- A word may take the place of one value or more. -/
theorem withTop (hstate : state.WellFormed) {value : Int} (taken : List Int) {rest : List Int}
    (hvalues : state.stack.values = taken ++ rest) (htaken : 0 < taken.length)
    (hvalue : IsWord value) : (state.withValues (value :: rest)).WellFormed := by
  have hrest : (state.withValues rest).WellFormed := hstate.withRest taken hvalues
  have hdepth : (state.stack.values.length : Int) ≤ state.stack.capacity := hstate.2.2.1.2
  simp only [hvalues, List.length_append] at hdepth
  refine hstate.withValues (fun other hother => ?_) (by simp only [List.length_cons]; omega)
  rcases List.mem_cons.mp hother with rfl | hother
  · exact hvalue
  · exact hrest.2.2.1.1 other hother

/-- A word may be stored at a word. -/
theorem withCell (hstate : state.WellFormed) {address value : Int} (haddress : IsWord address)
    (hvalue : IsWord value) :
    { state with memory := state.memory.put address value }.WellFormed :=
  ⟨hstate.1, hstate.2.1, hstate.2.2.1, hstate.2.2.2.put haddress hvalue⟩

/-- A word may be put into the register. -/
theorem withRegister (hstate : state.WellFormed) {value : Int} (hvalue : IsWord value) :
    { state with register := value }.WellFormed :=
  ⟨hstate.1, hvalue, hstate.2.2⟩

/-- The values that an instruction takes from a well-formed stack are words. -/
theorem isWord_of_mem (hstate : state.WellFormed) {value : Int}
    (hvalue : value ∈ state.stack.values) : IsWord value :=
  hstate.2.2.1.1 value hvalue

end State.WellFormed

/-- After an instruction the stack and the memory hold words, the stack fits its old capacity,
the register holds a word unless it was set to another literal, and the program counter is a word
unless it has moved on beyond the range. -/
theorem Instruction.words_of_transition {state after : State} {inst : Instruction}
    (hstate : state.WellFormed) (h : inst.transition state state.stack.values = .ok after) :
    (IsWord after.pc ∨ after.pc = state.pc + 1) ∧
      ((inst.InRange → IsWord after.register) ∧ after.stack.WellFormed ∧ after.memory.WellFormed) ∧
      after.stack.capacity = state.stack.capacity := by
  have hmem (value : Int) (hvalue : value ∈ state.stack.values) : IsWord value :=
    hstate.isWord_of_mem hvalue
  -- All but a literal put a word into the register or leave it alone.
  have hwords {register contents : Prop} (h : register ∧ contents) :
      (inst.InRange → register) ∧ contents :=
    ⟨fun _ => h.1, h.2⟩
  generalize hvalues : state.stack.values = values at h hmem
  cases inst with
  | plain op =>
    cases op with
    | nop =>
      obtain rfl := Except.ok.inj h
      exact ⟨.inr rfl, hwords hstate.2, rfl⟩
    | halt =>
      obtain rfl := Except.ok.inj h
      exact ⟨.inl hstate.1, hwords hstate.2, rfl⟩
    | load =>
      rcases values with _ | ⟨address, rest⟩
      · cases h
      · obtain rfl := Except.ok.inj h
        have hread := hstate.2.2.2.isWord_read address
        have hafter := hstate.withTop [address] hvalues Nat.zero_lt_one hread
        exact ⟨.inr rfl, hwords hafter.2, rfl⟩
    | store =>
      rcases values with _ | ⟨address, _ | ⟨value, rest⟩⟩
      · cases h
      · cases h
      · obtain rfl := Except.ok.inj h
        have hrest := hstate.withRest [address, value] hvalues
        have hafter := hrest.withCell (hmem address (by simp)) (hmem value (by simp))
        exact ⟨.inr rfl, hwords hafter.2, rfl⟩
    | push =>
      simp only [transition] at h
      split at h
      · rename_i hroom
        obtain rfl := Except.ok.inj h
        have hafter : (state.withValues (state.register :: values)).WellFormed := by
          refine hstate.withValues (fun value hvalue => ?_) (by simp only [List.length_cons]; omega)
          rcases List.mem_cons.mp hvalue with rfl | hvalue
          · exact hstate.2.1
          · exact hmem value hvalue
        exact ⟨.inr rfl, hwords hafter.2, rfl⟩
      · cases h
    | pop =>
      rcases values with _ | ⟨top, rest⟩
      · cases h
      · obtain rfl := Except.ok.inj h
        have hrest := hstate.withRest [top] hvalues
        have hafter := hrest.withRegister (hmem top (by simp))
        exact ⟨.inr rfl, hwords hafter.2, rfl⟩
    | jump =>
      rcases values with _ | ⟨target, rest⟩
      · cases h
      · obtain rfl := Except.ok.inj h
        have hrest := hstate.withRest [target] hvalues
        exact ⟨.inl (hmem target (by simp)), hwords hrest.2, rfl⟩
    | not =>
      rcases values with _ | ⟨value, rest⟩
      · cases h
      · obtain rfl := Except.ok.inj h
        have hafter := hstate.withTop [value] hvalues Nat.zero_lt_one
          (Word.isWord_complement value)
        exact ⟨.inr rfl, hwords hafter.2, rfl⟩
    | binary op =>
      rcases values with _ | ⟨a, _ | ⟨b, rest⟩⟩
      · cases h
      · cases h
      · simp only [transition] at h
        cases happly : op.apply? a b with
        | none => simp [happly] at h
        | some value =>
          simp only [happly] at h
          obtain rfl := Except.ok.inj h
          have hvalue := BinaryOp.isWord_of_apply? (hmem a (by simp)) (hmem b (by simp)) happly
          have hafter := hstate.withTop [a, b] hvalues Nat.zero_lt_two hvalue
          exact ⟨.inr rfl, hwords hafter.2, rfl⟩
    | reserved op => cases h
  | set literal =>
    obtain rfl := Except.ok.inj h
    exact ⟨.inr rfl, ⟨id, hstate.2.2⟩, rfl⟩
  | unknown code => cases h

/-- A state on which an instruction has been executed could be copied. -/
theorem State.wellFormed_of_execute {state after : State} {inst : Instruction}
    (h : WordMachine.execute state inst = .ok after) : state.WellFormed := by
  unfold WordMachine.execute at h
  split at h
  · exact (throw_ne_ok h).elim
  · obtain ⟨copied, hcopy, _⟩ := bind_eq_ok_iff.mp h
    exact (State.copy_eq_ok_iff.mp hcopy).1

/-- What execution leads to is a transition. -/
theorem State.WellFormed.transition_of_execute {state after : State} {inst : Instruction}
    (hstate : state.WellFormed) (h : WordMachine.execute state inst = .ok after) :
    inst.transition state state.stack.values = .ok after := by
  rw [execute_eq_transition hstate] at h
  cases htransition : inst.transition state state.stack.values with
  | error kind =>
    rw [htransition] at h
    cases h
  | ok moved =>
    rw [htransition] at h
    exact congrArg Except.ok (Except.ok.inj h)

/-- Executing an instruction below the largest word keeps a state well formed, and its stack
keeps the capacity. -/
theorem State.WellFormed.execute {state after : State} {inst : Instruction}
    (hstate : state.WellFormed) (hpc : state.pc < Word.max) (hinst : inst.InRange)
    (h : WordMachine.execute state inst = .ok after) :
    after.WellFormed ∧ after.stack.capacity = state.stack.capacity := by
  obtain ⟨hmoved, ⟨hregister, hcontents⟩, hcapacity⟩ :=
    Instruction.words_of_transition hstate (hstate.transition_of_execute h)
  have hword : IsWord after.pc := by
    rcases hmoved with hword | hnext
    · exact hword
    · obtain ⟨hnonneg, _⟩ := hstate.1
      rw [hnext]
      exact ⟨by omega, by omega⟩
  exact ⟨⟨hword, hregister hinst, hcontents⟩, hcapacity⟩

/-- An instruction never finds a number outside the word range in a well-formed state. -/
theorem State.WellFormed.execute_ne_range {state : State} (hstate : state.WellFormed)
    (inst : Instruction) (error : RangeError) :
    WordMachine.execute state inst ≠ .error (.range error) := by
  rw [execute_eq_transition hstate]
  intro hrange
  cases htransition : inst.transition state state.stack.values with
  | error kind =>
    rw [htransition] at hrange
    cases hrange
  | ok after =>
    rw [htransition] at hrange
    cases hrange

end WordMachine
