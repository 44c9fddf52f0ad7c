import WordMachine.Proofs.Machine.Refinement

/-!
# Values below the stack

No instruction looks below the values that it takes. A run on a stack that stands on
top of other values, with as much more room, therefore goes in lock step with the run
on the stack alone: the values below stay where they are, and nothing else differs.
Only a run that ends for want of values may go on where there are some below.
-/

namespace WordMachine

/-- A stack on top of other values, which are given from bottom to top. There is as much room
above it as before. -/
def Stack.above (below : List Int) (stack : Stack) : Stack where
  values := (below ++ stack.toList).reverse
  capacity := stack.capacity + below.length

/-- The values below come last when the top comes first. -/
theorem Stack.values_above (below : List Int) (stack : Stack) :
    (stack.above below).values = stack.values ++ below.reverse := by
  simp [above, toList]

/-- A stack of words on top of words is well formed. -/
theorem Stack.WellFormed.above {below : List Int} {stack : Stack} (hstack : stack.WellFormed)
    (hbelow : ∀ value ∈ below, IsWord value) : (stack.above below).WellFormed := by
  obtain ⟨hwords, hdepth⟩ := hstack
  refine ⟨fun value hvalue => ?_, ?_⟩
  · rw [Stack.values_above] at hvalue
    rcases List.mem_append.mp hvalue with hvalue | hvalue
    · exact hwords value hvalue
    · exact hbelow value (List.mem_reverse.mp hvalue)
  · simp only [Stack.depth, Stack.values_above, List.length_append, List.length_reverse]
    simp only [Stack.depth] at hdepth
    change ((stack.values.length + below.length : Nat) : Int) ≤ stack.capacity + below.length
    omega

/-- A state whose stack stands on top of other values, which are given from bottom to top. -/
def State.above (below : List Int) (state : State) : State :=
  { state with stack := state.stack.above below }

/-- A well-formed state stays well formed on top of words. -/
theorem State.WellFormed.above {below : List Int} {state : State} (hstate : state.WellFormed)
    (hbelow : ∀ value ∈ below, IsWord value) : (state.above below).WellFormed :=
  ⟨hstate.1, hstate.2.1, hstate.2.2.1.above hbelow, hstate.2.2.2⟩

/-- The values on top may be exchanged before or after others are put below. -/
theorem State.above_withValues (below values : List Int) (state : State) :
    (state.withValues values).above below =
      (state.above below).withValues (values ++ below.reverse) := by
  simp only [State.above, State.withValues, Stack.above, Stack.toList, List.reverse_append,
    List.reverse_reverse]

/-- Whether a fault of this kind can be due to a want of values on the stack. -/
def FaultKind.lacksValues : FaultKind → Bool
  | insufficientArguments | stackEmpty => true
  | stackFull | arithmeticOverflow | illegalInstruction => false

/-- Whether a run has ended for want of values on the stack. -/
def Outcome.lacksValues : Outcome → Bool
  | faulted fault => fault.kind.lacksValues
  | halted | endOfProgram => false

/-- An instruction that does not lack values does the same above other values, whether it leads
to another state or is a fault. -/
theorem Instruction.transition_above {state : State} {inst : Instruction} (below : List Int)
    (henough : ∀ kind, inst.transition state state.stack.values = .error kind →
      kind.lacksValues = false) :
    inst.transition (state.above below) (state.above below).stack.values =
      (inst.transition state state.stack.values).map (State.above below) := by
  change inst.transition _ (state.stack.above below).values = _
  rw [Stack.values_above]
  have harguments : inst.transition state state.stack.values ≠ .error .insufficientArguments :=
    fun herror => nomatch henough _ herror
  have hempty : inst.transition state state.stack.values ≠ .error .stackEmpty :=
    fun herror => nomatch henough _ herror
  cases inst with
  | plain op =>
    cases op with
    | nop => rfl
    | halt => rfl
    | load =>
      rcases hvalues : state.stack.values with _ | ⟨address, rest⟩
      · exact absurd (by rw [hvalues]; rfl) harguments
      · have hafter := State.above_withValues below (state.memory.read address :: rest) state
        exact congrArg (fun after => Except.ok after.next) hafter.symm
    | store =>
      rcases hvalues : state.stack.values with _ | ⟨address, _ | ⟨value, rest⟩⟩
      · exact absurd (by rw [hvalues]; rfl) harguments
      · exact absurd (by rw [hvalues]; rfl) harguments
      · have hafter := State.above_withValues below rest state
        exact congrArg (fun after : State => Except.ok
          { after with memory := state.memory.put address value }.next) hafter.symm
    | push =>
      -- There is room above the values below exactly if there was room without them.
      have hroom : (((state.stack.values ++ below.reverse).length : Nat) : Int) <
          (state.above below).stack.capacity ↔
            (state.stack.values.length : Int) < state.stack.capacity := by
        change _ < state.stack.capacity + (below.length : Int) ↔ _
        simp only [List.length_append, List.length_reverse]
        omega
      have hafter := State.above_withValues below (state.register :: state.stack.values) state
      simp only [transition, hroom]
      split
      · exact congrArg (fun after => Except.ok after.next) hafter.symm
      · rfl
    | pop =>
      rcases hvalues : state.stack.values with _ | ⟨top, rest⟩
      · exact absurd (by rw [hvalues]; rfl) hempty
      · have hafter := State.above_withValues below rest state
        exact congrArg (fun after : State => Except.ok { after with register := top }.next)
          hafter.symm
    | jump =>
      rcases hvalues : state.stack.values with _ | ⟨target, rest⟩
      · exact absurd (by rw [hvalues]; rfl) harguments
      · have hafter := State.above_withValues below rest state
        exact congrArg (fun after : State => Except.ok { after with pc := target }) hafter.symm
    | not =>
      rcases hvalues : state.stack.values with _ | ⟨value, rest⟩
      · exact absurd (by rw [hvalues]; rfl) harguments
      · have hafter := State.above_withValues below (Word.complement value :: rest) state
        exact congrArg (fun after => Except.ok after.next) hafter.symm
    | binary op =>
      rcases hvalues : state.stack.values with _ | ⟨a, _ | ⟨b, rest⟩⟩
      · exact absurd (by rw [hvalues]; rfl) harguments
      · exact absurd (by rw [hvalues]; rfl) harguments
      · simp only [List.cons_append, transition]
        cases op.apply? a b with
        | none => rfl
        | some value =>
          have hafter := State.above_withValues below (value :: rest) state
          exact congrArg (fun after => Except.ok after.next) hafter.symm
    | reserved op => rfl
  | set literal => rfl
  | unknown code => rfl

/-- Executing an instruction on a well-formed state is the same above other words, unless there
is a want of values. -/
theorem State.WellFormed.execute_above {state : State} {below : List Int} {inst : Instruction}
    (hstate : state.WellFormed) (hbelow : ∀ value ∈ below, IsWord value)
    (henough : ∀ fault, WordMachine.execute state inst = .error (.fault fault) →
      fault.kind.lacksValues = false) :
    WordMachine.execute (state.above below) inst =
      (WordMachine.execute state inst).map (State.above below) := by
  rw [execute_eq_transition hstate] at henough ⊢
  rw [execute_eq_transition (hstate.above hbelow), Instruction.transition_above below]
  · cases inst.transition state state.stack.values with
    | error kind => rfl
    | ok after => rfl
  · intro kind hkind
    rw [hkind] at henough
    exact henough _ rfl

namespace Progress

/-- A run whose state is on top of other values. -/
def above (below : List Int) : Progress → Progress
  | running steps state => .running steps (state.above below)
  | ended result => .ended { result with state := result.state.above below }
  | stuck steps state error => .stuck steps (state.above below) error

/-- Whether a run has ended for want of values on the stack. -/
def lacksValues : Progress → Bool
  | ended result => result.outcome.lacksValues
  | running _ _ | stuck _ _ _ => false

@[simp] theorem steps_above (below : List Int) (progress : Progress) :
    (progress.above below).steps = progress.steps := by
  cases progress <;> rfl

@[simp] theorem state_above (below : List Int) (progress : Progress) :
    (progress.above below).state = progress.state.above below := by
  cases progress <;> rfl

variable {program : Program} {start : State} {below : List Int}

/-- One more instruction does the same above other values, unless it lacks values. -/
theorem next_above (hbelow : ∀ value ∈ below, IsWord value) {steps : Nat} {state : State}
    (hstate : state.WellFormed)
    (henough : ((running steps state).next program).lacksValues = false) :
    ((running steps state).above below).next program =
      ((running steps state).next program).above below := by
  have hpc : (state.above below).pc = state.pc := rfl
  simp only [above, next, hpc] at henough ⊢
  cases hinst : program[state.pc.toNat]? with
  | none => rfl
  | some inst =>
    simp only [hinst] at henough ⊢
    have hvalues (fault : Fault) (hfault : execute state inst = .error (.fault fault)) :
        fault.kind.lacksValues = false := by
      simp only [hfault] at henough
      exact henough
    have hexecute := hstate.execute_above hbelow hvalues
    rw [hexecute]
    cases execute state inst with
    | error failure =>
      cases failure with
      | fault cause => rfl
      | range error => rfl
    | ok after =>
      simp only [Except.map]
      split
      · rfl
      · rfl

/-- A run goes in lock step with the run above other values until it lacks values. -/
theorem after_above (hprogram : program.Admissible) (hstart : start.WellFormed)
    (hbelow : ∀ value ∈ below, IsWord value) {n : Nat}
    (henough : (after program start n).lacksValues = false) :
    after program (start.above below) n = (after program start n).above below := by
  induction n with
  | zero => rfl
  | succ n ih =>
    have hsound := after_sound hprogram hstart n
    rw [after, after]
    rw [after] at henough
    cases hprevious : after program start n with
    | running steps state =>
      rw [hprevious] at ih hsound henough
      rw [ih rfl]
      exact next_above hbelow hsound.1 henough
    | ended result =>
      rw [hprevious] at ih henough
      rw [ih henough]
      rfl
    | stuck steps state error =>
      rw [hprevious] at hsound
      exact hsound.elim

/-- A run that has executed every instruction that was due does not lack values. -/
theorem lacksValues_of_steps {n : Nat} (hsteps : (after program start n).steps = n) :
    (after program start n).lacksValues = false := by
  cases hprogress : after program start n with
  | running steps state => rfl
  | ended result =>
    rw [hprogress] at hsteps
    obtain ⟨hdue, _⟩ := Program.due_of_after_ended hprogress
    simp only [Progress.steps] at hsteps
    -- A fault would have been found when one more instruction was due.
    have hhalted : result.outcome = .halted := by
      refine Decidable.byContradiction fun houtcome => ?_
      simp only [Result.due, houtcome, if_false] at hdue
      omega
    simp only [lacksValues, hhalted, Outcome.lacksValues]
  | stuck steps state error => rfl

end Progress

namespace Program

variable {program : Program} {start : State} {below : List Int}

/-- Whatever a run reaches is reached above other values. -/
theorem Reaches.above (hprogram : program.Admissible) (hstart : start.WellFormed)
    (hbelow : ∀ value ∈ below, IsWord value) {n : Nat} {state : State}
    (h : program.Reaches start n state) :
    program.Reaches (start.above below) n (state.above below) := by
  obtain ⟨hsteps, hstate⟩ := h
  have hafter := Progress.after_above hprogram hstart hbelow
    (Progress.lacksValues_of_steps hsteps)
  refine ⟨?_, ?_⟩
  · rw [hafter, Progress.steps_above, hsteps]
  · rw [hafter, Progress.state_above, hstate]

/-- A run that does not end for want of values ends in the same way above other values. -/
theorem Ends.above (hprogram : program.Admissible) (hstart : start.WellFormed)
    (hbelow : ∀ value ∈ below, IsWord value) {result : Result} (h : program.Ends start result)
    (henough : result.outcome.lacksValues = false) :
    program.Ends (start.above below) { result with state := result.state.above below } := by
  obtain ⟨n, hn⟩ := h
  refine ⟨n, ?_⟩
  rw [Progress.after_above hprogram hstart hbelow (by rw [hn]; exact henough), hn]
  rfl

end Program

namespace Machine

/-- A run on a stack that stands on top of other words goes in lock step with the run on the
stack alone. It executes as many instructions and reaches the same states, with the values below
untouched. If the run on the stack alone ends otherwise than for want of values, the run above
the other values ends in the same way. A machine whose hooks do not fail shows this step by
step. -/
theorem runs_alike_above {program : Program} {start : State} {below : List Int}
    (hprogram : program.Admissible) (hstart : start.WellFormed)
    (hbelow : ∀ value ∈ below, IsWord value) :
    (∀ n state, program.Reaches start n state →
      program.Reaches (start.above below) n (state.above below)) ∧
    (∀ result, program.Ends start result → result.outcome.lacksValues = false →
      program.Ends (start.above below) { result with state := result.state.above below }) ∧
    ∃ fresh raised, load program start = .ok fresh ∧ load program (start.above below) = .ok raised ∧
      ∀ listener, listener.All Hook.Quiet → ∀ n,
        let m := (fresh.listen listener).afterSteps n
        let other := (raised.listen listener).afterSteps n
        (m.steps = n → other.steps = n ∧ other.state = m.state.above below) ∧
        ∀ result, (step m).value = .ok (some result) → result.outcome.lacksValues = false →
          (step other).value = .ok (some { result with state := result.state.above below }) := by
  have hraised := hstart.above hbelow
  refine ⟨fun n state h => h.above hprogram hstart hbelow,
    fun result h henough => h.above hprogram hstart hbelow henough,
    _, _, load_of_wellFormed program hstart, load_of_wellFormed program hraised, ?_⟩
  intro listener hlistener n m other
  have hfresh := (tracks_listen_of_new program start hlistener).calm
  have hother := (tracks_listen_of_new program (start.above below) hlistener).calm
  have hat := afterSteps_at hprogram hstart rfl hfresh (j := 0) ⟨rfl, rfl, rfl⟩ n
  have hatOther := afterSteps_at hprogram hraised rfl hother (j := 0) ⟨rfl, rfl, rfl⟩ n
  have hanswer := step_afterSteps hprogram hstart rfl hfresh (j := 0) ⟨rfl, rfl, rfl⟩ n
  have hanswerOther := step_afterSteps hprogram hraised rfl hother (j := 0) ⟨rfl, rfl, rfl⟩ n
  rw [Nat.zero_add] at hat hatOther hanswer hanswerOther
  refine ⟨fun hsteps => ?_, fun result hresult henough => ?_⟩
  · rw [hat.steps] at hsteps
    have hafter := Progress.after_above hprogram hstart hbelow
      (Progress.lacksValues_of_steps hsteps)
    rw [hafter] at hatOther
    rw [hatOther.steps, hatOther.state, Progress.steps_above, Progress.state_above, hat.state]
    exact ⟨hsteps, rfl⟩
  · rw [hanswer] at hresult
    have hended : Progress.after program start (n + 1) = .ended result :=
      Progress.ended_of_result? (Except.ok.inj hresult)
    have hafter := Progress.after_above hprogram hstart hbelow (n := n + 1) (by
      rw [hended]
      exact henough)
    rw [hanswerOther, hafter, hended]
    rfl

set_option maxRecDepth 4000 in
/-- The second value that is pushed finds no room, with or without two more values below. -/
theorem runs_alike_above_of_full :
    Program.Admissible [.plain .push, .plain .push] ∧
      State.WellFormed { register := 7, stack := { values := [3], capacity := 2 } } ∧
      (∀ value ∈ [9, 8], IsWord value) ∧
      Program.Ends [.plain .push, .plain .push]
        { register := 7, stack := { values := [3, 8, 9], capacity := 4 } }
        { outcome := .faulted ⟨.stackFull, some 4⟩, steps := 1
          state := { pc := 1, register := 7
                     stack := { values := [7, 3, 8, 9], capacity := 4 } } } := by
  have hprogram : Program.Admissible [.plain .push, .plain .push] := ⟨by decide, by decide⟩
  have hstart : State.WellFormed { register := 7, stack := { values := [3], capacity := 2 } } := by
    decide
  have hbelow : ∀ value ∈ [9, 8], IsWord value := by decide
  obtain ⟨_, hends, _⟩ := runs_alike_above hprogram hstart hbelow
  have hfull : Program.Ends [.plain .push, .plain .push]
      { register := 7, stack := { values := [3], capacity := 2 } }
      { outcome := .faulted ⟨.stackFull, some 4⟩, steps := 1
        state := { pc := 1, register := 7, stack := { values := [7, 3], capacity := 2 } } } :=
    ⟨2, rfl⟩
  exact ⟨hprogram, hstart, hbelow, hends _ hfull rfl⟩

end Machine

end WordMachine
