import WordMachine.Proofs.Execution.WordRange
import WordMachine.Run

/-!
# Runs of admissible programs

A run whose literals are words, of a program that is short enough for its last
index to be a word, stays within the well-formed states and is never stuck. If it
ends, it ends once and for all: a halt ends it together with the instruction,
while the end of the program and a fault are noticed when one more instruction is
due.
-/

namespace WordMachine

/-- The greatest number of instructions in a program. -/
def Program.maxLength : Nat := 4294967295

/-- A program whose literals are words and which is not too long. -/
structure Program.Admissible (program : Program) : Prop where
  /-- The literals are words. -/
  inRange : ∀ inst ∈ program, inst.InRange
  /-- There are not too many instructions. -/
  length_le : program.length ≤ Program.maxLength

/-- The program counter of an instruction is far below the largest word. -/
theorem Program.Admissible.pc_lt {program : Program} (hprogram : program.Admissible)
    {state : State} {inst : Instruction} (hstate : state.WellFormed)
    (hinst : program[state.pc.toNat]? = some inst) : state.pc < Word.max := by
  obtain ⟨hindex, _⟩ := List.getElem?_eq_some_iff.mp hinst
  have hlength := hprogram.length_le
  have hnonneg := hstate.1.1
  simp only [Program.maxLength] at hlength
  simp only [Word.max]
  omega

namespace Progress

/-- The number of instructions executed. -/
def steps : Progress → Nat
  | running steps _ => steps
  | ended result => result.steps
  | stuck steps _ _ => steps

/-- The state after the instructions executed. -/
def state : Progress → State
  | running _ state => state
  | ended result => result.state
  | stuck _ state _ => state

/-- The result, once the run has ended. -/
def result? : Progress → Option Result
  | running _ _ => none
  | ended result => some result
  | stuck _ _ _ => none

/-- A run that shows a result has ended with it. -/
theorem ended_of_result? {progress : Progress} {result : Result}
    (h : progress.result? = some result) : progress = .ended result := by
  cases progress with
  | running steps state => cases h
  | ended other => rw [Option.some.inj h]
  | stuck steps state error => cases h

/-- A run at a well-formed state whose stack has a given capacity. A run that is stuck is not
sound. -/
def Sound (capacity : Int) : Progress → Prop
  | running _ state => state.WellFormed ∧ state.stack.capacity = capacity
  | ended result => result.state.WellFormed ∧ result.state.stack.capacity = capacity
  | stuck _ _ _ => False

/-- A sound run is at a well-formed state. -/
theorem Sound.state {capacity : Int} {progress : Progress} (h : progress.Sound capacity) :
    progress.state.WellFormed ∧ progress.state.stack.capacity = capacity := by
  cases progress with
  | running steps state => exact h
  | ended result => exact h
  | stuck steps state error => exact h.elim

/-- What one more instruction can make of a run at a well-formed state: the program has ended,
the instruction is a fault, or it leads to another well-formed state. -/
theorem next_running {program : Program} (hprogram : program.Admissible) (steps : Nat)
    {state : State} (hstate : state.WellFormed) :
    (program[state.pc.toNat]? = none ∧
      (running steps state).next program = .ended { outcome := .endOfProgram, steps, state }) ∨
    (∃ inst fault, program[state.pc.toNat]? = some inst ∧
      execute state inst = .error (.fault fault) ∧
      (running steps state).next program = .ended { outcome := .faulted fault, steps, state }) ∨
    (∃ inst after, program[state.pc.toNat]? = some inst ∧ execute state inst = .ok after ∧
      after.WellFormed ∧ after.stack.capacity = state.stack.capacity ∧
      (running steps state).next program =
        if inst = .plain .halt then
          .ended { outcome := .halted, steps := steps + 1, state := after }
        else .running (steps + 1) after) := by
  cases hinst : program[state.pc.toNat]? with
  | none => exact .inl ⟨rfl, by simp only [next, hinst]⟩
  | some inst =>
    right
    cases hexecute : execute state inst with
    | error failure =>
      cases failure with
      | fault cause =>
        exact .inl ⟨inst, cause, rfl, hexecute, by simp only [next, hinst, hexecute]⟩
      | range error => exact absurd hexecute (hstate.execute_ne_range inst error)
    | ok after =>
      have hrange := hprogram.inRange inst (List.mem_of_getElem? hinst)
      obtain ⟨hafter, hcapacity⟩ :=
        hstate.execute (hprogram.pc_lt hstate hinst) hrange hexecute
      exact .inr ⟨inst, after, rfl, hexecute, hafter, hcapacity,
        by simp only [next, hinst, hexecute]⟩

/-- One more instruction keeps a run sound. -/
theorem Sound.next {program : Program} (hprogram : program.Admissible) {capacity : Int}
    {progress : Progress} (h : progress.Sound capacity) :
    (progress.next program).Sound capacity := by
  cases progress with
  | running steps state =>
    obtain ⟨hstate, hcapacity⟩ := h
    rcases next_running hprogram steps hstate with
      ⟨_, hnext⟩ | ⟨_, fault, _, _, hnext⟩ | ⟨inst, after, _, _, hafter, hkept, hnext⟩
    · rw [hnext]
      exact ⟨hstate, hcapacity⟩
    · rw [hnext]
      exact ⟨hstate, hcapacity⟩
    · rw [hnext]
      split
      · exact ⟨hafter, hkept.trans hcapacity⟩
      · exact ⟨hafter, hkept.trans hcapacity⟩
  | ended result => exact h
  | stuck steps state error => exact h.elim

/-- A run of an admissible program from a well-formed state is sound at all times. -/
theorem after_sound {program : Program} {start : State} (hprogram : program.Admissible)
    (hstart : start.WellFormed) (n : Nat) :
    (after program start n).Sound start.stack.capacity := by
  induction n with
  | zero => exact ⟨hstart, rfl⟩
  | succ n ih => exact ih.next hprogram

/-- The forms that a run can take when one more instruction is due. A halt is counted before
the run ends; otherwise a run that does not go on keeps its count and its state. -/
theorem next_running_forms (program : Program) (steps : Nat) (state : State) :
    (∃ after, (running steps state).next program = .running (steps + 1) after) ∨
    (∃ after, (running steps state).next program =
      .ended { outcome := .halted, steps := steps + 1, state := after }) ∨
    (∃ outcome, outcome ≠ .halted ∧
      (running steps state).next program = .ended { outcome, steps, state }) ∨
    (∃ error, (running steps state).next program = .stuck steps state error) := by
  simp only [next]
  split
  · exact .inr (.inr (.inl ⟨_, by simp, rfl⟩))
  · split
    · exact .inr (.inr (.inr ⟨_, rfl⟩))
    · exact .inr (.inr (.inl ⟨_, by simp, rfl⟩))
    · split
      · exact .inr (.inl ⟨_, rfl⟩)
      · exact .inl ⟨_, rfl⟩

/-- A run that goes on has executed every instruction that was due. -/
theorem steps_of_after_running {program : Program} {start state : State} {n steps : Nat}
    (h : after program start n = .running steps state) : steps = n := by
  induction n generalizing steps state with
  | zero =>
    cases h
    rfl
  | succ n ih =>
    rw [after] at h
    cases hprevious : after program start n with
    | running before last =>
      have hcount : before = n := ih hprevious
      rw [hprevious] at h
      rcases next_running_forms program before last with
        ⟨_, hnext⟩ | ⟨_, hnext⟩ | ⟨_, _, hnext⟩ | ⟨_, hnext⟩
      · rw [hnext] at h
        cases h
        omega
      all_goals
        rw [hnext] at h
        cases h
    | ended result =>
      rw [hprevious] at h
      cases h
    | stuck before last error =>
      rw [hprevious] at h
      cases h

/-- A run goes on where there is an instruction that is executed and is no halt. -/
theorem exists_execute_of_next_running {program : Program} {steps count : Nat}
    {state after : State} (h : (running steps state).next program = .running count after) :
    ∃ inst, program[state.pc.toNat]? = some inst ∧ execute state inst = .ok after ∧
      inst ≠ .plain .halt := by
  simp only [next] at h
  split at h
  · cases h
  · rename_i inst hinst
    split at h
    · cases h
    · cases h
    · rename_i reached hexecute
      split at h
      · cases h
      · rename_i hhalt
        cases h
        exact ⟨inst, hinst, hexecute, hhalt⟩

/-- A run that goes on was going on one instruction before. -/
theorem exists_running_of_succ {program : Program} {start state : State} {n : Nat}
    (h : after program start (n + 1) = .running (n + 1) state) :
    ∃ before, after program start n = .running n before ∧
      (running n before).next program = .running (n + 1) state := by
  rw [after] at h
  cases hprevious : after program start n with
  | running steps before =>
    obtain rfl : steps = n := steps_of_after_running hprevious
    rw [hprevious] at h
    exact ⟨before, rfl, h⟩
  | ended result =>
    rw [hprevious] at h
    cases h
  | stuck steps last error =>
    rw [hprevious] at h
    cases h

/-- A run that goes on has been going on all the time. -/
theorem exists_running_of_le {program : Program} {start state : State} {n j : Nat}
    (h : after program start n = .running n state) (hle : j ≤ n) :
    ∃ before, after program start j = .running j before := by
  induction n generalizing state with
  | zero =>
    obtain rfl : j = 0 := by omega
    exact ⟨state, h⟩
  | succ n ih =>
    by_cases hlast : j = n + 1
    · subst hlast
      exact ⟨state, h⟩
    · obtain ⟨before, hbefore, _⟩ := exists_running_of_succ h
      exact ih hbefore (by omega)

/-- No more instructions have been executed than have been due. -/
theorem steps_after_le (program : Program) (start : State) (n : Nat) :
    (after program start n).steps ≤ n := by
  induction n with
  | zero => exact Nat.le_refl 0
  | succ n ih =>
    rw [after]
    cases hprevious : after program start n with
    | running count state =>
      rw [hprevious] at ih
      simp only [steps] at ih
      rcases next_running_forms program count state with
        ⟨_, hnext⟩ | ⟨_, hnext⟩ | ⟨_, _, hnext⟩ | ⟨_, hnext⟩
      all_goals
        rw [hnext]
        simp only [Progress.steps]
        omega
    | ended result =>
      rw [hprevious] at ih
      exact Nat.le_succ_of_le ih
    | stuck count state error =>
      rw [hprevious] at ih
      exact Nat.le_succ_of_le ih

/-- A run that has ended stays as it is. -/
theorem after_ended_of_le {program : Program} {start : State} {result : Result} {n m : Nat}
    (h : after program start n = .ended result) (hle : n ≤ m) :
    after program start m = .ended result := by
  induction hle with
  | refl => exact h
  | step _ ih =>
    rw [after, ih]
    rfl

/-- The count and the state of a run are those of the moment when so many instructions had
been due as have been executed. -/
theorem after_steps (program : Program) (start : State) (n : Nat) :
    (after program start (after program start n).steps).steps = (after program start n).steps ∧
      (after program start (after program start n).steps).state =
        (after program start n).state := by
  induction n with
  | zero => exact ⟨rfl, rfl⟩
  | succ n ih =>
    cases hprevious : after program start n with
    | running before last =>
      have hcount : before = n := steps_of_after_running hprevious
      subst hcount
      -- Either the instruction was executed, and there is nothing to show, or the run is where
      -- it was one moment ago.
      rcases next_running_forms program before last with
        ⟨_, hnext⟩ | ⟨_, hnext⟩ | ⟨_, _, hnext⟩ | ⟨_, hnext⟩
      · simp only [after, hprevious, hnext, steps, and_self]
      · simp only [after, hprevious, hnext, steps, and_self]
      · simp only [after, hprevious, hnext, steps, state, and_self]
      · simp only [after, hprevious, hnext, steps, state, and_self]
    | ended result =>
      have hsame : after program start (n + 1) = after program start n := by
        rw [after, hprevious]
        rfl
      rw [hsame]
      exact ih
    | stuck before last error =>
      have hsame : after program start (n + 1) = after program start n := by
        rw [after, hprevious]
        rfl
      rw [hsame]
      exact ih

end Progress

/-- The run of a program from a state executes so many instructions and leads to a state. -/
def Program.Reaches (program : Program) (start : State) (k : Nat) (state : State) : Prop :=
  (Progress.after program start k).steps = k ∧ (Progress.after program start k).state = state

/-- The run of a program from a state ends with a result. -/
def Program.Ends (program : Program) (start : State) (result : Result) : Prop :=
  ∃ n, Progress.after program start n = .ended result

/-- The number of instructions that have to be due until a result is known. A halt is the last
of them; the other outcomes are found where one more instruction would be executed. -/
def Result.due (result : Result) : Nat :=
  if result.outcome = .halted then result.steps else result.steps + 1

namespace Program

variable {program : Program} {start : State}

/-- Whatever a run has come to is a state that it reaches. -/
theorem reaches_after (program : Program) (start : State) (n : Nat) :
    program.Reaches start (Progress.after program start n).steps
      (Progress.after program start n).state :=
  Progress.after_steps program start n

/-- A run has one result at most. -/
theorem Ends.unique {first second : Result} (hfirst : program.Ends start first)
    (hsecond : program.Ends start second) : first = second := by
  obtain ⟨n, hn⟩ := hfirst
  obtain ⟨m, hm⟩ := hsecond
  have hleft := Progress.after_ended_of_le hn (Nat.le_max_left n m)
  have hright := Progress.after_ended_of_le hm (Nat.le_max_right n m)
  rw [hleft] at hright
  exact Progress.ended.inj hright

/-- A run that has ended did so when the last instruction was due. -/
theorem due_of_after_ended {result : Result} {n : Nat}
    (h : Progress.after program start n = .ended result) :
    result.due ≤ n ∧ Progress.after program start result.due = .ended result := by
  induction n with
  | zero => cases h
  | succ n ih =>
    cases hprevious : Progress.after program start n with
    | running before last =>
      have hcount : before = n := Progress.steps_of_after_running hprevious
      have hnext : (Progress.running before last).next program = .ended result := by
        rw [← hprevious]
        exact h
      have hdue : result.due = n + 1 := by
        rcases Progress.next_running_forms program before last with
          ⟨_, hform⟩ | ⟨_, hform⟩ | ⟨outcome, houtcome, hform⟩ | ⟨_, hform⟩
        · rw [hform] at hnext
          cases hnext
        · rw [hform] at hnext
          cases hnext
          simp [Result.due, hcount]
        · rw [hform] at hnext
          cases hnext
          simp [Result.due, houtcome, hcount]
        · rw [hform] at hnext
          cases hnext
      rw [hdue]
      exact ⟨Nat.le_refl _, h⟩
    | ended other =>
      have hsame : other = result := by
        rw [Progress.after, hprevious] at h
        exact Progress.ended.inj h
      rw [hsame] at hprevious
      obtain ⟨hle, hended⟩ := ih hprevious
      exact ⟨Nat.le_succ_of_le hle, hended⟩
    | stuck before last error =>
      rw [Progress.after, hprevious] at h
      cases h

/-- A run that ends does so at a state from which it had gone on. -/
theorem Ends.exists_last {result : Result} (h : program.Ends start result) :
    ∃ n last, Progress.after program start n = .running n last ∧
      (Progress.running n last).next program = .ended result := by
  obtain ⟨n, hn⟩ := h
  induction n with
  | zero => cases hn
  | succ n ih =>
    cases hprevious : Progress.after program start n with
    | running steps last =>
      obtain rfl : steps = n := Progress.steps_of_after_running hprevious
      refine ⟨steps, last, hprevious, ?_⟩
      rw [← hprevious]
      exact hn
    | ended other =>
      rw [Progress.after, hprevious] at hn
      rw [Progress.ended.inj hn] at hprevious
      exact ih hprevious
    | stuck steps last error =>
      rw [Progress.after, hprevious] at hn
      cases hn

/-- A run with a result has ended from the last instruction that is due on. -/
theorem Ends.after_eq {result : Result} (h : program.Ends start result) {n : Nat}
    (hle : result.due ≤ n) : Progress.after program start n = .ended result := by
  obtain ⟨m, hm⟩ := h
  obtain ⟨_, hdue⟩ := due_of_after_ended hm
  exact Progress.after_ended_of_le hdue hle

/-- A run with a result shows none before the last instruction is due and the result from
then on. -/
theorem Ends.result?_after {result : Result} (h : program.Ends start result) (n : Nat) :
    (Progress.after program start n).result? =
      if n < result.due then none else some result := by
  by_cases hlt : n < result.due
  · rw [if_pos hlt]
    cases hprogress : Progress.after program start n with
    | running before last => rfl
    | ended other =>
      obtain rfl : other = result := Ends.unique ⟨n, hprogress⟩ h
      obtain ⟨hle, _⟩ := due_of_after_ended hprogress
      omega
    | stuck before last error => rfl
  · rw [if_neg hlt, h.after_eq (Nat.not_lt.mp hlt)]
    rfl

/-- A run that never ends never shows a result. -/
theorem result?_after_of_not_ends (h : ∀ result, ¬ program.Ends start result) (n : Nat) :
    (Progress.after program start n).result? = none := by
  cases hprogress : Progress.after program start n with
  | running before last => rfl
  | ended result => exact absurd ⟨n, hprogress⟩ (h result)
  | stuck before last error => rfl

end Program

end WordMachine
