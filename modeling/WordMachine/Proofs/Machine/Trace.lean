import WordMachine.Log.Entry
import WordMachine.Proofs.Machine.Advance
import WordMachine.Proofs.Machine.Refinement

/-!
# What is seen of a run

A run has one full trace: an entry in the log, two reports for each instruction
executed, and the reports of the end. What a machine lets others see of the run is
this trace without the events for which there is no hook. The trace is collected
along the run, one instruction after another, and a step of a calm machine
contributes what the next instruction of the run does.

An observed run is not seen as a plain one is. The hooks for a fault and for the end
are told of it only if the listener owns them, and the observer is shown what the
step hook has left in its report.
-/

namespace WordMachine

/-- Whether there is anyone to be told of an event, with an observer or without one. The log
is always written. -/
def Listener.shows (listener : Listener) (observed : Bool) : Event → Bool
  | .log _ => true
  | .step _ _ _ => listener.step.isSome
  | .observe _ _ => observed
  | .error _ _ => (listener.error.filter fun hook => !observed || hook.owned).isSome
  | .finish _ => (listener.finish.filter fun hook => !observed || hook.owned).isSome

/-- What an observer is shown in place of a report to the step hook, `k` reports from now. -/
def Listener.shown (listener : Listener) (k : Nat) (report : StepReport) : StepReport :=
  (listener.step.bind fun hook => hook.leaves (hook.calls + k)).getD report

/-- An event that only an observer is told of. -/
def Event.isObserve : Event → Bool
  | .observe _ _ => true
  | _ => false

/-- A hook that a listener owns and that writes nothing in its reports. -/
structure Hook.Plain (hook : Hook) : Prop where
  /-- The listener owns the hook. -/
  owned : hook.owned
  /-- No call writes. -/
  leaves : ∀ call, hook.leaves call = none

/-- Plain hooks are told the same in an observed run, which adds what the observer is told. -/
theorem Listener.shows_of_plain {listener : Listener} (hplain : listener.All Hook.Plain)
    (event : Event) :
    listener.shows true event = (event.isObserve || listener.shows false event) := by
  have hfilter {hook? : Option Hook} (hhook : ∀ hook ∈ hook?, hook.Plain) :
      hook?.filter (fun hook => !true || hook.owned) =
        hook?.filter fun hook => !false || hook.owned := by
    cases hook? with
    | none => rfl
    | some hook => simp [Option.filter, (hhook hook rfl).owned]
  cases event with
  | log entry => rfl
  | step index inst state => rfl
  | observe inst state => rfl
  | error fault state => exact congrArg Option.isSome (hfilter hplain.error)
  | finish result => exact congrArg Option.isSome (hfilter hplain.finish)

/-- An observer is shown the reports themselves if the step hook writes nothing. -/
theorem Listener.shown_of_plain {listener : Listener} (hplain : ∀ hook ∈ listener.step, hook.Plain)
    (k : Nat) : listener.shown k = id := by
  funext report
  unfold shown
  cases hstep : listener.step with
  | none => rfl
  | some hook => simp [(hplain hook hstep).leaves]

/-- The events of an instruction that leads from one state to another, with what the observer is
shown in place of its report. -/
def Instruction.reports (inst : Instruction) (shown : StepReport → StepReport)
    (before after : State) : List Event :=
  [.step before.pc.toNat inst after,
    .observe (shown ⟨inst, after⟩).inst (shown ⟨inst, after⟩).state]

/-- The events at the end of a run. A fault is reported before the end is. -/
def Result.reports (result : Result) : List Event :=
  (match result.outcome with
    | .faulted cause => [.log (.faulted result.state.pc cause), .error cause result.state]
    | _ => []) ++
  [.log (.finished result.outcome result.steps), .finish result]

/-- The entries that a run of a program of so many instructions writes to the log, each with
its fields and its message. -/
def Result.logged (length : Nat) (result : Result) : List (List (String × LogValue) × String) :=
  [([("instructions", .number length)], "run started")] ++
  (match result.outcome with
    | .faulted cause =>
      [([("pc", .text (toString result.state.pc)), ("kind", .text cause.kind.label)],
        cause.message)]
    | _ => []) ++
  [([("outcome", .text result.outcome.label), ("steps", .number result.steps)], "run finished")]

/-- The fields and the message of an event, if it is an entry in the log. -/
def Event.logged? : Event → Option (List (String × LogValue) × String)
  | .log entry => some (entry.fields, entry.message)
  | _ => none

namespace Program

/-- The first `n` instructions that a program executes from a state, and the states around
them. -/
structure Path (program : Program) (start : State) (n : Nat) (states : Nat → State)
    (insts : Nat → Instruction) : Prop where
  /-- The first state is the one given. -/
  first : states 0 = start
  /-- Each instruction is the one at the program counter. -/
  fetched : ∀ k < n, 0 ≤ (states k).pc ∧ program[(states k).pc.toNat]? = some (insts k)
  /-- Each instruction leads from one state to the next. -/
  executed : ∀ k < n, execute (states k) (insts k) = .ok (states (k + 1))

/-- The full trace of a run that executes some instructions and ends with a result, with what an
observer is shown in place of the report on each instruction. -/
def trace (program : Program) (shown : Nat → StepReport → StepReport) (states : Nat → State)
    (insts : Nat → Instruction) (result : Result) : List Event :=
  .log (.started program.length) ::
    ((List.range result.steps).flatMap fun k =>
      (insts k).reports (shown k) (states k) (states (k + 1))) ++
    result.reports

/-- The log of a run is written whatever hooks there are. -/
theorem logged_trace (program : Program) (shown : Nat → StepReport → StepReport)
    (states : Nat → State) (insts : Nat → Instruction) (result : Result) (listener : Listener)
    (observed : Bool) :
    ((program.trace shown states insts result).filter (listener.shows observed)).filterMap
      Event.logged? = result.logged program.length := by
  have hshown (event : Event) :
      (if listener.shows observed event then event.logged? else none) = event.logged? := by
    cases event with
    | log entry => rfl
    | _ => exact ite_self none
  have hreports (k : Nat) : ((insts k).reports (shown k) (states k) (states (k + 1))).filterMap
      Event.logged? = [] := rfl
  have hend : result.reports.filterMap Event.logged? = (result.logged program.length).tail := by
    unfold Result.reports Result.logged
    cases result.outcome <;> rfl
  simp only [List.filterMap_filter, hshown, trace, List.cons_append, List.filterMap_cons,
    List.filterMap_append, List.filterMap_flatMap, hreports, hend]
  simp [Event.logged?, RunLog.fields, RunLog.message, Result.logged]

/-- What an observer is shown does not matter if there is none. -/
theorem filter_trace_of_unobserved (program : Program)
    (shown shown' : Nat → StepReport → StepReport) (states : Nat → State)
    (insts : Nat → Instruction) (result : Result) (listener : Listener) :
    (program.trace shown states insts result).filter (listener.shows false) =
      (program.trace shown' states insts result).filter (listener.shows false) := by
  have hreports (k : Nat) :
      ((insts k).reports (shown k) (states k) (states (k + 1))).filter (listener.shows false) =
        ((insts k).reports (shown' k) (states k) (states (k + 1))).filter
          (listener.shows false) := rfl
  simp only [trace, List.cons_append, List.filter_cons, List.filter_append, List.filter_flatMap,
    hreports]

end Program

namespace Progress

variable {program : Program} {start : State}

/-- The instruction at the program counter, a `nop` standing for none. -/
def current (program : Program) (progress : Progress) : Instruction :=
  program[progress.state.pc.toNat]?.getD (.plain .nop)

/-- The events when one more instruction is due: its reports if it is executed, and the reports
of the end if the run ends now. -/
def events (program : Program) (shown : StepReport → StepReport) (progress : Progress) :
    List Event :=
  match progress with
  | running steps state =>
    let next := progress.next program
    (if steps < next.steps then (progress.current program).reports shown state next.state
      else []) ++
      next.result?.elim [] Result.reports
  | _ => []

/-- The events of a run that goes on. -/
theorem events_running (program : Program) (shown : StepReport → StepReport) (steps : Nat)
    (state : State) :
    (running steps state).events program shown =
      (if steps < ((running steps state).next program).steps then
        ((running steps state).current program).reports shown state
          ((running steps state).next program).state
      else []) ++ ((running steps state).next program).result?.elim [] Result.reports := rfl

/-- A run that ends where it stands reports the end and no instruction. -/
theorem events_of_next_ended {steps : Nat} {state : State} {outcome : Outcome}
    (hnext : (running steps state).next program = .ended { outcome, steps, state })
    (shown : StepReport → StepReport) :
    (running steps state).events program shown = Result.reports { outcome, steps, state } := by
  rw [events_running, hnext]
  simp [Progress.steps, result?]

/-- One more instruction is not counted, or it is there and leads to the next state. -/
theorem next_steps (hprogram : program.Admissible) (steps : Nat) {state : State}
    (hstate : state.WellFormed) :
    ((running steps state).next program).steps = steps ∨
    ((running steps state).next program).steps = steps + 1 ∧
      program[state.pc.toNat]? = some ((running steps state).current program) ∧
      execute state ((running steps state).current program) =
        .ok ((running steps state).next program).state := by
  rcases next_running hprogram steps hstate with
    ⟨_, hnext⟩ | ⟨_, _, _, _, hnext⟩ | ⟨inst, after, hinst, hexecute, _, _, hnext⟩
  · rw [hnext]
    exact .inl rfl
  · rw [hnext]
    exact .inl rfl
  · have hcurrent : (running steps state).current program = inst := by
      simp only [current, Progress.state, hinst, Option.getD_some]
    rw [hnext, hcurrent]
    right
    split
    · exact ⟨rfl, hinst, hexecute⟩
    · exact ⟨rfl, hinst, hexecute⟩

/-- The instructions executed so far and the states around them are those of the run. -/
theorem path_after (hprogram : program.Admissible) (hstart : start.WellFormed) (n : Nat) :
    program.Path start (after program start n).steps (fun k => (after program start k).state)
      (fun k => (after program start k).current program) := by
  induction n with
  | zero => exact ⟨rfl, fun k hk => absurd hk k.not_lt_zero, fun k hk => absurd hk k.not_lt_zero⟩
  | succ n ih =>
    have hsound := after_sound hprogram hstart n
    cases hprevious : after program start n with
    | running steps state =>
      obtain rfl : steps = n := steps_of_after_running hprevious
      rw [hprevious] at hsound ih
      obtain ⟨hstate, _⟩ := hsound
      rcases next_steps hprogram steps hstate with hsteps | ⟨hsteps, hinst, hexecute⟩
      · rw [after, hprevious, hsteps]
        exact ih
      · -- All but the last instruction are known from before.
        rw [after, hprevious, hsteps]
        refine ⟨ih.first, fun k hk => ?_, fun k hk => ?_⟩
        · rcases Nat.lt_succ_iff_lt_or_eq.mp hk with hlt | rfl
          · exact ih.fetched k hlt
          · simp only [hprevious]
            exact ⟨hstate.1.1, hinst⟩
        · rcases Nat.lt_succ_iff_lt_or_eq.mp hk with hlt | rfl
          · exact ih.executed k hlt
          · simp only [after, hprevious]
            exact hexecute
    | ended result =>
      rw [after, hprevious]
      rw [hprevious] at ih
      exact ih
    | stuck steps state error =>
      rw [hprevious] at hsound
      exact hsound.elim

/-- The instructions of a run that ends and the states around them lead to its last state. -/
theorem path_of_ends (hprogram : program.Admissible) (hstart : start.WellFormed) {result : Result}
    (hends : program.Ends start result) :
    program.Path start result.steps (fun k => (after program start k).state)
        (fun k => (after program start k).current program) ∧
      (after program start result.steps).state = result.state := by
  have hended := hends.after_eq (Nat.le_refl _)
  have hpath := path_after hprogram hstart result.due
  have hlast := (program.reaches_after start result.due).2
  rw [hended] at hpath hlast
  exact ⟨hpath, hlast⟩

/-- The events so far are the reports of the instructions executed, and those of the end once
the run has ended. -/
theorem flatMap_events (hprogram : program.Admissible) (hstart : start.WellFormed)
    (shown : Nat → StepReport → StepReport) (n : Nat) :
    (List.range n).flatMap (fun k => (after program start k).events program (shown k)) =
      ((List.range (after program start n).steps).flatMap fun k =>
        ((after program start k).current program).reports (shown k) (after program start k).state
          (after program start (k + 1)).state) ++
      (after program start n).result?.elim [] Result.reports := by
  induction n with
  | zero => rfl
  | succ n ih =>
    have hsound := after_sound hprogram hstart n
    rw [List.range_succ, List.flatMap_append, ih]
    cases hprevious : after program start n with
    | running steps state =>
      obtain rfl : steps = n := steps_of_after_running hprevious
      rw [hprevious] at hsound
      obtain ⟨hstate, _⟩ := hsound
      have hnext : after program start (steps + 1) = (running steps state).next program := by
        rw [after, hprevious]
      have hcount : (running steps state).steps = steps := rfl
      have hnone : (running steps state).result? = none := rfl
      have hlast : (running steps state).state = state := rfl
      rcases next_steps hprogram steps hstate with hsteps | ⟨hsteps, _, _⟩
      · simp [hnext, hprevious, events_running, hsteps, hcount, hnone]
      · simp [hnext, hprevious, events_running, hsteps, hcount, hnone, hlast, List.range_succ]
    | ended result =>
      have hnext : after program start (n + 1) = .ended result := by
        rw [after, hprevious]
        rfl
      simp [hnext, hprevious, events]
    | stuck steps state error =>
      rw [hprevious] at hsound
      exact hsound.elim

end Progress

namespace Machine

/-- Whether there is anyone to be told of an event. -/
def shows (m : Machine) : Event → Bool :=
  m.listener.shows m.observer.isSome

/-- The same hooks are there after one of them has been called. -/
theorem isSome_hook?_notified (m : Machine) (name other : HookName) :
    ((m.notified name).hook? other).isSome = (m.hook? other).isSome := by
  have hhears : (m.notified name).hears = m.hears := by
    funext hook
    rw [hears, hears, isSome_observer_notified]
  unfold notified at hhears ⊢
  cases hhook : m.hook? name with
  | none => rfl
  | some hook =>
    simp only [hhook] at hhears
    by_cases hsame : other = name
    · subst hsame
      rw [hhook]
      cases other with
      | step => rfl
      | observe => rfl
      | error =>
        have hheard : m.hears hook.afterCall = true := (Option.filter_eq_some_iff.mp hhook).2
        simp only [hook?, hhears]
        exact Option.isSome_of_eq_some (Option.filter_some_pos hheard)
      | finish =>
        have hheard : m.hears hook.afterCall = true := (Option.filter_eq_some_iff.mp hhook).2
        simp only [hook?, hhears]
        exact Option.isSome_of_eq_some (Option.filter_some_pos hheard)
    · cases other with
      | step => cases name <;> first | rfl | exact absurd rfl hsame
      | observe => cases name <;> first | rfl | exact absurd rfl hsame
      | error =>
        simp only [hook?, hhears]
        cases name <;> first | rfl | exact absurd rfl hsame
      | finish =>
        simp only [hook?, hhears]
        cases name <;> first | rfl | exact absurd rfl hsame

/-- The same is shown after a hook has been called. -/
@[simp] theorem shows_notified (m : Machine) (name : HookName) :
    (m.notified name).shows = m.shows := by
  funext event
  cases event with
  | log entry => rfl
  | step index inst state => exact isSome_hook?_notified m name .step
  | observe inst state => exact isSome_hook?_notified m name .observe
  | error fault state => exact isSome_hook?_notified m name .error
  | finish result => exact isSome_hook?_notified m name .finish

/-- One more report has been made to a step hook that has been called. -/
theorem shown_of_step_eq {listener called : Listener}
    (hcalled : called.step = listener.step.map Hook.afterCall) (k : Nat) :
    called.shown k = listener.shown (k + 1) := by
  funext report
  have hindex (hook : Hook) : hook.calls + 1 + k = hook.calls + (k + 1) := by omega
  unfold Listener.shown
  rw [hcalled]
  cases listener.step with
  | none => rfl
  | some hook => simp only [Option.map_some, Option.bind_some, Hook.afterCall, hindex]

/-- The log is always written. -/
theorem shows_log (m : Machine) (entry : RunLog) : m.shows (.log entry) = true := rfl

/-- A hook is told of the events that are shown to it. -/
theorem told_eq_filter (m : Machine) (name : HookName) (event : Event)
    (hevent : m.shows event = (m.hook? name).isSome) :
    m.told name event = [event].filter m.shows := by
  unfold told
  cases hhook : m.hook? name with
  | none => simp [hevent, hhook]
  | some hook => simp [hevent, hhook]

/-- The end of a run is logged and told to the end hook. -/
theorem finish_shows {m : Machine} (hstate : m.state.WellFormed) (outcome : Outcome) :
    (finish outcome m).events =
        [.log (.finished outcome m.steps), .finish (m.resultNow outcome)].filter m.shows ∧
      (finish outcome m).machine.shows = m.shows := by
  rw [finish_eq hstate, List.filter_cons_of_pos (m.shows_log _),
    told_eq_filter m .finish (.finish _) rfl]
  exact ⟨rfl, shows_notified (m.withResult (m.resultNow outcome)) .finish⟩

/-- A fault that ends the run is reported before the end. -/
theorem fault_shows {m : Machine} (hstate : m.state.WellFormed) (hquiet : m.Quiet)
    (cause : Fault) :
    (fault cause m).events = (m.resultNow (.faulted cause)).reports.filter m.shows ∧
      (fault cause m).machine.shows = m.shows := by
  have hnotified : (m.notified .error).state.WellFormed := by rw [notified_state]; exact hstate
  obtain ⟨hevents, hshows⟩ := finish_shows hnotified (.faulted cause)
  have hfails : ¬ m.hookFails .error = true := by simp [hquiet.hookFails]
  rw [fault_eq hstate, if_neg hfails]
  refine ⟨?_, hshows.trans (shows_notified m .error)⟩
  simp only [Reply.following, hevents, shows_notified, resultNow, notified_state, notified_steps]
  rw [told_eq_filter m .error (.error _ _) rfl, Result.reports, List.filter_append,
    List.filter_cons_of_pos (m.shows_log (.faulted _ _))]

/-- An instruction is reported to the step hook and then to the observer. The end follows if it
is a halt. -/
theorem proceed_shows {m : Machine} (hcalm : m.Calm) {state : State}
    (hstate : state.WellFormed) (inst : Instruction) :
    (proceed inst state m).events = (inst.reports (m.listener.shown 0) m.state state ++
        if inst = .plain .halt then
          Result.reports { outcome := .halted, steps := m.steps + 1, state }
        else []).filter m.shows ∧
      (proceed inst state m).machine.shows = m.shows ∧
      (proceed inst state m).machine.listener.step = m.listener.step.map Hook.afterCall := by
  let stepped := (m.moved state).notified .step
  let observed := stepped.notified .observe
  let report := m.shown ⟨inst, state⟩
  have hmoved : m.Follows (m.moved state) := follows_of_same_hooks rfl rfl rfl
  have hsteppedFollows : m.Follows stepped := hmoved.trans (follows_notified _ .step)
  have hstepped : stepped.shows = m.shows := shows_notified (m.moved state) .step
  have hobserved : observed.shows = m.shows := (shows_notified stepped .observe).trans hstepped
  have hcalled : observed.listener.step = m.listener.step.map Hook.afterCall :=
    (step_notified stepped .observe).trans (step_notified (m.moved state) .step)
  have htold : (m.moved state).told .step (.step m.state.pc.toNat inst state) ++
      stepped.told .observe (.observe report.inst report.state) =
        (inst.reports (m.listener.shown 0) m.state state).filter m.shows := by
    rw [told_eq_filter _ .step (.step _ _ _) rfl, told_eq_filter _ .observe (.observe _ _) rfl,
      hstepped]
    exact (List.filter_append ..).symm
  have hlast : observed.state = state := by
    rw [notified_state, notified_state]
    rfl
  have hcount : observed.steps = m.steps + 1 := by
    rw [notified_steps, notified_steps]
    rfl
  have hreported := proceed_reported (m := m) hstate inst
  generalize proceed inst state m = reply at hreported ⊢
  cases hreported with
  | stepHookFailed hfails =>
    exact absurd (hmoved.quiet hcalm.quiet) (not_quiet_of_hookFails hfails)
  | unfit hwatched hstep hleft hcopy =>
    exact absurd hcalm.tidy (not_tidy_of_left hwatched hstep hleft hcopy)
  | observerFailed hfails =>
    exact absurd (hsteppedFollows.quiet hcalm.quiet) (not_quiet_of_hookFails hfails)
  | through =>
    rw [htold, List.filter_append]
    by_cases hhalt : inst = .plain .halt
    · have hwell : observed.state.WellFormed := by rw [hlast]; exact hstate
      obtain ⟨hevents, hshows⟩ := finish_shows hwell .halted
      have hstep : (finish .halted observed).machine.listener.step = observed.listener.step := by
        rw [finish_eq hwell]
        exact step_notified _ .finish
      rw [resultNow, hlast, hcount, hobserved] at hevents
      rw [if_pos hhalt, if_pos hhalt]
      refine ⟨?_, hshows.trans hobserved, hstep.trans hcalled⟩
      exact congrArg
        ((inst.reports (m.listener.shown 0) m.state state).filter m.shows ++ ·) hevents
    · rw [if_neg hhalt, if_neg hhalt]
      exact ⟨rfl, hobserved, hcalled⟩

/-- A step shows what is there to be reported when one more instruction of the run is due. If the
run goes on, the step hook has been called. -/
theorem step_shows {m : Machine} {capacity : Int} {before : Progress}
    (hprogram : m.program.Admissible) (hcalm : m.Calm) (hat : m.At before)
    (hsound : before.Sound capacity) :
    (step m).events = (before.events m.program (m.listener.shown 0)).filter m.shows ∧
      (step m).machine.shows = m.shows ∧
      ((before.next m.program).result? = none →
        (step m).machine.listener.step = m.listener.step.map Hook.afterCall) := by
  cases before with
  | running steps state =>
    obtain ⟨hstate, hsteps, hresult⟩ := hat
    obtain ⟨hwell, _⟩ := hsound
    simp only [Progress.state, Progress.steps, Progress.result?] at hstate hsteps hresult
    subst hstate hsteps
    rcases step_of_running hwell hprogram hresult with
      ⟨hinst, hstep⟩ | ⟨inst, cause, hinst, hexecute, hstep⟩ |
      ⟨inst, after, hinst, hexecute, hafter, hstep⟩
    · have hnext : (Progress.running m.steps m.state).next m.program =
          .ended (m.resultNow .endOfProgram) := by
        simp only [Progress.next, ← current?_eq, hinst, resultNow]
      obtain ⟨hevents, hshows⟩ := finish_shows hwell .endOfProgram
      rw [hstep, Progress.events_of_next_ended hnext, hnext]
      exact ⟨hevents, hshows, fun hnone => absurd hnone (Option.some_ne_none _)⟩
    · have hnext : (Progress.running m.steps m.state).next m.program =
          .ended (m.resultNow (.faulted cause)) := by
        simp only [Progress.next, ← current?_eq, hinst, hexecute, resultNow]
      obtain ⟨hevents, hshows⟩ := fault_shows hwell hcalm.quiet cause
      rw [hstep, Progress.events_of_next_ended hnext, hnext]
      exact ⟨hevents, hshows, fun hnone => absurd hnone (Option.some_ne_none _)⟩
    · have hevents : (Progress.running m.steps m.state).events m.program (m.listener.shown 0) =
          inst.reports (m.listener.shown 0) m.state after ++
            if inst = .plain .halt then
              Result.reports { outcome := .halted, steps := m.steps + 1, state := after }
            else [] := by
        rw [Progress.events_running]
        simp only [Progress.next, Progress.current, Progress.state, ← current?_eq, hinst, hexecute,
          Option.getD_some]
        split
        · simp [Progress.steps, Progress.result?]
        · simp [Progress.steps, Progress.result?]
      obtain ⟨hshown, hshows, hcalled⟩ := proceed_shows hcalm hafter inst
      rw [hstep, hevents]
      exact ⟨hshown, hshows, fun _ => hcalled⟩
  | ended result =>
    rw [step_of_result hat.result]
    exact ⟨rfl, rfl, fun hnone => absurd hnone (Option.some_ne_none _)⟩
  | stuck steps state error => exact hsound.elim

variable {program : Program} {start : State} {result : Result}

/-- Steps of a calm machine answer what the run has come to and show the events on the way. -/
theorem stepUpTo_shows (hprogram : program.Admissible) (hstart : start.WellFormed) {m : Machine}
    {j : Nat} (hcode : m.program = program) (hcalm : m.Calm)
    (hat : m.At (Progress.after program start j)) (hresult : m.result = none) (n : Nat) :
    (stepUpTo n m).value = .ok (Progress.after program start (j + n)).result? ∧
      (stepUpTo n m).events = ((List.range n).flatMap fun k =>
        (Progress.after program start (j + k)).events program (m.listener.shown k)).filter
          m.shows := by
  induction n generalizing m j with
  | zero =>
    refine ⟨?_, rfl⟩
    rw [Nat.add_zero, ← hat.result, hresult]
    rfl
  | succ n ih =>
    obtain ⟨hreached, hvalue⟩ := step_of_at hprogram hstart hcode hcalm hat
    have hfollows := m.follows_step
    have hsound := Progress.after_sound hprogram hstart j
    obtain ⟨hevents, hshows, hcalled⟩ := step_shows (hcode ▸ hprogram) hcalm hat hsound
    rw [hcode] at hevents hcalled
    rw [List.range_succ_eq_map, List.flatMap_cons, List.flatMap_map, List.filter_append,
      Nat.add_zero j, ← hevents]
    simp only [Nat.succ_eq_add_one, ← Nat.add_assoc, Nat.add_right_comm j _ 1]
    cases hnext : Progress.after program start (j + 1) with
    | running steps state =>
      have hnone : (step m).value = .ok none := by rw [hvalue, hnext]; rfl
      have hresult' : (step m).machine.result = none := by rw [hreached.result, hnext]; rfl
      have hstep : (step m).machine.listener.step = m.listener.step.map Hook.afterCall :=
        hcalled (congrArg Progress.result? hnext)
      obtain ⟨hlater, hrest⟩ := ih (hfollows.program_eq.trans hcode) (hfollows.calm hcalm)
        hreached hresult'
      simp only [shown_of_step_eq hstep] at hrest
      rw [stepUpTo_succ_of_none hnone, ← hshows, ← hrest]
      exact ⟨hlater, rfl⟩
    | ended result =>
      -- Nothing is left to be shown once the run has ended.
      have hended {k : Nat} (hk : j + 1 ≤ k) : Progress.after program start k = .ended result :=
        Progress.after_ended_of_le hnext hk
      have hrest : ((List.range n).flatMap fun k =>
          (Progress.after program start (j + 1 + k)).events program
            (m.listener.shown (k + 1))) = [] := by
        refine List.flatMap_eq_nil_iff.mpr fun k _ => ?_
        rw [hended (Nat.le_add_right _ _)]
        rfl
      have hsome : (step m).value = .ok (some result) := by rw [hvalue, hnext]; rfl
      have hne : (step m).value ≠ .ok none := by simp [hsome]
      rw [stepUpTo, advance_succ_of_ne hne, hrest, hended (Nat.le_add_right _ _)]
      exact ⟨hsome, (List.append_nil _).symm⟩
    | stuck steps state error =>
      have hsound' := Progress.after_sound hprogram hstart (j + 1)
      rw [hnext] at hsound'
      exact hsound'.elim

/-- A run of a calm machine from the start gives the result of the run of its program and shows
its trace. -/
theorem run_shows (hprogram : program.Admissible) (hstart : start.WellFormed)
    (hends : program.Ends start result) {m : Machine} (hm : m.Tracks program start)
    (hat : m.At (Progress.after program start 0)) {fuel : Nat} {reply : Reply Result}
    (hrun : m.run fuel = some reply) :
    reply.value = .ok result ∧
      reply.events = (program.trace m.listener.shown
        (fun k => (Progress.after program start k).state)
        (fun k => (Progress.after program start k).current program) result).filter m.shows := by
  obtain ⟨hvalue, hevents⟩ :=
    stepUpTo_shows hprogram hstart hm.program_eq hm.calm hat hat.result fuel
  have hsize : m.code.size = program.length := by
    rw [← hm.program_eq]
    exact Array.length_toList.symm
  have hreply := run_eq_some_iff.mp hrun
  have hanswer : (stepUpTo fuel m).value = reply.value.map some := congrArg Reply.value hreply
  have htold : .log (.started m.code.size) :: (stepUpTo fuel m).events = reply.events :=
    congrArg Reply.events hreply
  rw [hvalue, hends.result?_after, Nat.zero_add] at hanswer
  cases hreplied : reply.value with
  | error interrupt =>
    rw [hreplied] at hanswer
    cases hanswer
  | ok answer =>
    rw [hreplied] at hanswer
    have hshown : (if fuel < result.due then none else some result) = some answer :=
      Except.ok.inj hanswer
    by_cases hearly : fuel < result.due
    · rw [if_pos hearly] at hshown
      cases hshown
    · rw [if_neg hearly] at hshown
      obtain rfl : result = answer := Option.some.inj hshown
      have hended := hends.after_eq (Nat.not_lt.mp hearly)
      have hall := Progress.flatMap_events hprogram hstart m.listener.shown fuel
      rw [hended] at hall
      simp only [Nat.zero_add] at hevents
      refine ⟨rfl, ?_⟩
      rw [← htold, hevents, hall, hsize, Program.trace, List.cons_append,
        List.filter_cons_of_pos (m.shows_log _)]
      rfl

/-- What is seen of the first run of a machine none of whose hooks fails is the full trace of the
run without the events for which there is no hook. Of an observed run, the hooks for a fault and
for the end are told only if the listener owns them, and the observer is told what the step hook
has left of its report. Only with plain hooks does an observer just add its events. -/
theorem run_shows_trace (hprogram : program.Admissible) (hstart : start.WellFormed)
    (hends : program.Ends start result) :
    ∃ fresh states insts, load program start = .ok fresh ∧
      program.Path start result.steps states insts ∧ states result.steps = result.state ∧
      ∀ listener, listener.All Hook.Quiet →
        ((∃ fuel, ((fresh.listen listener).run fuel).isSome) ∧
          ∀ fuel reply, (fresh.listen listener).run fuel = some reply →
            reply.value = .ok result ∧
            reply.events =
              (program.trace (fun _ => id) states insts result).filter (listener.shows false) ∧
            reply.events.filterMap Event.logged? = result.logged program.length) ∧
        ∀ observer, observer.Quiet → (∀ hook ∈ listener.step, hook.Tidy) →
          (∃ fuel, ((fresh.listen listener).observe fuel observer).isSome) ∧
          ∀ fuel reply, (fresh.listen listener).observe fuel observer = some reply →
            reply.value = .ok result ∧
            reply.events =
              (program.trace listener.shown states insts result).filter (listener.shows true) ∧
            reply.events.filterMap Event.logged? = result.logged program.length ∧
            (listener.All Hook.Plain → reply.events =
              (program.trace (fun _ => id) states insts result).filter fun event =>
                event.isObserve || listener.shows false event) := by
  obtain ⟨hpath, hlast⟩ := Progress.path_of_ends hprogram hstart hends
  refine ⟨_, _, _, load_of_wellFormed program hstart, hpath, hlast, fun listener hlistener => ?_⟩
  refine ⟨?_, fun observer hobserver htidy => ?_⟩
  · have hlistening := tracks_listen_of_new program start hlistener
    refine ⟨(hlistening.run_isSome_iff hprogram hstart).mpr ⟨result, hends⟩,
      fun fuel reply hrun => ?_⟩
    obtain ⟨hvalue, hevents⟩ :=
      run_shows hprogram hstart hends hlistening ⟨rfl, rfl, rfl⟩ hrun
    have hseen := hevents.trans (program.filter_trace_of_unobserved _ (fun _ => id) _ _ _ listener)
    refine ⟨hvalue, hseen, ?_⟩
    rw [hseen]
    exact program.logged_trace _ _ _ result listener false
  · have hquiet : ∀ hook ∈ some observer, hook.Quiet := by
      rintro hook ⟨⟩
      exact hobserver
    have hobserving := tracks_of_new program start hlistener hquiet fun _ => htidy
    obtain ⟨fuel, hreturns⟩ := (hobserving.run_isSome_iff hprogram hstart).mpr ⟨result, hends⟩
    refine ⟨⟨fuel, ?_⟩, fun fuel reply hrun => ?_⟩
    · rw [observe, Option.isSome_map]
      exact hreturns
    · obtain ⟨observed, hobserved, rfl⟩ := Option.map_eq_some_iff.mp hrun
      obtain ⟨hvalue, hevents⟩ :=
        run_shows hprogram hstart hends hobserving ⟨rfl, rfl, rfl⟩ hobserved
      refine ⟨hvalue, hevents, ?_, fun hplain => hevents.trans ?_⟩
      · change observed.events.filterMap Event.logged? = _
        rw [hevents]
        exact program.logged_trace _ _ _ result listener true
      · change (program.trace listener.shown _ _ _).filter (listener.shows true) = _
        rw [funext (listener.shown_of_plain hplain.step), funext (listener.shows_of_plain hplain)]

set_option maxRecDepth 4000 in
/-- The one instruction that is executed is told to the observer although there is no step
hook, and the fault after it is told to the error hook. -/
theorem run_shows_trace_of_fault :
    Program.Admissible [.set 4, .plain .pop] ∧ State.WellFormed {} ∧
      Program.Ends [.set 4, .plain .pop] {}
        { outcome := .faulted ⟨.stackEmpty, some 5⟩, steps := 1
          state := { pc := 1, register := 4 } } ∧
      ∃ fresh, load [.set 4, .plain .pop] {} = .ok fresh ∧
        ∃ fuel reply, (fresh.listen { error := some .quiet }).observe fuel .quiet = some reply ∧
          reply.events =
            [.log (.started 2), .observe (.set 4) { pc := 1, register := 4 },
              .log (.faulted 1 ⟨.stackEmpty, some 5⟩),
              .error ⟨.stackEmpty, some 5⟩ { pc := 1, register := 4 },
              .log (.finished (.faulted ⟨.stackEmpty, some 5⟩) 1)] := by
  have hprogram : Program.Admissible [.set 4, .plain .pop] := ⟨by decide, by decide⟩
  have hstart : State.WellFormed {} := by decide
  have hends : Program.Ends [.set 4, .plain .pop] {}
      { outcome := .faulted ⟨.stackEmpty, some 5⟩, steps := 1
        state := { pc := 1, register := 4 } } := ⟨2, rfl⟩
  obtain ⟨fresh, states, insts, hload, hpath, hlast, hruns⟩ :=
    run_shows_trace hprogram hstart hends
  have hquiet : Listener.All Hook.Quiet { error := some .quiet } :=
    ⟨by simp, by rintro hook ⟨⟩; exact fun _ => rfl, by simp⟩
  obtain ⟨⟨fuel, hreturns⟩, hshown⟩ := (hruns _ hquiet).2 .quiet (fun _ => rfl) (by simp)
  obtain ⟨reply, hreply⟩ := Option.isSome_iff_exists.mp hreturns
  obtain ⟨_, hevents, _, _⟩ := hshown fuel reply hreply
  refine ⟨hprogram, hstart, hends, fresh, hload, fuel, reply, hreply, ?_⟩
  have hset : insts 0 = .set 4 := by
    have hfetched := (hpath.fetched 0 Nat.zero_lt_one).2
    rw [hpath.first] at hfetched
    exact (Option.some.inj hfetched).symm
  rw [hevents, Program.trace, List.range_one, List.flatMap_singleton, hset, hlast]
  rfl

/-- An observed run is not seen as a plain one is. Hooks that the listener inherits are told of a
fault and of the end by a plain run only, and an observer is shown a register that no instruction
has written, although no hook fails. -/
theorem observed_run_shown_otherwise :
    (∃ fresh, load [.plain .pop] {} = .ok fresh ∧
      ((fresh.listen { error := some .inherited, finish := some .inherited }).run 1).map
        (·.events) = some
          [.log (.started 1), .log (.faulted 0 ⟨.stackEmpty, some 5⟩),
            .error ⟨.stackEmpty, some 5⟩ {}, .log (.finished (.faulted ⟨.stackEmpty, some 5⟩) 0),
            .finish { outcome := .faulted ⟨.stackEmpty, some 5⟩, steps := 0, state := {} }] ∧
      ((fresh.listen { error := some .inherited, finish := some .inherited }).observe 1
        .quiet).map (·.events) = some
          [.log (.started 1), .log (.faulted 0 ⟨.stackEmpty, some 5⟩),
            .log (.finished (.faulted ⟨.stackEmpty, some 5⟩) 0)]) ∧
    ∃ fresh, load [.set 4] {} = .ok fresh ∧
      ((fresh.listen { step := some (.writing ⟨.set 4, { pc := 1, register := 99 }⟩) }).observe 2
        .quiet).map (·.events) = some
          [.log (.started 1), .step 0 (.set 4) { pc := 1, register := 4 },
            .observe (.set 4) { pc := 1, register := 99 }, .log (.finished .endOfProgram 1)] :=
  ⟨⟨_, rfl, rfl, rfl⟩, ⟨_, rfl, rfl⟩⟩

end Machine

end WordMachine
