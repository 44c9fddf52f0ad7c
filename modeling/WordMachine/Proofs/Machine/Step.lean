import WordMachine.Proofs.Machine.Call

/-!
# One step of a machine

A step of a machine does what one more instruction does to a run, and reports it to
the hooks on the way. Where a hook fails, the step is cut off: a failing error hook
leaves the machine as it was, a failing step hook or observer leaves it behind the
instruction but without a result, and a failing end hook leaves it with the result. A
report that the step hook leaves unfit for the observer is like an observer that fails.
-/

namespace WordMachine.Machine

/-- The machine with a result. -/
def withResult (m : Machine) (result : Result) : Machine :=
  { m with result := some result }

/-- The machine after an instruction that has led to a state. -/
def moved (m : Machine) (state : State) : Machine :=
  { m with state, steps := m.steps + 1 }

/-- The result of a machine that ends now. -/
def resultNow (m : Machine) (outcome : Outcome) : Result :=
  { outcome, steps := m.steps, state := m.state }

/-- Ending a run keeps the result before the end hook is told of it. -/
theorem finish_eq {m : Machine} (hstate : m.state.WellFormed) (outcome : Outcome) :
    finish outcome m =
      { machine := (m.withResult (m.resultNow outcome)).notified .finish
        events := .log (.finished outcome m.steps) ::
          m.told .finish (.finish (m.resultNow outcome))
        value := if m.hookFails .finish then .error (.hook .finish)
          else .ok (m.resultNow outcome) } := by
  let result := m.resultNow outcome
  have hnotify := Call.notify_bind (m := m.withResult result) hstate .finish
    (fun _ => .finish result) fun _ => pure result
  unfold finish
  rw [Call.snapshot_bind hstate, Call.machine_bind, Call.update_bind, Call.log_bind]
  change ((Call.notify .finish m.state (fun _ => .finish result) >>= fun _ => pure result)
    (m.withResult result)).following _ = _
  rw [hnotify]
  change Reply.following (if m.hookFails .finish then _ else _) _ = _
  by_cases hfails : m.hookFails .finish = true
  · simp only [hfails, if_true]
    rfl
  · simp only [hfails, Bool.false_eq_true, if_false]
    simp only [Reply.following, Pure.pure, Call.answer, List.append_nil]
    rfl

/-- A fault is logged and told to the error hook before the run ends. -/
theorem fault_eq {m : Machine} (hstate : m.state.WellFormed) (cause : Fault) :
    fault cause m =
      if m.hookFails .error then
        { machine := m.notified .error
          events := .log (.faulted m.state.pc cause) :: m.told .error (.error cause m.state)
          value := .error (.hook .error) }
      else (finish (.faulted cause) (m.notified .error)).following
        (.log (.faulted m.state.pc cause) :: m.told .error (.error cause m.state)) := by
  unfold fault
  rw [Call.machine_bind, Call.log_bind, Call.notify_bind hstate]
  by_cases hfails : m.hookFails .error = true
  · simp only [hfails, if_true]
    rfl
  · simp only [hfails, Bool.false_eq_true, if_false]
    rfl

/-- How an executed instruction is counted and reported. The observer is shown what the step hook
has left of the report, and the run ends if the instruction is a halt. -/
inductive Reported (m : Machine) (inst : Instruction) (state : State) :
    Reply (Option Result) → Prop
  /-- The step hook has failed. -/
  | stepHookFailed (hfails : (m.moved state).hookFails .step = true) :
      Reported m inst state
        { machine := (m.moved state).notified .step
          events := (m.moved state).told .step (.step m.state.pc.toNat inst state)
          value := .error (.hook .step) }
  /-- The step hook has left a state that cannot be copied for the observer. -/
  | unfit {hook : Hook} {report : StepReport} {failure : Failure}
      (hobserved : m.observer.isSome) (hstep : m.listener.step = some hook)
      (hleft : hook.leavesNext = some report) (hcopy : report.state.copy = .error failure) :
      Reported m inst state
        { machine := (m.moved state).notified .step
          events := (m.moved state).told .step (.step m.state.pc.toNat inst state)
          value := .error (.failure failure) }
  /-- The observer has failed. -/
  | observerFailed (hfails : ((m.moved state).notified .step).hookFails .observe = true) :
      Reported m inst state
        { machine := ((m.moved state).notified .step).notified .observe
          events := (m.moved state).told .step (.step m.state.pc.toNat inst state) ++
            ((m.moved state).notified .step).told .observe
              (.observe (m.shown ⟨inst, state⟩).inst (m.shown ⟨inst, state⟩).state)
          value := .error (.hook .observe) }
  /-- Nothing has failed. -/
  | through :
      Reported m inst state
        ((if inst = .plain .halt then
            (finish .halted (((m.moved state).notified .step).notified .observe)).map some
          else
            { machine := ((m.moved state).notified .step).notified .observe
              events := []
              value := .ok none }).following
          ((m.moved state).told .step (.step m.state.pc.toNat inst state) ++
            ((m.moved state).notified .step).told .observe
              (.observe (m.shown ⟨inst, state⟩).inst (m.shown ⟨inst, state⟩).state)))

/-- What an observer is shown is well formed unless the step hook has written in it. -/
theorem exists_left_of_shown {m : Machine} {inst : Instruction} {state : State}
    (hstate : state.WellFormed) {failure : Failure}
    (hcopy : (m.shown ⟨inst, state⟩).state.copy = .error failure) :
    ∃ hook report, m.listener.step = some hook ∧ hook.leavesNext = some report ∧
      report.state.copy = .error failure := by
  unfold shown at hcopy
  cases hleft : m.listener.step.bind Hook.leavesNext with
  | none =>
    rw [hleft, Option.getD_none, State.copy_eq_ok_iff.mpr ⟨hstate, rfl⟩] at hcopy
    cases hcopy
  | some report =>
    rw [hleft, Option.getD_some] at hcopy
    obtain ⟨hook, hstep, hreport⟩ := Option.bind_eq_some_iff.mp hleft
    exact ⟨hook, report, hstep, hreport, hcopy⟩

/-- An executed instruction is reported in one of these ways. -/
theorem proceed_reported {m : Machine} {state : State} (hstate : state.WellFormed)
    (inst : Instruction) : Reported m inst state (proceed inst state m) := by
  let stepped := (m.moved state).notified .step
  let shown := m.shown ⟨inst, state⟩
  let rest : Call (Option Result) :=
    if inst = .plain .halt then finish .halted >>= fun result => pure (some result) else pure none
  have hrest (machine : Machine) : rest machine =
      if inst = .plain .halt then (finish .halted machine).map some
      else { machine, events := [], value := .ok none } := by
    simp only [rest]
    split
    · exact Call.bind_pure_apply ..
    · rfl
  have hproceed : proceed inst state m =
      (Call.notify .step state (.step m.state.pc.toNat inst) >>= fun left =>
        Call.notify .observe (left.getD ⟨inst, state⟩).state
          (.observe (left.getD ⟨inst, state⟩).inst) >>= fun _ => rest) (m.moved state) := rfl
  rw [hproceed, Call.notify_bind hstate]
  by_cases hstep : (m.moved state).hookFails .step = true
  · rw [if_pos hstep]
    exact .stepHookFailed hstep
  · rw [if_neg hstep]
    change Reported m inst state
      (((Call.notify .observe shown.state (.observe shown.inst) >>= fun _ => rest)
        stepped).following _)
    cases hcopy : shown.state.copy with
    | ok copied =>
      have hshown := (State.copy_eq_ok_iff.mp hcopy).1
      rw [Call.notify_bind hshown]
      by_cases hobserve : stepped.hookFails .observe = true
      · rw [if_pos hobserve]
        exact .observerFailed hobserve
      · rw [if_neg hobserve, hrest, Reply.following_following]
        exact .through
    | error failure =>
      cases hobserver : stepped.hook? .observe with
      | none =>
        -- Without an observer it does not matter what the step hook has left.
        have htold (event : Event) : stepped.told .observe event = [] := by
          simp only [told, hobserver]
        have hnotified : stepped.notified .observe = stepped := by
          simp only [notified, hobserver]
        have hthrough : Reported m inst state _ := .through
        rw [Call.notify_bind_of_no_hook hobserver, hrest]
        rw [htold, hnotified, List.append_nil] at hthrough
        exact hthrough
      | some observer =>
        have hobserved : m.observer.isSome :=
          (isSome_observer_notified (m.moved state) .step).symm.trans
            (Option.isSome_iff_exists.mpr ⟨observer, hobserver⟩)
        obtain ⟨hook, report, hhook, hleft, hunfit⟩ := exists_left_of_shown hstate hcopy
        rw [Call.notify_bind_of_copy_eq_error hobserver hcopy]
        simp only [Reply.following, List.append_nil]
        exact .unfit hobserved hhook hleft hunfit

/-- A machine that stands where a run has come to. -/
structure At (m : Machine) (progress : Progress) : Prop where
  /-- The state is that of the run. -/
  state : m.state = progress.state
  /-- So many instructions have been executed. -/
  steps : m.steps = progress.steps
  /-- There is a result if the run has ended. -/
  result : m.result = progress.result?

/-- How a step comes out, given where the run was and where one more instruction takes it:
where the machine is then, and what it answers. A hook fails only if the machine is not quiet,
and a report is unfit only if the machine is not tidy. -/
inductive StepOutcome (quiet tidy : Prop) (before next : Progress) :
    Progress → Except Interrupt (Option Result) → Prop
  /-- The run has gone on, and the answer is the result if it has ended. -/
  | answered : StepOutcome quiet tidy before next next (.ok next.result?)
  /-- The end hook has failed, and the result is kept all the same. -/
  | endHookFailed (hloud : ¬ quiet) {result : Result} (hnext : next = .ended result) :
      StepOutcome quiet tidy before next next (.error (.hook .finish))
  /-- The error hook has failed, and the fault has not ended the run. -/
  | errorHookFailed (hloud : ¬ quiet) {fault : Fault}
      (hnext : next = .ended
        { outcome := .faulted fault, steps := before.steps, state := before.state }) :
      StepOutcome quiet tidy before next before (.error (.hook .error))
  /-- The step hook or the observer has failed. The instruction has been executed, but not even
  a halt has ended the run. -/
  | reportFailed (hloud : ¬ quiet) {name : HookName} (hname : name = .step ∨ name = .observe)
      (hsteps : next.steps = before.steps + 1) :
      StepOutcome quiet tidy before next (.running next.steps next.state) (.error (.hook name))
  /-- The report has been left unfit for the observer. The instruction has been executed, but not
  even a halt has ended the run. -/
  | reportUnfit (hleft : ¬ tidy) {failure : Failure} (hsteps : next.steps = before.steps + 1) :
      StepOutcome quiet tidy before next (.running next.steps next.state)
        (.error (.failure failure))

/-- A machine from which a calm one comes by calls need not be asked again. -/
theorem StepOutcome.of_imp {quiet quiet' tidy tidy' : Prop} {before next reached : Progress}
    {value : Except Interrupt (Option Result)} (hquiet : quiet' → quiet) (htidy : tidy' → tidy)
    (h : StepOutcome quiet tidy before next reached value) :
    StepOutcome quiet' tidy' before next reached value := by
  cases h with
  | answered => exact .answered
  | endHookFailed hloud hnext => exact .endHookFailed (hloud ∘ hquiet) hnext
  | errorHookFailed hloud hnext => exact .errorHookFailed (hloud ∘ hquiet) hnext
  | reportFailed hloud hname hsteps => exact .reportFailed (hloud ∘ hquiet) hname hsteps
  | reportUnfit hleft hsteps => exact .reportUnfit (hleft ∘ htidy) hsteps

/-- A run that ends leaves its result in the machine, whether or not the end hook fails. -/
theorem finish_outcome {m : Machine} (hstate : m.state.WellFormed) {outcome : Outcome}
    (before : Progress) {next : Progress} (hnext : next = .ended (m.resultNow outcome)) :
    (finish outcome m).machine.At next ∧
      StepOutcome m.Quiet m.Tidy before next next ((finish outcome m).value.map some) := by
  rw [finish_eq hstate]
  refine ⟨?_, ?_⟩
  · subst hnext
    exact ⟨notified_state _ _, notified_steps _ _, notified_result _ _⟩
  · by_cases hfails : m.hookFails .finish = true
    · simp only [hfails, if_true]
      exact .endHookFailed (not_quiet_of_hookFails hfails) hnext
    · subst hnext
      simp only [hfails, Bool.false_eq_true, if_false]
      exact .answered

/-- A fault ends the run unless the error hook fails, which leaves the machine as it was. -/
theorem fault_outcome {m : Machine} (hstate : m.state.WellFormed) {cause : Fault}
    {before next : Progress} (hat : m.At before)
    (hnext : next = .ended (m.resultNow (.faulted cause))) :
    ∃ reached, (fault cause m).machine.At reached ∧
      StepOutcome m.Quiet m.Tidy before next reached ((fault cause m).value.map some) := by
  rw [fault_eq hstate]
  by_cases hfails : m.hookFails .error = true
  · simp only [hfails, if_true]
    have hended : next = .ended
        { outcome := .faulted cause, steps := before.steps, state := before.state } := by
      rw [hnext, resultNow, hat.state, hat.steps]
    refine ⟨before, ⟨?_, ?_, ?_⟩, .errorHookFailed (not_quiet_of_hookFails hfails) hended⟩
    · rw [notified_state, hat.state]
    · rw [notified_steps, hat.steps]
    · rw [notified_result, hat.result]
  · simp only [hfails, Bool.false_eq_true, if_false]
    have hnotified : (m.notified .error).state.WellFormed := by rw [notified_state]; exact hstate
    have hended : next = .ended ((m.notified .error).resultNow (.faulted cause)) := by
      rw [hnext, resultNow, resultNow, notified_state, notified_steps]
    have hfollows := m.follows_notified .error
    obtain ⟨hreached, houtcome⟩ := finish_outcome hnotified before hended
    exact ⟨next, hreached, houtcome.of_imp hfollows.quiet hfollows.tidy⟩

/-- A report that is unfit for the observer has been left by a step hook that is not tidy. -/
theorem not_tidy_of_left {m : Machine} {hook : Hook} {report : StepReport} {failure : Failure}
    (hobserved : m.observer.isSome) (hstep : m.listener.step = some hook)
    (hleft : hook.leavesNext = some report) (hcopy : report.state.copy = .error failure) :
    ¬ m.Tidy := by
  intro htidy
  have hwell := htidy hobserved hook hstep hook.calls report hleft
  rw [State.copy_eq_ok_iff.mpr ⟨hwell, rfl⟩] at hcopy
  cases hcopy

/-- An instruction that has been executed takes the machine to the next state. It ends the run
if it is a halt, unless its report fails. -/
theorem proceed_outcome {m : Machine} {inst : Instruction} {state : State}
    (hstate : state.WellFormed) (hresult : m.result = none) {before next : Progress}
    (hat : m.At before)
    (hnext : next = if inst = .plain .halt then
        .ended { outcome := .halted, steps := m.steps + 1, state }
      else .running (m.steps + 1) state) :
    ∃ reached, (proceed inst state m).machine.At reached ∧
      StepOutcome m.Quiet m.Tidy before next reached (proceed inst state m).value := by
  let stepped := (m.moved state).notified .step
  let observed := stepped.notified .observe
  have hmoved : m.Follows (m.moved state) := follows_of_same_hooks rfl rfl rfl
  have hstepped : m.Follows stepped := hmoved.trans (follows_notified _ .step)
  have hobserved : m.Follows observed := hstepped.trans (stepped.follows_notified .observe)
  have hsteppedAt : stepped.At (.running (m.steps + 1) state) :=
    ⟨notified_state _ _, notified_steps _ _, (notified_result _ _).trans hresult⟩
  have hobservedAt : observed.At (.running (m.steps + 1) state) :=
    ⟨(notified_state _ _).trans hsteppedAt.state, (notified_steps _ _).trans hsteppedAt.steps,
      (notified_result _ _).trans hsteppedAt.result⟩
  have hnextState : next.state = state ∧ next.steps = m.steps + 1 := by
    rw [hnext]
    split <;> exact ⟨rfl, rfl⟩
  have hunreported : Progress.running next.steps next.state = .running (m.steps + 1) state := by
    rw [hnextState.1, hnextState.2]
  have hcount : next.steps = before.steps + 1 := by rw [hnextState.2, hat.steps]
  have hreported := proceed_reported (m := m) hstate inst
  generalize proceed inst state m = reply at hreported ⊢
  cases hreported with
  | stepHookFailed hfails =>
    exact ⟨_, hunreported ▸ hsteppedAt,
      .reportFailed (not_quiet_of_hookFails hfails ∘ hmoved.quiet) (.inl rfl) hcount⟩
  | unfit hwatched hstep hleft hcopy =>
    exact ⟨_, hunreported ▸ hsteppedAt,
      .reportUnfit (not_tidy_of_left hwatched hstep hleft hcopy) hcount⟩
  | observerFailed hfails =>
    exact ⟨_, hunreported ▸ hobservedAt,
      .reportFailed (not_quiet_of_hookFails hfails ∘ hstepped.quiet) (.inr rfl) hcount⟩
  | through =>
    by_cases hhalt : inst = .plain .halt
    · rw [if_pos hhalt] at hnext ⊢
      have hwell : observed.state.WellFormed := hobservedAt.state ▸ hstate
      have hended : next = .ended (observed.resultNow .halted) := by
        rw [hnext, resultNow, hobservedAt.state, hobservedAt.steps]
        rfl
      obtain ⟨hreached, houtcome⟩ := finish_outcome hwell before hended
      exact ⟨next, hreached, houtcome.of_imp hobserved.quiet hobserved.tidy⟩
    · rw [if_neg hhalt] at hnext ⊢
      subst hnext
      exact ⟨_, hobservedAt, .answered⟩

/-- The instruction at the program counter is the one in the program. -/
theorem current?_eq (m : Machine) : m.current? = m.program[m.state.pc.toNat]? :=
  Array.getElem?_toList.symm

/-- A step of a machine that has a result gives it and does nothing else. -/
theorem step_of_result {m : Machine} {result : Result} (hresult : m.result = some result) :
    step m = { machine := m, events := [], value := .ok (some result) } := by
  unfold step
  rw [Call.machine_bind, hresult]
  rfl

/-- A step of a machine that has no result ends the run where there is no instruction or where
the instruction is a fault, and goes on to the next state otherwise. -/
theorem step_of_running {m : Machine} (hstate : m.state.WellFormed)
    (hprogram : m.program.Admissible) (hresult : m.result = none) :
    (m.current? = none ∧ step m = (finish .endOfProgram m).map some) ∨
    (∃ inst cause, m.current? = some inst ∧ execute m.state inst = .error (.fault cause) ∧
      step m = (fault cause m).map some) ∨
    (∃ inst after, m.current? = some inst ∧ execute m.state inst = .ok after ∧
      after.WellFormed ∧ step m = proceed inst after m) := by
  unfold step
  rw [Call.machine_bind]
  simp only [hresult, current?_eq]
  rcases Progress.next_running hprogram m.steps hstate with
    ⟨hinst, _⟩ | ⟨inst, cause, hinst, hexecute, _⟩ | ⟨inst, after, hinst, hexecute, hafter, _⟩
  · refine .inl ⟨hinst, ?_⟩
    simp only [hinst]
    rw [Call.bind_pure_apply]
  · refine .inr (.inl ⟨inst, cause, hinst, hexecute, ?_⟩)
    simp only [hinst, hexecute]
    rw [Call.bind_pure_apply]
  · refine .inr (.inr ⟨inst, after, hinst, hexecute, hafter, ?_⟩)
    simp only [hinst, hexecute]

/-- Ending a run keeps what all calls keep. -/
theorem keeps_finish (outcome : Outcome) : Call.Keeps (finish outcome) := by
  unfold finish
  refine Call.keeps_snapshot.bind fun state => ?_
  refine Call.keeps_machine.bind fun m => ?_
  refine Call.Keeps.bind (Call.keeps_update (fun _ => rfl) (fun _ => rfl) fun _ => rfl) fun _ => ?_
  refine (Call.keeps_log _).bind fun _ => ?_
  exact (Call.keeps_notify _ _ _).bind fun _ => Call.keeps_pure _

/-- So does a fault. -/
theorem keeps_fault (cause : Fault) : Call.Keeps (fault cause) := by
  unfold fault
  refine Call.keeps_machine.bind fun m => ?_
  refine (Call.keeps_log _).bind fun _ => ?_
  exact (Call.keeps_notify _ _ _).bind fun _ => keeps_finish _

/-- So does going on to the next state. -/
theorem keeps_proceed (inst : Instruction) (state : State) :
    Call.Keeps (proceed inst state) := by
  unfold proceed
  refine Call.keeps_machine.bind fun m => ?_
  refine Call.Keeps.bind (Call.keeps_update (fun _ => rfl) (fun _ => rfl) fun _ => rfl) fun _ => ?_
  refine (Call.keeps_notify _ _ _).bind fun _ => (Call.keeps_notify _ _ _).bind fun _ => ?_
  split
  · exact (keeps_finish _).bind fun _ => Call.keeps_pure _
  · exact Call.keeps_pure _

/-- So does a step. -/
theorem follows_step (m : Machine) : m.Follows (step m).machine := by
  have hkeeps : Call.Keeps step := by
    unfold step
    refine Call.keeps_machine.bind fun m => ?_
    split
    · exact Call.keeps_pure _
    · split
      · exact (keeps_finish _).bind fun _ => Call.keeps_pure _
      · split
        · exact Call.keeps_fail _
        · exact (keeps_fault _).bind fun _ => Call.keeps_pure _
        · exact keeps_proceed _ _
  exact hkeeps m

/-- A step of a machine that stands where a run has come to does what one more instruction
does to the run, unless a hook interferes. -/
theorem step_outcome {m : Machine} {capacity : Int} {before : Progress}
    (hprogram : m.program.Admissible) (hat : m.At before) (hsound : before.Sound capacity) :
    ∃ reached, (step m).machine.At reached ∧
      StepOutcome m.Quiet m.Tidy before (before.next m.program) reached (step m).value := by
  cases before with
  | running steps state =>
    obtain ⟨hstate, hsteps, hresult⟩ := id hat
    obtain ⟨hwell, _⟩ := hsound
    simp only [Progress.state, Progress.steps, Progress.result?] at hstate hsteps hresult
    subst hstate hsteps
    rcases step_of_running hwell hprogram hresult with
      ⟨hinst, hstep⟩ | ⟨inst, cause, hinst, hexecute, hstep⟩ |
      ⟨inst, after, hinst, hexecute, hafter, hstep⟩
    · rw [hstep]
      refine ⟨_, finish_outcome hwell _ ?_⟩
      simp only [Progress.next, ← current?_eq, hinst, resultNow]
    · rw [hstep]
      refine fault_outcome hwell hat ?_
      simp only [Progress.next, ← current?_eq, hinst, hexecute, resultNow]
    · rw [hstep]
      refine proceed_outcome hafter hresult hat ?_
      simp only [Progress.next, ← current?_eq, hinst, hexecute]
  | ended result =>
    rw [step_of_result hat.result]
    exact ⟨_, hat, .answered⟩
  | stuck steps state error => exact hsound.elim

end WordMachine.Machine
