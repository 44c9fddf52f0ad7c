import WordMachine.Proofs.Machine.Advance
import WordMachine.Proofs.Machine.Refinement

/-!
# Hooks that fail do not change what a program computes

A hook that fails cuts off the step that called it. A failing error hook leaves the
machine as it was, so that the fault is met again. A failing step hook or observer
leaves it behind the instruction, as does a report that is left unfit for the observer,
and a failing end hook leaves it with the result. The next call goes on from there, and
in the end the result is that of the undisturbed run, with one exception: a halt whose
report failed is executed and counted again.
-/

namespace WordMachine

namespace Progress

/-- The run with so many instructions counted in addition. -/
def overcount (extra : Nat) : Progress → Progress
  | running steps state => .running (steps + extra) state
  | ended result => .ended { result with steps := result.steps + extra }
  | stuck steps state error => .stuck (steps + extra) state error

/-- A run with nothing counted in addition is the run itself. -/
theorem overcount_zero (progress : Progress) : progress.overcount 0 = progress := by
  cases progress <;> rfl

/-- What an instruction does to a run does not depend on the count. -/
theorem next_overcount (program : Program) (extra : Nat) (progress : Progress) :
    (progress.overcount extra).next program = (progress.next program).overcount extra := by
  cases progress with
  | running steps state =>
    have hcount : steps + extra + 1 = steps + 1 + extra := by omega
    simp only [overcount, next]
    split
    · rfl
    · split
      · rfl
      · rfl
      · rw [hcount]
        split
        · rfl
        · rfl
  | ended result => rfl
  | stuck steps state error => rfl

/-- The count has no part in whether a run is sound. -/
theorem Sound.overcount {capacity : Int} {progress : Progress} (h : progress.Sound capacity)
    (extra : Nat) : (progress.overcount extra).Sound capacity := by
  cases progress with
  | running steps state => exact h
  | ended result => exact h
  | stuck steps state error => exact h

end Progress

/-- Whether an interrupt comes from the report on an executed instruction. -/
def Interrupt.concernsReport : Interrupt → Bool
  | .hook .step | .hook .observe | .failure _ => true
  | .hook .error | .hook .finish => false

namespace Reply

variable {α β : Type} {before : Machine} {reply : Reply α} {other : Reply β}

/-- The instruction that the last event reports. The step hook is told of it as it is, and the
observer after it perhaps of another one. -/
def reported? (reply : Reply α) : Option Instruction :=
  match reply.machine.listener.step, reply.events.reverse with
  | some _, .observe _ _ :: .step _ inst _ :: _ => some inst
  | none, .observe inst _ :: _ => some inst
  | _, .step _ inst _ :: _ => some inst
  | _, _ => none

/-- What is reported depends on the events and on whether there is a step hook. -/
theorem reported?_eq (hlistener : reply.machine.listener = other.machine.listener)
    (hevents : reply.events = other.events) : reply.reported? = other.reported? := by
  simp only [reported?, hlistener, hevents]

/-- A report to the step hook is about the instruction. -/
theorem reported?_of_step {index : Nat} {inst : Instruction} {state : State}
    (hevents : reply.events = [.step index inst state]) : reply.reported? = some inst := by
  unfold reported?
  rw [hevents]
  cases reply.machine.listener.step with
  | none => rfl
  | some hook => rfl

/-- Whether the report on a halt has failed. -/
def haltReportFailed (reply : Reply α) : Bool :=
  match reply.value with
  | .error interrupt => interrupt.concernsReport && reply.reported? = some (.plain .halt)
  | .ok _ => false

/-- Earlier events do not matter to what the last event reports. -/
theorem reported?_following {inst : Instruction} (h : reply.reported? = some inst)
    (past : List Event) : (reply.following past).reported? = some inst := by
  unfold reported? at h ⊢
  simp only [Reply.following, List.reverse_append]
  split at h <;> simp_all

/-- What a step leaves behind that has been cut off: what was told last, and where the machine is
then. -/
inductive CutOff (before : Machine) (reply : Reply α) : Prop
  /-- The error hook was told of a fault and failed. The machine is as it was. -/
  | error {inst : Instruction} {cause : Fault} (hinst : before.current? = some inst)
      (hexecute : execute before.state inst = .error (.fault cause))
      (hvalue : reply.value = .error (.hook .error))
      (hlast : reply.events.getLast? = some (.error cause before.state))
      (hstate : reply.machine.state = before.state)
      (hsteps : reply.machine.steps = before.steps)
      (hresult : reply.machine.result = before.result)
  /-- The step hook or the observer was told of an instruction, which has been executed and
  counted, and failed. There is no result yet. -/
  | report {name : HookName} {event : Event} {inst : Instruction} {state : State}
      (hinst : before.current? = some inst) (hexecute : execute before.state inst = .ok state)
      (hvalue : reply.value = .error (.hook name)) (hlast : reply.events.getLast? = some event)
      (hreport : name = .step ∧ event = .step before.state.pc.toNat inst state ∨
        name = .observe ∧ event = .observe (before.shown ⟨inst, state⟩).inst
          (before.shown ⟨inst, state⟩).state)
      (hreported : reply.reported? = some inst)
      (hstate : reply.machine.state = state)
      (hsteps : reply.machine.steps = before.steps + 1)
      (hresult : reply.machine.result = before.result)
  /-- The step hook was told of an instruction, which has been executed and counted, and has left
  a state that cannot be copied for the observer. There is no result yet. -/
  | unfit {inst : Instruction} {state : State} {hook : Hook} {report : StepReport}
      {failure : Failure} (hinst : before.current? = some inst)
      (hexecute : execute before.state inst = .ok state)
      (hvalue : reply.value = .error (.failure failure))
      (hlast : reply.events.getLast? = some (.step before.state.pc.toNat inst state))
      (hreported : reply.reported? = some inst) (hobserved : before.observer.isSome)
      (hstep : reply.machine.listener.step = some hook) (hleft : hook.left? = some report)
      (hcopy : report.state.copy = .error failure)
      (hstate : reply.machine.state = state)
      (hsteps : reply.machine.steps = before.steps + 1)
      (hresult : reply.machine.result = before.result)
  /-- The end hook was told of the result, which is kept, and failed. -/
  | finish {result : Result} (hvalue : reply.value = .error (.hook .finish))
      (hlast : reply.events.getLast? = some (.finish result))
      (hresult : reply.machine.result = some result)
      (hsteps : result.steps = reply.machine.steps)
      (hstate : result.state = reply.machine.state)

/-- One reply ends like another one and leaves the machine in the same place, with the same
hooks. -/
structure EndsLike (reply : Reply α) (other : Reply β) : Prop where
  /-- It is interrupted in the same way. -/
  value : ∀ interrupt, reply.value = .error interrupt → other.value = .error interrupt
  /-- The last event is the same. -/
  last : ∀ event, reply.events.getLast? = some event → other.events.getLast? = some event
  /-- The last report is about the same instruction. -/
  reported : ∀ inst, reply.reported? = some inst → other.reported? = some inst
  /-- The listener is the same. -/
  listener : other.machine.listener = reply.machine.listener
  /-- The state is the same. -/
  state : other.machine.state = reply.machine.state
  /-- The count is the same. -/
  steps : other.machine.steps = reply.machine.steps
  /-- The result that is kept is the same. -/
  result : other.machine.result = reply.machine.result

/-- A reply that ends like one that is cut off is cut off itself. -/
theorem CutOff.congr (h : reply.CutOff before) (hends : reply.EndsLike other) :
    other.CutOff before := by
  cases h with
  | error hinst hexecute hvalue hlast hstate hsteps hresult =>
    exact .error hinst hexecute (hends.value _ hvalue) (hends.last _ hlast)
      (hends.state.trans hstate) (hends.steps.trans hsteps) (hends.result.trans hresult)
  | report hinst hexecute hvalue hlast hreport hreported hstate hsteps hresult =>
    exact .report hinst hexecute (hends.value _ hvalue) (hends.last _ hlast) hreport
      (hends.reported _ hreported) (hends.state.trans hstate) (hends.steps.trans hsteps)
      (hends.result.trans hresult)
  | unfit hinst hexecute hvalue hlast hreported hobserved hstep hleft hcopy hstate hsteps hresult =>
    exact .unfit hinst hexecute (hends.value _ hvalue) (hends.last _ hlast)
      (hends.reported _ hreported) hobserved ((congrArg Listener.step hends.listener).trans hstep)
      hleft hcopy (hends.state.trans hstate) (hends.steps.trans hsteps)
      (hends.result.trans hresult)
  | finish hvalue hlast hresult hsteps hstate =>
    exact .finish (hends.value _ hvalue) (hends.last _ hlast) (hends.result.trans hresult)
      (hsteps.trans hends.steps.symm) (hstate.trans hends.state.symm)

/-- Earlier events do not matter to a reply that is cut off. -/
theorem CutOff.following (h : reply.CutOff before) (past : List Event) :
    (reply.following past).CutOff before := by
  refine h.congr ⟨fun _ hvalue => hvalue, fun event hlast => ?_,
    fun inst hreported => reported?_following hreported past, rfl, rfl, rfl, rfl⟩
  rw [Reply.following, List.getLast?_append, hlast]
  rfl

/-- An answer that is only reshaped is cut off like the answer itself. -/
theorem CutOff.map (h : reply.CutOff before) (f : α → β) : (reply.map f).CutOff before :=
  h.congr ⟨fun _ hvalue => Reply.map_value_eq_error_iff.mpr hvalue, fun _ hlast => hlast,
    fun _ hreported => hreported, rfl, rfl, rfl, rfl⟩

/-- An answer that is given is no report that failed. -/
theorem haltReportFailed_of_ok {a : α} (h : reply.value = .ok a) :
    reply.haltReportFailed = false := by
  simp only [haltReportFailed, h]

end Reply

namespace Machine

/-- The report on a halt fails in an echo exactly if it fails in the reply that is echoed. -/
theorem Echoes.haltReportFailed {inner : Reply (Option Result)} {outer : Reply Answer}
    (h : Echoes inner outer) : outer.haltReportFailed = inner.haltReportFailed := by
  cases hvalue : outer.value with
  | error interrupt =>
    have hinner := (h.interrupted interrupt).mp hvalue
    simp only [Reply.haltReportFailed, hvalue, hinner,
      Reply.reported?_eq (h.listener interrupt hinner) h.events]
  | ok answer =>
    cases hinner : inner.value with
    | error interrupt =>
      rw [(h.interrupted interrupt).mpr hinner] at hvalue
      cases hvalue
    | ok result => rw [Reply.haltReportFailed_of_ok hvalue, Reply.haltReportFailed_of_ok hinner]

/-- Ending a run is cut off by the end hook only. -/
theorem finish_cutOff {m : Machine} (hstate : m.state.WellFormed) {outcome : Outcome}
    {interrupt : Interrupt} (h : (finish outcome m).value = .error interrupt)
    (before : Machine) : (finish outcome m).CutOff before := by
  let kept := m.withResult (m.resultNow outcome)
  rw [finish_eq hstate] at h ⊢
  by_cases hfails : m.hookFails .finish = true
  · refine .finish (if_pos hfails) ?_ (notified_result kept .finish)
      (notified_steps kept .finish).symm (notified_state kept .finish).symm
    rw [told_of_hookFails hfails]
    rfl
  · simp only [hfails, Bool.false_eq_true, if_false] at h
    cases h

/-- A fault is cut off by the error hook, or by the end hook afterwards. -/
theorem fault_cutOff {m : Machine} (hstate : m.state.WellFormed) {inst : Instruction}
    {cause : Fault} (hinst : m.current? = some inst)
    (hexecute : execute m.state inst = .error (.fault cause)) {interrupt : Interrupt}
    (h : (fault cause m).value = .error interrupt) : (fault cause m).CutOff m := by
  rw [fault_eq hstate] at h ⊢
  by_cases hfails : m.hookFails .error = true
  · rw [if_pos hfails]
    refine .error hinst hexecute rfl ?_ (notified_state _ _) (notified_steps _ _)
      (notified_result _ _)
    rw [told_of_hookFails hfails]
    rfl
  · rw [if_neg hfails] at h ⊢
    have hnotified : (m.notified .error).state.WellFormed := by
      rw [notified_state]
      exact hstate
    exact (finish_cutOff hnotified h m).following _

/-- The instruction is read off the report of a step, or off what the observer was shown if there is
no step hook. -/
theorem reported?_of_observer (m : Machine) (inst : Instruction) (state : State)
    (value : Except Interrupt (Option Result)) :
    Reply.reported?
      { machine := ((m.moved state).notified .step).notified .observe
        events := (m.moved state).told .step (.step m.state.pc.toNat inst state) ++
          [.observe (m.shown ⟨inst, state⟩).inst (m.shown ⟨inst, state⟩).state]
        value } = some inst := by
  have hcalled : (((m.moved state).notified .step).notified .observe).listener.step =
      m.listener.step.map Hook.afterCall :=
    (step_notified _ .observe).trans (step_notified (m.moved state) .step)
  unfold Reply.reported?
  rw [hcalled]
  cases hstep : m.listener.step with
  | none =>
    have hhook : (m.moved state).hook? .step = none := hstep
    simp [told, hhook, shown, hstep]
  | some hook =>
    have hhook : (m.moved state).hook? .step = some hook := hstep
    simp [told, hhook]

/-- An instruction that has been executed is cut off by the step hook or the observer, or, if it
is a halt, by the end hook afterwards. -/
theorem proceed_cutOff {m : Machine} {inst : Instruction} {state : State}
    (hinst : m.current? = some inst) (hexecute : execute m.state inst = .ok state)
    (hstate : state.WellFormed) {interrupt : Interrupt}
    (h : (proceed inst state m).value = .error interrupt) : (proceed inst state m).CutOff m := by
  let stepped := (m.moved state).notified .step
  let observed := stepped.notified .observe
  have hsteppedState : stepped.state = state := notified_state _ _
  have hobservedState : observed.state = state := (notified_state _ _).trans hsteppedState
  have hsteppedSteps : stepped.steps = m.steps + 1 := notified_steps _ _
  have hobservedSteps : observed.steps = m.steps + 1 := (notified_steps _ _).trans hsteppedSteps
  have hsteppedResult : stepped.result = m.result := notified_result _ _
  have hobservedResult : observed.result = m.result :=
    (notified_result _ _).trans hsteppedResult
  have hsteppedHook : stepped.listener.step = m.listener.step.map Hook.afterCall :=
    step_notified (m.moved state) .step
  have hreported := proceed_reported (m := m) hstate inst
  generalize proceed inst state m = reply at h hreported ⊢
  cases hreported with
  | stepHookFailed hfails =>
    rw [told_of_hookFails hfails]
    exact .report hinst hexecute rfl rfl (.inl ⟨rfl, rfl⟩) (Reply.reported?_of_step rfl)
      hsteppedState hsteppedSteps hsteppedResult
  | @unfit hook report failure hobserved hstep hleft hcopy =>
    have htold (event : Event) : (m.moved state).told .step event = [event] := by
      have hhook : (m.moved state).hook? .step = some hook := hstep
      simp only [told, hhook]
    rw [hstep] at hsteppedHook
    rw [htold]
    exact .unfit hinst hexecute rfl rfl (Reply.reported?_of_step rfl) hobserved hsteppedHook hleft
      hcopy hsteppedState hsteppedSteps hsteppedResult
  | observerFailed hfails =>
    rw [told_of_hookFails hfails]
    exact .report hinst hexecute rfl (by rw [List.getLast?_append]; rfl) (.inr ⟨rfl, rfl⟩)
      (reported?_of_observer m inst state _) hobservedState hobservedSteps hobservedResult
  | through =>
    refine Reply.CutOff.following ?_ _
    by_cases hhalt : inst = .plain .halt
    · rw [if_pos hhalt] at h ⊢
      have hwell : observed.state.WellFormed := by
        rw [hobservedState]
        exact hstate
      exact (finish_cutOff hwell (Reply.map_value_eq_error_iff.mp h) m).map some
    · rw [if_neg hhalt] at h
      cases h

/-- A step that is interrupted has been cut off by a hook. -/
theorem step_cutOff {m : Machine} (hstate : m.state.WellFormed)
    (hprogram : m.program.Admissible) {interrupt : Interrupt}
    (h : (step m).value = .error interrupt) : (step m).CutOff m := by
  cases hresult : m.result with
  | some result =>
    rw [step_of_result hresult] at h
    cases h
  | none =>
    rcases step_of_running hstate hprogram hresult with
      ⟨hinst, hstep⟩ | ⟨inst, cause, hinst, hexecute, hstep⟩ |
      ⟨inst, after, hinst, hexecute, hafter, hstep⟩
    · rw [hstep] at h ⊢
      exact (finish_cutOff hstate (Reply.map_value_eq_error_iff.mp h) m).map some
    · rw [hstep] at h ⊢
      exact (fault_cutOff hstate hinst hexecute (Reply.map_value_eq_error_iff.mp h)).map some
    · rw [hstep] at h ⊢
      exact proceed_cutOff hinst hexecute hafter h

/-- Where the machine is when the report on an instruction has failed: at the next point of the
run, unless the instruction is a halt, which is then due again. -/
theorem report_cutOff {m : Machine} (hwell : m.state.WellFormed) {steps : Nat} {state : State}
    (hat : m.At (.running steps state)) {interrupt : Interrupt}
    (hconcerns : interrupt.concernsReport = true) (hvalue : (step m).value = .error interrupt)
    (hcut : (step m).CutOff m) :
    ((step m).haltReportFailed = true ∧ (step m).machine.At (.running (steps + 1) state)) ∨
    ((step m).haltReportFailed = false ∧
      (step m).machine.At ((Progress.running steps state).next m.program)) := by
  obtain ⟨inst, after, hinst, hexecute, hreported, hstate, hsteps, hresult⟩ :
      ∃ inst after, m.current? = some inst ∧ execute m.state inst = .ok after ∧
        (step m).reported? = some inst ∧ (step m).machine.state = after ∧
        (step m).machine.steps = m.steps + 1 ∧ (step m).machine.result = m.result := by
    cases hcut with
    | error _ _ hother =>
      obtain rfl := Except.error.inj (hvalue.symm.trans hother)
      cases hconcerns
    | report hinst hexecute _ _ _ hreported hstate hsteps hresult =>
      exact ⟨_, _, hinst, hexecute, hreported, hstate, hsteps, hresult⟩
    | unfit hinst hexecute _ _ hreported _ _ _ _ hstate hsteps hresult =>
      exact ⟨_, _, hinst, hexecute, hreported, hstate, hsteps, hresult⟩
    | finish hother =>
      obtain rfl := Except.error.inj (hvalue.symm.trans hother)
      cases hconcerns
  obtain ⟨hbefore, hcount, hnone⟩ := hat
  simp only [Progress.state, Progress.steps, Progress.result?] at hbefore hcount hnone
  subst hbefore hcount
  have hfailed : (step m).haltReportFailed = decide (inst = .plain .halt) := by
    simp only [Reply.haltReportFailed, hvalue, hconcerns, hreported, Option.some.injEq,
      Bool.true_and]
  by_cases hhalt : inst = .plain .halt
  · subst hhalt
    rw [execute_halt hwell] at hexecute
    obtain rfl := Except.ok.inj hexecute
    exact .inl ⟨hfailed.trans (decide_eq_true rfl), hstate, hsteps, hresult.trans hnone⟩
  · refine .inr ⟨hfailed.trans (decide_eq_false hhalt), ?_⟩
    simp only [Progress.next, ← current?_eq, hinst, hexecute, if_neg hhalt]
    exact ⟨hstate, hsteps, hresult.trans hnone⟩

variable {program : Program} {start : State} {extra : Nat} {m : Machine}

/-- A machine with a given program that stands on the run from a given state, but has counted so
many instructions in addition: halts whose report failed. -/
structure Overcounts (program : Program) (start : State) (extra : Nat) (m : Machine) : Prop where
  /-- The machine has the program. -/
  program_eq : m.program = program
  /-- The machine stands on the run. -/
  standing : ∃ n, m.At ((Progress.after program start n).overcount extra)

/-- The state of such a machine is well formed. -/
theorem Overcounts.wellFormed (hprogram : program.Admissible) (hstart : start.WellFormed)
    (hm : m.Overcounts program start extra) : m.state.WellFormed := by
  obtain ⟨n, hat⟩ := hm.standing
  rw [hat.state]
  exact ((Progress.after_sound hprogram hstart n).overcount extra).state.1

/-- A report that fails adds one to the count if it is about a halt, and nothing otherwise. -/
theorem Overcounts.of_report (hprogram : program.Admissible) (hstart : start.WellFormed)
    (hm : m.Overcounts program start extra) {interrupt : Interrupt}
    (hconcerns : interrupt.concernsReport = true) (hvalue : (step m).value = .error interrupt) :
    ∃ n, (step m).machine.At ((Progress.after program start n).overcount
      (extra + if (step m).haltReportFailed then 1 else 0)) := by
  have hwell := hm.wellFormed hprogram hstart
  obtain ⟨rfl, n, hat⟩ := hm
  have hcut := step_cutOff hwell hprogram hvalue
  have hnext : ((Progress.after m.program start n).overcount extra).next m.program =
      (Progress.after m.program start (n + 1)).overcount extra :=
    Progress.next_overcount _ _ _
  cases hprogress : Progress.after m.program start n with
  | running steps state =>
    rw [hprogress] at hat hnext
    rcases report_cutOff hwell hat hconcerns hvalue hcut with ⟨hfailed, hagain⟩ | ⟨hfailed, hon⟩
    · rw [hfailed]
      refine ⟨n, ?_⟩
      rw [hprogress]
      exact hagain
    · rw [hfailed]
      exact ⟨n + 1, hnext ▸ hon⟩
  | ended result =>
    rw [hprogress] at hat
    rw [step_of_result hat.result] at hvalue
    cases hvalue
  | stuck steps state error =>
    have hsound := Progress.after_sound hprogram hstart n
    rw [hprogress] at hsound
    exact hsound.elim

/-- The count goes up by one in addition with a step whose report on a halt fails, and does not
with any other step. -/
theorem Overcounts.of_step (hprogram : program.Admissible) (hstart : start.WellFormed)
    (hm : m.Overcounts program start extra) :
    (step m).machine.Overcounts program start
      (extra + if (step m).haltReportFailed then 1 else 0) := by
  refine ⟨m.follows_step.program_eq.trans hm.program_eq, ?_⟩
  obtain ⟨n, hat⟩ := hm.standing
  have hsound := (Progress.after_sound hprogram hstart n).overcount extra
  have hcode : m.program.Admissible := hm.program_eq ▸ hprogram
  obtain ⟨reached, hreached, houtcome⟩ := step_outcome hcode hat hsound
  have hnext : ((Progress.after program start n).overcount extra).next m.program =
      (Progress.after program start (n + 1)).overcount extra := by
    rw [hm.program_eq]
    exact Progress.next_overcount _ _ _
  rw [hnext] at houtcome
  generalize hvalue : (step m).value = value at houtcome
  cases houtcome with
  | answered =>
    rw [Reply.haltReportFailed_of_ok hvalue]
    exact ⟨n + 1, hreached⟩
  | endHookFailed =>
    have hother : (step m).haltReportFailed = false := by
      simp only [Reply.haltReportFailed, hvalue, Interrupt.concernsReport, Bool.false_and]
    rw [hother]
    exact ⟨n + 1, hreached⟩
  | errorHookFailed =>
    have hother : (step m).haltReportFailed = false := by
      simp only [Reply.haltReportFailed, hvalue, Interrupt.concernsReport, Bool.false_and]
    rw [hother]
    exact ⟨n, hreached⟩
  | reportFailed _ hname =>
    refine hm.of_report hprogram hstart ?_ hvalue
    rcases hname with rfl | rfl <;> rfl
  | reportUnfit => exact hm.of_report hprogram hstart rfl hvalue

/-- Steps in a row that end with neither a result nor an interrupt add nothing. -/
theorem Overcounts.of_steps_of_none (hprogram : program.Admissible) (hstart : start.WellFormed)
    (hm : m.Overcounts program start extra) {n : Nat} (h : (stepUpTo n m).value = .ok none) :
    (stepUpTo n m).machine.Overcounts program start extra := by
  induction n generalizing m with
  | zero => exact hm
  | succ n ih =>
    by_cases hvalue : (step m).value = .ok none
    · have hnext := hm.of_step hprogram hstart
      rw [Reply.haltReportFailed_of_ok hvalue] at hnext
      rw [stepUpTo_succ_of_none hvalue] at h ⊢
      exact ih hnext h
    · rw [stepUpTo, advance_succ_of_ne hvalue] at h
      exact absurd h hvalue

/-- A result that is given is kept. -/
theorem Overcounts.result_of_step (hprogram : program.Admissible) (hstart : start.WellFormed)
    (hm : m.Overcounts program start extra) {result : Result}
    (h : (step m).value = .ok (some result)) :
    (step m).machine.result = some result := by
  obtain ⟨rfl, n, hat⟩ := hm
  have hsound := (Progress.after_sound hprogram hstart n).overcount extra
  obtain ⟨reached, hreached, houtcome⟩ := step_outcome hprogram hat hsound
  generalize hvalue : (step m).value = value at houtcome
  rw [h] at hvalue
  cases houtcome with
  | answered => exact hreached.result.trans (Except.ok.inj hvalue).symm
  | endHookFailed => cases hvalue
  | errorHookFailed => cases hvalue
  | reportFailed => cases hvalue
  | reportUnfit => cases hvalue

/-- Earlier events do not matter to whether the report on a halt has failed. -/
theorem haltReportFailed_following (hwell : m.state.WellFormed) (hprogram : m.program.Admissible)
    (past : List Event) :
    ((step m).following past).haltReportFailed = (step m).haltReportFailed := by
  cases hvalue : (step m).value with
  | error interrupt =>
    have hfollowing : ((step m).following past).value = .error interrupt := hvalue
    have hreported {inst : Instruction} (h : (step m).reported? = some inst) :
        ((step m).following past).reported? = (step m).reported? :=
      (Reply.reported?_following h past).trans h.symm
    simp only [Reply.haltReportFailed, hvalue, hfollowing]
    cases step_cutOff hwell hprogram hvalue with
    | error _ _ hother =>
      obtain rfl := Except.error.inj (hvalue.symm.trans hother)
      rfl
    | report _ _ _ _ _ h => rw [hreported h]
    | unfit _ _ _ _ h => rw [hreported h]
    | finish hother =>
      obtain rfl := Except.error.inj (hvalue.symm.trans hother)
      rfl
  | ok result =>
    rw [Reply.haltReportFailed_of_ok hvalue]
    exact Reply.haltReportFailed_of_ok hvalue

/-- What steps in a row make of such a machine. The count goes up by one in addition if they end
with a failed report on a halt. A result that they end with is kept. If they are interrupted, the
last of them has been cut off. -/
theorem Overcounts.of_steps (hprogram : program.Admissible) (hstart : start.WellFormed)
    (hm : m.Overcounts program start extra) (n : Nat) (past : List Event) :
    let reply := (stepUpTo n m).following past
    reply.machine.Overcounts program start
        (extra + if reply.haltReportFailed then 1 else 0) ∧
      (∀ result, reply.value = .ok (some result) → reply.machine.result = some result) ∧
      ∀ interrupt, reply.value = .error interrupt →
        ∃ k, (stepUpTo k m).value = .ok none ∧ reply.CutOff (stepUpTo k m).machine := by
  intro reply
  by_cases hnone : (stepUpTo n m).value = .ok none
  · have hvalue : reply.value = .ok none := hnone
    rw [Reply.haltReportFailed_of_ok hvalue, hvalue]
    refine ⟨hm.of_steps_of_none hprogram hstart hnone, ?_, ?_⟩
    · exact fun _ h => nomatch h
    · exact fun _ h => nomatch h
  · obtain ⟨k, before, hsilent, hlast⟩ := exists_last_step hnone
    have hreached := hm.of_steps_of_none hprogram hstart hsilent
    have hwell := hreached.wellFormed hprogram hstart
    have hcode : (stepUpTo k m).machine.program.Admissible := by
      rw [hreached.program_eq]
      exact hprogram
    have hreply : reply = (step (stepUpTo k m).machine).following
        (past ++ before) := by
      rw [← Reply.following_following, ← hlast]
    rw [hreply, haltReportFailed_following hwell hcode]
    refine ⟨hreached.of_step hprogram hstart, fun result h => ?_, fun interrupt h => ?_⟩
    · exact hreached.result_of_step hprogram hstart h
    · exact ⟨k, hsilent, (step_cutOff hwell hcode h).following _⟩

/-- A request does to such a machine what its steps do, and it keeps a result. -/
theorem Overcounts.of_serve (hprogram : program.Admissible) (hstart : start.WellFormed)
    (hm : m.Overcounts program start extra) {request : Request} {reply : Reply Answer}
    (h : request.serve m = some reply) :
    reply.machine.Overcounts program start
        (extra + if reply.haltReportFailed then 1 else 0) ∧
      (∀ result, reply.value = .ok (.result (some result)) ∨ m.result = some result →
        reply.machine.result = some result) ∧
      ∀ interrupt, reply.value = .error interrupt →
        ∃ k, (stepUpTo k { m with observer := request.watcher m }).value = .ok none ∧
          reply.CutOff (stepUpTo k { m with observer := request.watcher m }).machine := by
  obtain ⟨n, hechoes⟩ := Request.serve_echoes (hm.wellFormed hprogram hstart) h
  let watched : Machine := { m with observer := request.watcher m }
  have hwatched : Overcounts program start extra watched := by
    obtain ⟨hcode, j, hat⟩ := hm
    exact ⟨hcode, j, hat.state, hat.steps, hat.result⟩
  obtain ⟨hafter, hanswered, hcut⟩ := hwatched.of_steps hprogram hstart n (request.announced m)
  refine ⟨?_, ?_, ?_⟩
  · rw [hechoes.haltReportFailed]
    obtain ⟨hcode, j, hat⟩ := hafter
    exact ⟨(congrArg Array.toList hechoes.code).trans hcode, j, hechoes.state.trans hat.state,
      hechoes.steps.trans hat.steps, hechoes.result.trans hat.result⟩
  · rintro result (hvalue | hkept)
    · exact hechoes.result.trans (hanswered result (hechoes.answered result hvalue))
    · have hsame := stepUpTo_of_result (m := watched) hkept n
      exact hechoes.result.trans ((congrArg Machine.result hsame).trans hkept)
  · intro interrupt hvalue
    have hinner := (hechoes.interrupted interrupt).mp hvalue
    obtain ⟨k, hsilent, hcutInner⟩ := hcut interrupt hinner
    have hlistener := hechoes.listener interrupt hinner
    refine ⟨k, hsilent, hcutInner.congr ⟨fun cause hcause => ?_, fun event hlast => ?_,
      fun inst hreported => ?_, hlistener, hechoes.state, hechoes.steps, hechoes.result⟩⟩
    · exact (hechoes.interrupted cause).mpr hcause
    · exact hechoes.events ▸ hlast
    · exact (Reply.reported?_eq hlistener hechoes.events).trans hreported

/-- Every list of requests adds as many to the count as reports on a halt have failed. A result
that is given or kept once is kept from then on. -/
theorem Overcounts.of_serveAll (hprogram : program.Admissible) (hstart : start.WellFormed)
    (hm : m.Overcounts program start extra) {requests : List Request} {after : Machine}
    {replies : List (Reply Answer)} (h : m.serveAll requests = some (after, replies)) :
    after.Overcounts program start (extra + replies.countP Reply.haltReportFailed) ∧
      (∀ result, m.result = some result → after.result = some result) ∧
      ∀ reply ∈ replies, ∀ result,
        reply.value = .ok (.result (some result)) ∨ reply.machine.result = some result →
        after.result = some result := by
  induction requests generalizing m extra replies with
  | nil =>
    obtain ⟨rfl, rfl⟩ := Prod.mk.inj (Option.some.inj h)
    exact ⟨hm, fun _ hresult => hresult, fun _ hreply => nomatch hreply⟩
  | cons request requests ih =>
    obtain ⟨reply, others, hserve, hothers, rfl⟩ := serveAll_cons h
    obtain ⟨hnext, hkept, _⟩ := hm.of_serve hprogram hstart hserve
    obtain ⟨hafter, hlater, hgiven⟩ := ih hnext hothers
    refine ⟨?_, fun result hresult => hlater result (hkept result (.inr hresult)), ?_⟩
    · rw [List.countP_cons, Nat.add_comm (List.countP _ _), ← Nat.add_assoc]
      exact hafter
    · intro other hother result hresult
      rcases List.mem_cons.mp hother with rfl | hother
      · rcases hresult with hvalue | hresult
        · exact hlater result (hkept result (.inl hvalue))
        · exact hlater result hresult
      · exact hgiven other hother result hresult

/-- The result of such a machine is that of the run, with the count that it has in addition. -/
theorem Overcounts.exists_ends (hm : m.Overcounts program start extra) {result : Result}
    (hresult : m.result = some result) :
    ∃ silent, program.Ends start silent ∧
      result = { silent with steps := silent.steps + extra } := by
  obtain ⟨_, n, hat⟩ := hm
  rw [hat.result] at hresult
  cases hprogress : Progress.after program start n with
  | running steps state =>
    rw [hprogress] at hresult
    cases hresult
  | ended silent =>
    rw [hprogress] at hresult
    exact ⟨silent, ⟨n, hprogress⟩, (Option.some.inj hresult).symm⟩
  | stuck steps state error =>
    rw [hprogress] at hresult
    cases hresult

/-- A new machine has counted nothing in addition. -/
theorem overcounts_of_new (program : Program) (start : State) :
    Overcounts program start 0 { code := program.toArray, state := start } where
  program_eq := rfl
  standing := ⟨0, rfl, rfl, rfl⟩

/-- Whatever is asked of a machine, and whichever calls of its hooks fail, the result that it
comes to is that of a silent run of a new machine, with as many instructions counted in addition
as reports on a halt have failed. What is given or kept as a result once stays the result. A
request that is interrupted has made a number of undisturbed steps and been cut off at the
next one. -/
theorem result_of_interrupted_run (hprogram : program.Admissible) (hstart : start.WellFormed) :
    ∃ fresh, load program start = .ok fresh ∧
      ∀ requests after replies, fresh.serveAll requests = some (after, replies) →
        (∀ result, after.result = some result →
          ∃ fuel reply silent, fresh.run fuel = some reply ∧ reply.value = .ok silent ∧
            result.outcome = silent.outcome ∧ result.state = silent.state ∧
            result.steps = silent.steps + replies.countP Reply.haltReportFailed) ∧
        (∀ reply ∈ replies, ∀ result,
          reply.value = .ok (.result (some result)) ∨ reply.machine.result = some result →
          after.result = some result) ∧
        ∀ request reply interrupt, Request.serve after request = some reply →
          reply.value = .error interrupt →
          ∃ observer n, (stepUpTo n { after with observer }).value = .ok none ∧
            reply.CutOff (stepUpTo n { after with observer }).machine := by
  refine ⟨_, load_of_wellFormed program hstart, fun requests after replies hserved => ?_⟩
  obtain ⟨hafter, _, hgiven⟩ :=
    (overcounts_of_new program start).of_serveAll hprogram hstart hserved
  rw [Nat.zero_add] at hafter
  refine ⟨fun result hresult => ?_, hgiven, fun request reply interrupt hserve hvalue => ?_⟩
  · obtain ⟨silent, hends, rfl⟩ := hafter.exists_ends hresult
    obtain ⟨fuel, reply, hrun, hvalue⟩ :=
      (tracks_listen_of_new program start (all_of_no_hooks _)).exists_run_of_ends hprogram hstart
        hends
    exact ⟨fuel, reply, silent, hrun, hvalue, rfl, rfl, rfl⟩
  · exact ⟨_, (hafter.of_serve hprogram hstart hserve).2.2 interrupt hvalue⟩

set_option maxRecDepth 4000 in
/-- A halt whose report fails is executed again, and counted twice. -/
theorem result_of_interrupted_run_of_halt :
    Program.Admissible [.plain .push, .plain .halt] ∧ State.WellFormed {} ∧
      ∃ fresh, load [.plain .push, .plain .halt] {} = .ok fresh ∧
        ∃ after replies,
          fresh.serveAll [.listen { step := some (.failingAt 2) }, .run 5, .run 5] =
            some (after, replies) ∧
          replies.countP Reply.haltReportFailed = 1 ∧
          after.result = some { outcome := .halted, steps := 3
                                state := { pc := 1, stack := { values := [0] } } } ∧
          ∃ fuel reply silent, fresh.run fuel = some reply ∧ reply.value = .ok silent ∧
            silent.outcome = .halted ∧
            silent.state = { pc := 1, stack := { values := [0] } } ∧ silent.steps = 2 := by
  have hprogram : Program.Admissible [.plain .push, .plain .halt] :=
    ⟨by decide, by decide⟩
  have hstart : State.WellFormed {} := by decide
  obtain ⟨fresh, hload, hserve⟩ := result_of_interrupted_run hprogram hstart
  obtain rfl := Except.ok.inj ((load_of_wellFormed _ hstart).symm.trans hload)
  obtain ⟨hresult, _⟩ := hserve
    [.listen { step := some (.failingAt 2) }, .run 5, .run 5] _ _ rfl
  obtain ⟨fuel, reply, silent, hrun, hvalue, houtcome, hstate, hsteps⟩ := hresult _ rfl
  exact ⟨hprogram, hstart, _, hload, _, _, rfl, rfl, rfl, fuel, reply, silent, hrun, hvalue,
    houtcome.symm, hstate.symm, (Nat.add_right_cancel hsteps).symm⟩

end Machine

end WordMachine
