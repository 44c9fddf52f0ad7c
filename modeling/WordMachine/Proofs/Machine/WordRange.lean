import Mathlib.Data.List.Forall2
import WordMachine.Proofs.Machine.Interruption

/-!
# A machine holds words at all times

Whatever is asked of a machine and whichever of its hooks fail, its state stays well
formed and its stack keeps the capacity. The copies that a machine makes of its own
state therefore succeed. What keeps it from answering is a hook that fails, or a report
in which the step hook of an observed run has left a state that cannot be copied.
-/

namespace WordMachine

/-- The step hook has left a report whose state cannot be copied. -/
def Reply.Unfit {α : Type} (reply : Reply α) (failure : Failure) : Prop :=
  ∃ hook report, reply.machine.listener.step = some hook ∧ hook.left? = some report ∧
    report.state.copy = .error failure

/-- What is cut off by a failure was observed and has been left with an unfit report. -/
theorem Reply.CutOff.unfit_of_failure {α : Type} {before : Machine} {reply : Reply α}
    (h : reply.CutOff before) {failure : Failure}
    (hvalue : reply.value = .error (.failure failure)) :
    before.observer.isSome ∧ reply.Unfit failure := by
  cases h with
  | error _ _ hother => exact nomatch hvalue.symm.trans hother
  | report _ _ hother => exact nomatch hvalue.symm.trans hother
  | unfit _ _ hother _ _ hobserved hstep hleft hcopy =>
    obtain rfl := Interrupt.failure.inj (Except.error.inj (hvalue.symm.trans hother))
    exact ⟨hobserved, _, _, hstep, hleft, hcopy⟩
  | finish hother => exact nomatch hvalue.symm.trans hother

namespace Machine

/-- A machine with a given program that stands where a sound run has come to. -/
structure Sound (program : Program) (capacity : Int) (m : Machine) : Prop where
  /-- The machine has the program. -/
  program_eq : m.program = program
  /-- The machine stands where a sound run has come to. -/
  standing : ∃ progress, m.At progress ∧ progress.Sound capacity

/-- The state of a sound machine is well formed, and its stack has the capacity. -/
theorem Sound.state {program : Program} {capacity : Int} {m : Machine}
    (hm : m.Sound program capacity) :
    m.state.WellFormed ∧ m.state.stack.capacity = capacity := by
  obtain ⟨progress, hat, hsound⟩ := hm.standing
  rw [hat.state]
  exact hsound.state

/-- The result of a sound machine has the state of the machine. -/
theorem Sound.result {program : Program} {capacity : Int} {m : Machine}
    (hm : m.Sound program capacity) {result : Result} (hresult : m.result = some result) :
    result.state = m.state := by
  obtain ⟨progress, hat, hsound⟩ := hm.standing
  rw [hat.result] at hresult
  cases progress with
  | running steps state => cases hresult
  | ended other =>
    obtain rfl := Option.some.inj hresult
    exact hat.state.symm
  | stuck steps state error => exact hsound.elim

/-- However a step comes out, the machine stands at a sound point of a run. -/
theorem StepOutcome.sound {quiet tidy : Prop} {capacity : Int} {before next reached : Progress}
    {value : Except Interrupt (Option Result)} (hbefore : before.Sound capacity)
    (hnext : next.Sound capacity) (h : StepOutcome quiet tidy before next reached value) :
    reached.Sound capacity := by
  cases h with
  | answered => exact hnext
  | endHookFailed => exact hnext
  | errorHookFailed => exact hbefore
  | reportFailed => exact hnext.state
  | reportUnfit => exact hnext.state

/-- A sound machine stays sound whatever hooks it has. -/
theorem sound_invariant {program : Program} (hprogram : program.Admissible) (capacity : Int) :
    Invariant (fun _ => True) (Sound program capacity) fun _ => True where
  step {m} hm := by
    obtain ⟨rfl, before, hat, hsound⟩ := hm
    obtain ⟨reached, hreached, houtcome⟩ := step_outcome hprogram hat hsound
    have hafter := houtcome.sound hsound (hsound.next hprogram)
    exact ⟨⟨m.follows_step.program_eq, reached, hreached, hafter⟩, trivial⟩
  observer _ hm := by
    obtain ⟨hcode, progress, hat, hsound⟩ := hm
    exact ⟨hcode, progress, ⟨hat.state, hat.steps, hat.result⟩, hsound⟩
  listen _ hm := by
    obtain ⟨hcode, progress, hat, hsound⟩ := hm
    exact ⟨hcode, progress, ⟨hat.state, hat.steps, hat.result⟩, hsound⟩
  state _ := trivial
  running := trivial
  done := trivial

/-- A new machine is sound. -/
theorem sound_of_new (program : Program) {start : State} (hstart : start.WellFormed) :
    Sound program start.stack.capacity { code := program.toArray, state := start } where
  program_eq := rfl
  standing := ⟨.running 0 start, ⟨rfl, rfl, rfl⟩, hstart, rfl⟩

/-- A new machine has no hook that could fail. -/
theorem quiet_of_new (program : Program) (start : State) :
    Quiet { code := program.toArray, state := start } :=
  (tracks_listen_of_new program start (all_of_no_hooks _)).calm.quiet

variable {program : Program} {capacity : Int} {m : Machine}

/-- A sound machine is not quiet if a hook interrupts its step, and not tidy if a failure does. -/
theorem Sound.of_step_eq_error (hprogram : program.Admissible) (hm : m.Sound program capacity)
    {interrupt : Interrupt} (h : (step m).value = .error interrupt) :
    ((∃ name, interrupt = .hook name) ∧ ¬ m.Quiet) ∨
      (∃ failure, interrupt = .failure failure) ∧ ¬ m.Tidy := by
  obtain ⟨rfl, before, hat, hsound⟩ := hm
  obtain ⟨reached, _, houtcome⟩ := step_outcome hprogram hat hsound
  rw [h] at houtcome
  cases houtcome with
  | endHookFailed hloud => exact .inl ⟨⟨_, rfl⟩, hloud⟩
  | errorHookFailed hloud => exact .inl ⟨⟨_, rfl⟩, hloud⟩
  | reportFailed hloud => exact .inl ⟨⟨_, rfl⟩, hloud⟩
  | reportUnfit hleft => exact .inr ⟨⟨_, rfl⟩, hleft⟩

/-- No hook interrupts a sound machine whose hooks do not fail. -/
theorem quiet_invariant (hprogram : program.Admissible) (capacity : Int) :
    Invariant Hook.Quiet (fun m => m.Sound program capacity ∧ m.Quiet)
      (fun value => ∀ name, value ≠ .error (.hook name)) where
  step {m} hm := by
    refine ⟨⟨((sound_invariant hprogram capacity).step hm.1).1, m.follows_step.quiet hm.2⟩, ?_⟩
    intro name hvalue
    have herror : (step m).value = .error (.hook name) := Reply.map_value_eq_error_iff.mp hvalue
    rcases hm.1.of_step_eq_error hprogram herror with ⟨_, hloud⟩ | ⟨⟨_, hother⟩, _⟩
    · exact hloud hm.2
    · cases hother
  observer hobserver hm :=
    ⟨(sound_invariant hprogram capacity).observer (fun _ _ => trivial) hm.1,
      hm.2.withObserver hobserver⟩
  listen hlistener hm :=
    ⟨(sound_invariant hprogram capacity).listen
      (Listener.all_of_forall (fun _ => trivial) _) hm.1, hm.2.listen hlistener⟩
  state hm := by
    rw [Call.snapshot_eq hm.1.state.1]
    exact fun _ hvalue => nomatch hvalue
  running _ := by simp
  done _ := by simp

/-- No failure interrupts a sound machine whose step hook is tidy. -/
theorem tidy_invariant (hprogram : program.Admissible) (capacity : Int) :
    Invariant Hook.Tidy (fun m => m.Sound program capacity ∧ ∀ hook ∈ m.listener.step, hook.Tidy)
      (fun value => ∀ failure, value ≠ .error (.failure failure)) where
  step {m} hm := by
    refine ⟨⟨((sound_invariant hprogram capacity).step hm.1).1, m.follows_step.step hm.2⟩, ?_⟩
    intro failure hvalue
    have herror : (step m).value = .error (.failure failure) :=
      Reply.map_value_eq_error_iff.mp hvalue
    rcases hm.1.of_step_eq_error hprogram herror with ⟨⟨_, hother⟩, _⟩ | ⟨_, hleft⟩
    · cases hother
    · exact hleft fun _ => hm.2
  observer _ hm :=
    ⟨(sound_invariant hprogram capacity).observer (fun _ _ => trivial) hm.1, hm.2⟩
  listen hlistener hm :=
    ⟨(sound_invariant hprogram capacity).listen
      (Listener.all_of_forall (fun _ => trivial) _) hm.1, hlistener.step⟩
  state hm := by
    rw [Call.snapshot_eq hm.1.state.1]
    exact fun _ hvalue => nomatch hvalue
  running _ := by simp
  done _ := by simp

/-- Steps in a row keep what all calls keep. -/
theorem follows_stepUpTo (m : Machine) (n : Nat) : m.Follows (stepUpTo n m).machine := by
  have hfollows : StepInvariant m.Follows fun _ => True :=
    ⟨fun {after} hafter => ⟨hafter.trans after.follows_step, trivial⟩, trivial⟩
  exact (hfollows.advance (.refl m) n #[]).1

/-- What is cut off by a failure after some steps was observed from the first of them on. -/
theorem unfit_of_cutOff {α : Type} {reply : Reply α} {k : Nat}
    (h : reply.CutOff (stepUpTo k m).machine) {failure : Failure}
    (hvalue : reply.value = .error (.failure failure)) :
    m.observer.isSome ∧ reply.Unfit failure := by
  obtain ⟨hobserved, hunfit⟩ := h.unfit_of_failure hvalue
  rw [(follows_stepUpTo m k).observed] at hobserved
  exact ⟨hobserved, hunfit⟩

variable {start : State} {extra : Nat}

/-- A failure interrupts no other request than an observed run, whose step hook has then left an
unfit report. -/
theorem Overcounts.unfit_of_serve (hprogram : program.Admissible) (hstart : start.WellFormed)
    (hm : m.Overcounts program start extra) (hobserver : m.observer = none) {request : Request}
    {reply : Reply Answer} (h : request.serve m = some reply) {failure : Failure}
    (hvalue : reply.value = .error (.failure failure)) :
    (∃ fuel observer, request = .observe fuel observer) ∧ reply.Unfit failure := by
  obtain ⟨_, _, hcut⟩ := hm.of_serve hprogram hstart h
  obtain ⟨_, _, hcutOff⟩ := hcut _ hvalue
  obtain ⟨hobserved, hunfit⟩ := unfit_of_cutOff hcutOff hvalue
  refine ⟨?_, hunfit⟩
  cases request with
  | observe fuel observer => exact ⟨fuel, observer, rfl⟩
  | _ =>
    have hnone : m.observer.isSome := hobserved
    rw [hobserver] at hnone
    cases hnone

/-- The same holds of all requests, one after another. -/
theorem Overcounts.unfit_of_serveAll (hprogram : program.Admissible) (hstart : start.WellFormed)
    (hm : m.Overcounts program start extra) (hobserver : m.observer = none)
    {requests : List Request} {after : Machine} {replies : List (Reply Answer)}
    (h : m.serveAll requests = some (after, replies)) :
    List.Forall₂ (fun request reply => ∀ failure, reply.value = .error (.failure failure) →
      (∃ fuel observer, request = .observe fuel observer) ∧ reply.Unfit failure)
      requests replies := by
  induction requests generalizing m extra replies with
  | nil =>
    obtain ⟨_, rfl⟩ := Prod.mk.inj (Option.some.inj h)
    exact .nil
  | cons request requests ih =>
    obtain ⟨reply, others, hserve, hothers, rfl⟩ := serveAll_cons h
    obtain ⟨hnext, _, _⟩ := hm.of_serve hprogram hstart hserve
    exact .cons (fun _ hvalue => hm.unfit_of_serve hprogram hstart hobserver hserve hvalue)
      (ih hnext (observer_eq_none_of_serve hobserver hserve) hothers)

/-- Whatever is asked of a machine with whatever hooks, the state stays well formed, also in the
middle of a run, the stack keeps its capacity, and a result can be handed out again and again. A
hook interrupts an answer only if some hook was given that can fail. A failure interrupts only an
observed run whose step hook has left an unfit report, and none does if all hooks are tidy. -/
theorem wellFormed_of_serveAll (hprogram : program.Admissible) (hstart : start.WellFormed) :
    ∃ fresh, load program start = .ok fresh ∧
      ∀ requests after replies, fresh.serveAll requests = some (after, replies) →
        (after.state.WellFormed ∧ after.state.stack.capacity = start.stack.capacity) ∧
        (∀ reply ∈ replies, ∀ name, reply.value = .error (.hook name) →
          ∃ request ∈ requests, ¬ request.All Hook.Quiet) ∧
        List.Forall₂ (fun request reply => ∀ failure, reply.value = .error (.failure failure) →
          (∃ fuel observer, request = .observe fuel observer) ∧ reply.Unfit failure)
          requests replies ∧
        ((∀ request ∈ requests, request.All Hook.Tidy) →
          ∀ reply ∈ replies, ∀ failure, reply.value ≠ .error (.failure failure)) ∧
        (∀ result, after.result = some result → result.state.copy = .ok result.state) ∧
        ∀ (observer : Option Hook) (n : Nat),
          let reply := stepUpTo n { after with observer }
          (reply.machine.state.WellFormed ∧
            reply.machine.state.stack.capacity = start.stack.capacity) ∧
          ∀ failure, reply.value = .error (.failure failure) →
            observer.isSome ∧ reply.Unfit failure := by
  have hsound := sound_invariant hprogram start.stack.capacity
  have hnew := sound_of_new program hstart
  refine ⟨_, load_of_wellFormed program hstart, fun requests after replies hserved => ?_⟩
  obtain ⟨hafter, _⟩ := hsound.serveAll hnew
    (fun request _ => request.all_of_forall fun _ => trivial) hserved
  refine ⟨hafter.state, fun reply hreply name hvalue => ?_, ?_, fun htidy reply hreply => ?_,
    fun result hresult => ?_, fun observer n => ⟨?_, fun failure hvalue => ?_⟩⟩
  · refine Classical.byContradiction fun hnone => ?_
    have hquiet : ∀ request ∈ requests, request.All Hook.Quiet := fun request hmem =>
      Classical.byContradiction fun hfails => hnone ⟨request, hmem, hfails⟩
    obtain ⟨_, hreplies⟩ := (quiet_invariant hprogram start.stack.capacity).serveAll
      ⟨hnew, quiet_of_new program start⟩ hquiet hserved
    exact hreplies reply hreply name hvalue
  · exact (overcounts_of_new program start).unfit_of_serveAll hprogram hstart rfl hserved
  · obtain ⟨_, hreplies⟩ := (tidy_invariant hprogram start.stack.capacity).serveAll
      ⟨hnew, by simp⟩ htidy hserved
    exact hreplies reply hreply
  · rw [hafter.result hresult]
    exact State.copy_eq_ok_iff.mpr ⟨hafter.state.1, rfl⟩
  · exact (hsound.advance (hsound.observer (fun _ _ => trivial) hafter) n #[]).1.state
  · obtain ⟨hstands, _, _⟩ :=
      (overcounts_of_new program start).of_serveAll hprogram hstart hserved
    obtain ⟨_, j, hat⟩ := id hstands
    have hwatched : Overcounts program start _ { after with observer } :=
      ⟨hstands.program_eq, j, hat.state, hat.steps, hat.result⟩
    obtain ⟨_, _, hcut⟩ := hwatched.of_steps hprogram hstart n []
    obtain ⟨_, _, hcutOff⟩ := hcut _ hvalue
    exact unfit_of_cutOff hcutOff hvalue

set_option maxRecDepth 4000 in
/-- A step hook that fails interrupts the first step, and the state is well formed all the
same. -/
theorem wellFormed_of_serveAll_of_failing :
    Program.Admissible [.set 4, .plain .push, .plain .halt] ∧
      State.WellFormed { stack := { values := [7], capacity := 1 } } ∧
      ∃ fresh, load [.set 4, .plain .push, .plain .halt]
          { stack := { values := [7], capacity := 1 } } = .ok fresh ∧
        ∃ after replies,
          fresh.serveAll [.listen { step := some (.failingAt 1) }, .step, .run 5, .state] =
            some (after, replies) ∧
          (after.state.WellFormed ∧ after.state.stack.capacity = 1) ∧
          ∀ reply ∈ replies, ∀ failure, reply.value ≠ .error (.failure failure) := by
  have hprogram : Program.Admissible [.set 4, .plain .push, .plain .halt] :=
    ⟨by decide, by decide⟩
  have hstart : State.WellFormed { stack := { values := [7], capacity := 1 } } := by decide
  obtain ⟨fresh, hload, hserve⟩ := wellFormed_of_serveAll hprogram hstart
  obtain rfl := Except.ok.inj ((load_of_wellFormed _ hstart).symm.trans hload)
  obtain ⟨hafter, _, _, htidy, _⟩ := hserve
    [.listen { step := some (.failingAt 1) }, .step, .run 5, .state] _ _ rfl
  have hlistener : Listener.All Hook.Tidy { step := some (.failingAt 1) } :=
    ⟨by rintro hook ⟨⟩; simp [Hook.Tidy, Hook.failingAt], by simp, by simp⟩
  exact ⟨hprogram, hstart, _, hload, _, _, rfl, hafter,
    htidy (by simp [Request.All, hlistener])⟩

/-- An observed run fails with the register's value although no hook fails, if the step hook has
left a register that is no word. A plain run with the same hook does not. -/
theorem observed_run_fails_on_unfit_report :
    ∃ fresh, load [.set 4] {} = .ok fresh ∧
      Hook.Quiet (.writing ⟨.set 4, { pc := 1, register := -1 }⟩) ∧
      ((fresh.listen
        { step := some (.writing ⟨.set 4, { pc := 1, register := -1 }⟩) }).observe 2 .quiet).map
          (·.value) = some (.error (.failure (.range ⟨.register, -1⟩))) ∧
      ((fresh.listen
        { step := some (.writing ⟨.set 4, { pc := 1, register := -1 }⟩) }).run 2).map
          (·.value) = some (.ok { outcome := .endOfProgram, steps := 1
                                  state := { pc := 1, register := 4 } }) :=
  ⟨_, rfl, fun _ => rfl, rfl, rfl⟩

end Machine

end WordMachine
