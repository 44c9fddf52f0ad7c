import WordMachine.Machine
import WordMachine.Proofs.Run

/-!
# Calls to a machine, law by law

A call is made of small ones: looking at the machine, changing it, logging, copying
a state and telling a hook. Here is what each of them does when it comes first, and
what all of them keep. On a well-formed state the only things that can cut a call off
are a hook that fails and a report that a hook has left unfit for the observer. A
calm machine has neither.
-/

namespace WordMachine

/-- A hook that never fails. -/
def Hook.Quiet (hook : Hook) : Prop :=
  ∀ call, hook.fails call = false

/-- A hook that leaves nothing in its reports but states that can be copied. -/
def Hook.Tidy (hook : Hook) : Prop :=
  ∀ call, ∀ report ∈ hook.leaves call, report.state.WellFormed

/-- A quiet hook stays quiet. -/
theorem Hook.Quiet.afterCall {hook : Hook} (h : hook.Quiet) : hook.afterCall.Quiet := h

/-- A tidy hook stays tidy. -/
theorem Hook.Tidy.afterCall {hook : Hook} (h : hook.Tidy) : hook.afterCall.Tidy := h

/-- What the last call of a hook has left in its report. -/
def Hook.left? (hook : Hook) : Option StepReport :=
  hook.leaves (hook.calls - 1)

/-- The quiet hook as a listener inherits it. -/
def Hook.inherited : Hook :=
  { quiet with owned := false }

/-- The hook that never fails and leaves the same report whatever it is handed. -/
def Hook.writing (report : StepReport) : Hook :=
  { quiet with leaves := fun _ => some report }

/-- Hooks that all have a property. -/
structure Listener.All (allowed : Hook → Prop) (listener : Listener) : Prop where
  /-- The step hook has it. -/
  step : ∀ hook ∈ listener.step, allowed hook
  /-- The error hook has it. -/
  error : ∀ hook ∈ listener.error, allowed hook
  /-- The end hook has it. -/
  finish : ∀ hook ∈ listener.finish, allowed hook

/-- If every hook has the property, all hooks of a listener do. -/
theorem Listener.all_of_forall {allowed : Hook → Prop} (hallowed : ∀ hook, allowed hook)
    (listener : Listener) : listener.All allowed :=
  ⟨fun hook _ => hallowed hook, fun hook _ => hallowed hook, fun hook _ => hallowed hook⟩

namespace Machine

/-- A machine none of whose hooks ever fails, whether it is called or not. -/
structure Quiet (m : Machine) : Prop where
  /-- The hooks of the listener do not fail. -/
  listener : m.listener.All Hook.Quiet
  /-- The observer does not fail. -/
  observer : ∀ hook ∈ m.observer, hook.Quiet

/-- A machine whose step hook leaves nothing unfit for the observer, if there is one. -/
def Tidy (m : Machine) : Prop :=
  m.observer.isSome → ∀ hook ∈ m.listener.step, hook.Tidy

/-- A machine that nothing interrupts. -/
structure Calm (m : Machine) : Prop where
  /-- No hook fails. -/
  quiet : m.Quiet
  /-- No report is unfit for the observer. -/
  tidy : m.Tidy

/-- The machine after a hook has been told of an event. -/
def notified (m : Machine) (name : HookName) : Machine :=
  match m.hook? name with
  | none => m
  | some hook => m.setHook hook.afterCall name

/-- What a hook is told of an event: nothing if there is no hook. -/
def told (m : Machine) (name : HookName) (event : Event) : List Event :=
  match m.hook? name with
  | none => []
  | some _ => [event]

/-- Whether there is a hook whose next call fails. -/
def hookFails (m : Machine) (name : HookName) : Bool :=
  match m.hook? name with
  | none => false
  | some hook => hook.failsNext

/-- What the observer is shown in place of the next report to the step hook. -/
def shown (m : Machine) (report : StepReport) : StepReport :=
  (m.listener.step.bind Hook.leavesNext).getD report

@[simp] theorem notified_code (m : Machine) (name : HookName) :
    (m.notified name).code = m.code := by
  unfold notified
  cases m.hook? name with
  | none => rfl
  | some hook => cases name <;> rfl

@[simp] theorem notified_state (m : Machine) (name : HookName) :
    (m.notified name).state = m.state := by
  unfold notified
  cases m.hook? name with
  | none => rfl
  | some hook => cases name <;> rfl

@[simp] theorem notified_steps (m : Machine) (name : HookName) :
    (m.notified name).steps = m.steps := by
  unfold notified
  cases m.hook? name with
  | none => rfl
  | some hook => cases name <;> rfl

@[simp] theorem notified_result (m : Machine) (name : HookName) :
    (m.notified name).result = m.result := by
  unfold notified
  cases m.hook? name with
  | none => rfl
  | some hook => cases name <;> rfl

/-- A hook that is called is one of those that the machine has. -/
theorem Quiet.of_hook? {m : Machine} (hquiet : m.Quiet) {name : HookName} {hook : Hook}
    (hhook : m.hook? name = some hook) : hook.Quiet := by
  cases name with
  | step => exact hquiet.listener.step hook hhook
  | observe => exact hquiet.observer hook hhook
  | error => exact hquiet.listener.error hook (Option.filter_eq_some_iff.mp hhook).1
  | finish => exact hquiet.listener.finish hook (Option.filter_eq_some_iff.mp hhook).1

/-- No hook of a quiet machine fails. -/
theorem Quiet.hookFails {m : Machine} (hquiet : m.Quiet) (name : HookName) :
    m.hookFails name = false := by
  unfold Machine.hookFails
  cases hhook : m.hook? name with
  | none => rfl
  | some hook => exact hquiet.of_hook? hhook hook.calls

/-- A machine with a hook that fails is not quiet. -/
theorem not_quiet_of_hookFails {m : Machine} {name : HookName} (hfails : m.hookFails name = true) :
    ¬ m.Quiet := by
  intro hquiet
  rw [hquiet.hookFails] at hfails
  cases hfails

/-- A hook that fails has been told of the event. -/
theorem told_of_hookFails {m : Machine} {name : HookName} (hfails : m.hookFails name = true)
    (event : Event) : m.told name event = [event] := by
  unfold Machine.hookFails at hfails
  unfold told
  cases hhook : m.hook? name with
  | none =>
    rw [hhook] at hfails
    cases hfails
  | some hook => rfl

/-- A quiet machine stays quiet with another quiet hook. -/
theorem Quiet.setHook {m : Machine} (hquiet : m.Quiet) {hook : Hook} (hhook : hook.Quiet)
    (name : HookName) : (m.setHook hook name).Quiet := by
  have hset : ∀ other ∈ some hook, other.Quiet := by
    rintro other ⟨⟩
    exact hhook
  obtain ⟨⟨hstep, herror, hfinish⟩, hobserver⟩ := hquiet
  cases name with
  | step => exact ⟨⟨hset, herror, hfinish⟩, hobserver⟩
  | observe => exact ⟨⟨hstep, herror, hfinish⟩, hset⟩
  | error => exact ⟨⟨hstep, hset, hfinish⟩, hobserver⟩
  | finish => exact ⟨⟨hstep, herror, hset⟩, hobserver⟩

/-- A quiet machine stays quiet with other quiet hooks. -/
theorem Quiet.listen {m : Machine} (hquiet : m.Quiet) {listener : Listener}
    (hlistener : listener.All Hook.Quiet) : (m.listen listener).Quiet :=
  ⟨hlistener, hquiet.observer⟩

/-- A quiet machine stays quiet with a quiet observer and with none. -/
theorem Quiet.withObserver {m : Machine} (hquiet : m.Quiet) {observer : Option Hook}
    (hobserver : ∀ hook ∈ observer, hook.Quiet) : { m with observer }.Quiet :=
  ⟨hquiet.listener, hobserver⟩

/-- Without an observer nothing is unfit for it. -/
theorem tidy_of_observer_eq_none {m : Machine} (hobserver : m.observer = none) : m.Tidy := by
  intro hobserved
  rw [hobserver] at hobserved
  cases hobserved

/-- A machine has an observer still when a hook has been told of an event. -/
theorem isSome_observer_notified (m : Machine) (name : HookName) :
    (m.notified name).observer.isSome = m.observer.isSome := by
  unfold notified
  cases hhook : m.hook? name with
  | none => rfl
  | some hook =>
    cases name with
    | observe =>
      have hobserver : m.observer = some hook := hhook
      simp only [setHook, hobserver, Option.isSome_some]
    | _ => rfl

/-- The step hook is the same when it has been called, but for the count of its calls. -/
theorem step_notified (m : Machine) (name : HookName) :
    (m.notified name).listener.step =
      if name = .step then m.listener.step.map Hook.afterCall else m.listener.step := by
  unfold notified
  cases hhook : m.hook? name with
  | none =>
    cases name with
    | step =>
      have hstep : m.listener.step = none := hhook
      rw [if_pos rfl, hstep]
      rfl
    | _ => rfl
  | some hook =>
    cases name with
    | step =>
      have hstep : m.listener.step = some hook := hhook
      rw [if_pos rfl, hstep]
      rfl
    | _ => rfl

/-- One machine comes from another by calls: the program is the same, there is an observer if there
was one, and nothing interrupts a call that did not do so before. -/
structure Follows (before after : Machine) : Prop where
  /-- The program is the same. -/
  code : after.code = before.code
  /-- There is an observer if there was one. -/
  observed : after.observer.isSome = before.observer.isSome
  /-- A quiet machine stays quiet. -/
  quiet : before.Quiet → after.Quiet
  /-- A tidy step hook stays tidy. -/
  step : (∀ hook ∈ before.listener.step, hook.Tidy) → ∀ hook ∈ after.listener.step, hook.Tidy

namespace Follows

variable {before after third : Machine}

/-- Calls keep the program. -/
theorem program_eq (h : before.Follows after) : after.program = before.program :=
  congrArg Array.toList h.code

/-- Calls keep a machine tidy. -/
theorem tidy (h : before.Follows after) (htidy : before.Tidy) : after.Tidy := by
  intro hobserved
  rw [h.observed] at hobserved
  exact h.step (htidy hobserved)

/-- Calls keep a machine calm. -/
theorem calm (h : before.Follows after) (hcalm : before.Calm) : after.Calm :=
  ⟨h.quiet hcalm.quiet, h.tidy hcalm.tidy⟩

/-- A machine comes from itself. -/
theorem refl (m : Machine) : m.Follows m :=
  ⟨rfl, rfl, id, id⟩

/-- Calls after calls are calls. -/
theorem trans (h : before.Follows after) (h' : after.Follows third) : before.Follows third :=
  ⟨h'.code.trans h.code, h'.observed.trans h.observed, h'.quiet ∘ h.quiet, h'.step ∘ h.step⟩

end Follows

/-- What a change leaves alone if it leaves the program and the hooks alone. -/
theorem follows_of_same_hooks {m after : Machine} (hcode : after.code = m.code)
    (hlistener : after.listener = m.listener) (hobserver : after.observer = m.observer) :
    m.Follows after where
  code := hcode
  observed := congrArg Option.isSome hobserver
  quiet hquiet := ⟨hlistener ▸ hquiet.listener, hobserver ▸ hquiet.observer⟩
  step htidy := hlistener ▸ htidy

/-- Telling a hook of an event is a call. -/
theorem follows_notified (m : Machine) (name : HookName) : m.Follows (m.notified name) where
  code := notified_code m name
  observed := isSome_observer_notified m name
  quiet hquiet := by
    unfold notified
    cases hhook : m.hook? name with
    | none => exact hquiet
    | some hook => exact hquiet.setHook (hquiet.of_hook? hhook).afterCall name
  step htidy := by
    rw [step_notified]
    split
    · intro hook hcalled
      obtain ⟨before, hbefore, rfl⟩ := Option.map_eq_some_iff.mp hcalled
      exact (htidy before hbefore).afterCall
    · exact htidy

end Machine

/-- The reply with the events of earlier calls in front of its own. -/
def Reply.following {α : Type} (reply : Reply α) (past : List Event) : Reply α :=
  { reply with events := past ++ reply.events }

/-- Earlier events stand before later ones. -/
theorem Reply.following_following {α : Type} (reply : Reply α) (past last : List Event) :
    (reply.following last).following past = reply.following (past ++ last) := by
  simp only [Reply.following, List.append_assoc]

/-- The reply with its answer reshaped. -/
def Reply.map {α β : Type} (reply : Reply α) (f : α → β) : Reply β :=
  { machine := reply.machine, events := reply.events, value := reply.value.map f }

namespace Call

variable {α β : Type} {m : Machine}

/-- Asking for the machine changes nothing. -/
theorem machine_bind (next : Machine → Call β) : (machine >>= next) m = next m m := rfl

/-- A call after a change meets the changed machine. -/
theorem update_bind (change : Machine → Machine) (next : Unit → Call β) :
    (update change >>= next) m = next () (change m) := rfl

/-- A log entry comes before the events of what follows. -/
theorem log_bind (entry : RunLog) (next : Unit → Call β) :
    (log entry >>= next) m = (next () m).following [.log entry] := rfl

/-- A well-formed state is shown without fail. -/
theorem snapshot_eq (hstate : m.state.WellFormed) :
    snapshot m = { machine := m, events := [], value := .ok m.state } := by
  have hcopy : m.state.copy = .ok m.state := State.copy_eq_ok_iff.mpr ⟨hstate, rfl⟩
  rw [snapshot, hcopy]
  rfl

/-- What follows a look at a well-formed state is given that state. -/
theorem snapshot_bind (hstate : m.state.WellFormed) (next : State → Call β) :
    (snapshot >>= next) m = next m.state m := by
  simp only [Bind.bind, andThen, snapshot_eq hstate, List.nil_append]

/-- Telling a hook of an event needs no more than a state that can be copied. -/
theorem notify_eq {state : State} (hstate : state.WellFormed) (name : HookName)
    (event : State → Event) :
    notify name state event m =
      { machine := m.notified name
        events := m.told name (event state)
        value := if m.hookFails name then .error (.hook name)
          else .ok ((m.hook? name).bind Hook.leavesNext) } := by
  have hcopy : state.copy = .ok state := State.copy_eq_ok_iff.mpr ⟨hstate, rfl⟩
  unfold notify Machine.notified Machine.told Machine.hookFails
  cases m.hook? name with
  | none => rfl
  | some hook =>
    simp only [hcopy]
    rfl

/-- A hook that fails cuts off what follows. -/
theorem notify_bind {state : State} (hstate : state.WellFormed) (name : HookName)
    (event : State → Event) (next : Option StepReport → Call β) :
    (notify name state event >>= next) m =
      if m.hookFails name then
        { machine := m.notified name
          events := m.told name (event state)
          value := .error (.hook name) }
      else (next ((m.hook? name).bind Hook.leavesNext) (m.notified name)).following
        (m.told name (event state)) := by
  simp only [Bind.bind, andThen, notify_eq hstate]
  by_cases hfails : m.hookFails name = true
  · simp only [hfails, if_true]
  · simp only [hfails, Bool.false_eq_true, if_false, Reply.following]

/-- Without a hook nothing is told and no state is copied. -/
theorem notify_bind_of_no_hook {name : HookName} (hhook : m.hook? name = none) (state : State)
    (event : State → Event) (next : Option StepReport → Call β) :
    (notify name state event >>= next) m = next none m := by
  simp only [Bind.bind, andThen, notify, hhook, List.nil_append]

/-- A state that cannot be copied for a hook cuts off what follows. -/
theorem notify_bind_of_copy_eq_error {name : HookName} {hook : Hook}
    (hhook : m.hook? name = some hook) {state : State} {failure : Failure}
    (hcopy : state.copy = .error failure) (event : State → Event)
    (next : Option StepReport → Call β) :
    (notify name state event >>= next) m =
      { machine := m, events := [], value := .error (.failure failure) } := by
  simp only [Bind.bind, andThen, notify, hhook, hcopy]

/-- An answer that is only reshaped. -/
theorem bind_pure_apply (call : Call α) (f : α → β) :
    (call >>= fun a => pure (f a)) m = (call m).map f := by
  simp only [Bind.bind, andThen, Pure.pure, answer, Reply.map]
  cases (call m).value with
  | error interrupt => rfl
  | ok a => simp only [Except.map, List.append_nil]

/-- Calls that keep what all calls keep. -/
def Keeps (call : Call α) : Prop :=
  ∀ m : Machine, m.Follows (call m).machine

/-- Calls in sequence keep what all of them keep. -/
theorem Keeps.bind {call : Call α} {next : α → Call β} (hcall : Keeps call)
    (hnext : ∀ a, Keeps (next a)) : Keeps (call >>= next) := by
  intro m
  simp only [Bind.bind, andThen]
  cases (call m).value with
  | error interrupt => exact hcall m
  | ok a => exact (hcall m).trans (hnext a (call m).machine)

/-- An answer changes nothing. -/
theorem keeps_pure (a : α) : Keeps (pure a) := fun m => .refl m

/-- Looking at the machine changes nothing. -/
theorem keeps_machine : Keeps machine := fun m => .refl m

/-- Changes that leave the program and the hooks alone. -/
theorem keeps_update {change : Machine → Machine} (hcode : ∀ m, (change m).code = m.code)
    (hlistener : ∀ m, (change m).listener = m.listener)
    (hobserver : ∀ m, (change m).observer = m.observer) : Keeps (update change) :=
  fun m => Machine.follows_of_same_hooks (hcode m) (hlistener m) (hobserver m)

/-- Looking at the state changes nothing. -/
theorem keeps_snapshot : Keeps snapshot := fun m => .refl m

/-- Logging changes nothing. -/
theorem keeps_log (entry : RunLog) : Keeps (log entry) := fun m => .refl m

/-- A failure changes nothing. -/
theorem keeps_fail (failure : Failure) : Keeps (fail failure : Call α) := fun m => .refl m

/-- Telling a hook counts the call. -/
theorem keeps_notify (name : HookName) (state : State) (event : State → Event) :
    Keeps (notify name state event) := by
  intro m
  have hnotified := m.follows_notified name
  simp only [notify]
  cases hhook : m.hook? name with
  | none => exact .refl m
  | some hook =>
    simp only [Machine.notified, hhook] at hnotified
    cases state.copy with
    | error failure => exact .refl m
    | ok state => exact hnotified

end Call

end WordMachine
