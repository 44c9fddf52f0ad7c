import WordMachine.Proofs.Machine.Request

/-!
# What a machine does not look at

A machine asks its program for one instruction at a time and never asks how many
instructions it has executed. With another program that has the same instruction in
that place, and with a higher count, it does the same: the replies differ in nothing but
the count that they mention. This is shown for the calls of which a step is made, whose
parts are put together in sequence, and then for every list of requests.
-/

namespace WordMachine

/-- The result with so many instructions counted in addition. -/
def Result.later (k : Nat) (result : Result) : Result :=
  { result with steps := result.steps + k }

/-- The event with so many instructions counted in addition. -/
def Event.later (k : Nat) : Event → Event
  | .log (.finished outcome steps) => .log (.finished outcome (steps + k))
  | .finish result => .finish (result.later k)
  | event => event

/-- The machine with its program changed and with so many instructions counted in addition. -/
def Machine.recast (change : Array Instruction → Array Instruction) (k : Nat) (m : Machine) :
    Machine :=
  { m with code := change m.code, steps := m.steps + k, result := m.result.map (Result.later k) }

/-- The reply that leaves the machine recast and mentions the higher count. -/
def Reply.recast {α : Type} (change : Array Instruction → Array Instruction) (k : Nat)
    (recount : α → α) (reply : Reply α) : Reply α where
  machine := reply.machine.recast change k
  events := reply.events.map (Event.later k)
  value := reply.value.map recount

namespace Call

variable {α β : Type} {change : Array Instruction → Array Instruction} {k : Nat}

/-- One call does to a machine that is recast what another call does to the machine itself. -/
def Mirrors (change : Array Instruction → Array Instruction) (k : Nat) (recount : α → α)
    (call other : Call α) : Prop :=
  ∀ m, other (m.recast change k) = (call m).recast change k recount

/-- Calls in sequence mirror each other if all of them do. -/
theorem Mirrors.bind {recount : α → α} {recount' : β → β} {call other : Call α}
    {next next' : α → Call β} (hcall : Mirrors change k recount call other)
    (hnext : ∀ a, Mirrors change k recount' (next a) (next' (recount a))) :
    Mirrors change k recount' (call >>= next) (other >>= next') := by
  intro m
  simp only [Bind.bind, andThen, hcall m, Reply.recast]
  cases (call m).value with
  | error interrupt => rfl
  | ok a =>
    have hsecond := hnext a (call m).machine
    simp only [Except.map, hsecond, Reply.recast, List.map_append]

/-- An answer mirrors the answer with the lower count. -/
theorem mirrors_pure {recount : α → α} (a : α) :
    Mirrors change k recount (pure a) (pure (recount a)) :=
  fun _ => rfl

/-- An answer that is given as the one that there is. -/
theorem Mirrors.some {recount : α → α} {call other : Call α}
    (hcall : Mirrors change k recount call other) :
    Mirrors change k (Option.map recount) (call >>= fun a => pure (.some a))
      (other >>= fun a => pure (.some a)) :=
  hcall.bind fun _ => mirrors_pure _

/-- Asking for the machine gives the machine that is recast. -/
theorem mirrors_machine : Mirrors change k (Machine.recast change k) machine machine :=
  fun _ => rfl

/-- Two changes mirror each other if it does not matter which comes first. -/
theorem mirrors_update {before after : Machine → Machine}
    (h : ∀ m, after (m.recast change k) = (before m).recast change k) :
    Mirrors change k id (update before) (update after) := by
  intro m
  simp only [update, h, Reply.recast, List.map_nil]
  rfl

/-- The state that is shown is the same. -/
theorem mirrors_snapshot : Mirrors change k id snapshot snapshot := by
  intro m
  have hvalue (value : Except Interrupt State) : value = value.map id := by
    cases value with
    | error interrupt => rfl
    | ok state => rfl
  exact congrArg (Reply.mk (m.recast change k) []) (hvalue _)

/-- A log entry may mention the count. -/
theorem mirrors_log {entry entry' : RunLog} (h : .log entry' = (Event.log entry).later k) :
    Mirrors change k id (log entry) (log entry') := by
  intro m
  simp only [log, Reply.recast, List.map_cons, List.map_nil, h]
  rfl

/-- The hooks of a machine that is recast are those of the machine. -/
theorem mirrors_notify {name : HookName} {state : State} {event event' : State → Event}
    (h : ∀ state, event' state = (event state).later k) :
    Mirrors change k id (notify name state event) (notify name state event') := by
  intro m
  have hhook : (m.recast change k).hook? name = m.hook? name := by cases name <;> rfl
  have hset (hook : Hook) :
      (m.recast change k).setHook hook name = (m.setHook hook name).recast change k := by
    cases name <;> rfl
  simp only [notify, hhook]
  cases m.hook? name with
  | none => rfl
  | some hook =>
    cases state.copy with
    | error failure => rfl
    | ok state =>
      simp only [hset, h, Reply.recast, List.map_cons, List.map_nil]
      cases hook.failsNext with
      | false => rfl
      | true => rfl

end Call

namespace Machine

variable {change : Array Instruction → Array Instruction} {k : Nat}

/-- A run ends with a result that has the higher count. -/
theorem finish_mirrors (outcome : Outcome) :
    Call.Mirrors change k (Result.later k) (finish outcome) (finish outcome) := by
  have hkept (result : Result) (m : Machine) :
      { m.recast change k with result := some (result.later k) } =
        { m with result := some result }.recast change k := rfl
  unfold finish
  refine Call.mirrors_snapshot.bind fun state => ?_
  refine Call.mirrors_machine.bind fun m => ?_
  refine (Call.mirrors_update (hkept { outcome, steps := m.steps, state })).bind fun _ => ?_
  refine (Call.mirrors_log rfl).bind fun _ => ?_
  refine (Call.mirrors_notify fun _ => rfl).bind fun _ => ?_
  exact Call.mirrors_pure _

/-- A fault is reported without the count and ends the run like anything else. -/
theorem fault_mirrors (cause : Fault) :
    Call.Mirrors change k (Result.later k) (fault cause) (fault cause) := by
  unfold fault
  refine Call.mirrors_machine.bind fun m => ?_
  refine (Call.mirrors_log rfl).bind fun _ => ?_
  refine (Call.mirrors_notify fun _ => rfl).bind fun _ => ?_
  exact finish_mirrors (.faulted cause)

/-- An instruction is counted on top of the higher count. -/
theorem proceed_mirrors (inst : Instruction) (state : State) :
    Call.Mirrors change k (Option.map (Result.later k)) (proceed inst state)
      (proceed inst state) := by
  have hmoved (m : Machine) :
      { m.recast change k with state, steps := (m.recast change k).steps + 1 } =
        { m with state, steps := m.steps + 1 }.recast change k := by
    simp only [recast, Nat.add_right_comm]
  unfold proceed
  refine Call.mirrors_machine.bind fun m => ?_
  refine (Call.mirrors_update hmoved).bind fun _ => ?_
  refine (Call.mirrors_notify fun _ => rfl).bind fun _ => ?_
  refine (Call.mirrors_notify fun _ => rfl).bind fun _ => ?_
  split
  · exact (finish_mirrors .halted).some
  · exact Call.mirrors_pure none

/-- A step of a machine that is recast does the same if the program has the same instruction at
the program counter, or if there is a result already. -/
theorem step_recast {m : Machine}
    (h : m.result.isSome ∨ (m.recast change k).current? = m.current?) :
    step (m.recast change k) = (step m).recast change k (Option.map (Result.later k)) := by
  unfold step
  rw [Call.machine_bind, Call.machine_bind]
  have hstate : (m.recast change k).state = m.state := rfl
  have hresult : (m.recast change k).result = m.result.map (Result.later k) := rfl
  cases hkept : m.result with
  | some result =>
    simp only [hresult, hkept, Option.map_some]
    rfl
  | none =>
    have hcurrent : (m.recast change k).current? = m.current? := by simpa [hkept] using h
    simp only [hresult, hkept, Option.map_none, hcurrent, hstate]
    cases m.current? with
    | none => exact (finish_mirrors .endOfProgram).some m
    | some inst =>
      dsimp only
      cases execute m.state inst with
      | error failure =>
        cases failure with
        | fault cause => exact (fault_mirrors cause).some m
        | range error => rfl
      | ok state => exact proceed_mirrors inst state m

/-- The machine with so many instructions counted in addition. -/
def later (k : Nat) (m : Machine) : Machine :=
  m.recast id k

end Machine

/-- The reply with so many instructions counted in addition. -/
def Reply.later {α : Type} (k : Nat) (recount : α → α) (reply : Reply α) : Reply α :=
  reply.recast id k recount

namespace Machine

/-- A machine without a result is a new machine with the same hooks, at a higher count. -/
theorem eq_later_of_result_eq_none {m : Machine} (hresult : m.result = none) :
    m = later m.steps { code := m.code, state := m.state, listener := m.listener
                        observer := m.observer } := by
  obtain ⟨code, state, steps, result, listener, observer⟩ := m
  subst hresult
  simp only [later, recast, Nat.zero_add, Option.map_none, id]

/-- A step does not depend on the count. -/
theorem step_later (k : Nat) (m : Machine) :
    step (m.later k) = (step m).later k (Option.map (Result.later k)) :=
  step_recast (.inr rfl)

/-- Steps in a row do not depend on the count. -/
theorem advance_later (k n : Nat) (past : Array Event) (m : Machine) :
    advance n (past.map (Event.later k)) (m.later k) =
      (advance n past m).later k (Option.map (Result.later k)) := by
  induction n generalizing m past with
  | zero => simp only [advance, Reply.later, Reply.recast, Array.toList_map, Except.map, later,
      Option.map_none]
  | succ n ih =>
    have hpast : past.map (Event.later k) ++ (step m).events.map (Event.later k) =
        (past ++ (step m).events).map (Event.later k) := by
      apply Array.toList_inj.mp
      simp
    rw [advance, advance, step_later]
    simp only [Reply.later, Reply.recast, hpast]
    cases (step m).value with
    | error interrupt => simp only [Except.map, Array.toList_map]
    | ok found =>
      cases found with
      | none => exact ih _ _
      | some result => simp only [Except.map, Option.map_some, Array.toList_map]

/-- A run does not depend on the count. -/
theorem run_later (k fuel : Nat) (m : Machine) :
    (m.later k).run fuel = (m.run fuel).map (Reply.later k (Result.later k)) := by
  have hsteps := advance_later k fuel #[.log (.started m.code.size)] m
  have hstarted : #[Event.log (.started m.code.size)].map (Event.later k) =
      #[.log (.started (m.later k).code.size)] := by
    rw [List.map_toArray]
    rfl
  rw [hstarted] at hsteps
  simp only [run, hsteps, Reply.later, Reply.recast]
  cases (advance fuel #[.log (.started m.code.size)] m).value with
  | error interrupt => rfl
  | ok found =>
    cases found with
    | none => rfl
    | some result => rfl

/-- An observed run does not depend on the count. -/
theorem observe_later (k fuel : Nat) (observer : Hook) (m : Machine) :
    (m.later k).observe fuel observer =
      (m.observe fuel observer).map (Reply.later k (Result.later k)) := by
  have hrun := run_later k fuel { m with observer := some observer }
  change (run fuel (later k { m with observer := some observer })).map _ = _
  rw [hrun, observe, Option.map_map, Option.map_map]
  rfl

/-- The answer with so many instructions counted in addition. -/
def Answer.later (k : Nat) : Answer → Answer
  | .result found => .result (found.map (Result.later k))
  | .state shown => .state shown
  | .done => .done

/-- An answer is reshaped before or after the count is raised. -/
theorem map_later {α : Type} (k : Nat) (f : α → Answer) {recount : α → α}
    (h : ∀ a, f (recount a) = (f a).later k) (reply : Reply α) :
    (reply.later k recount).map f = (reply.map f).later k (Answer.later k) := by
  obtain ⟨machine, events, value⟩ := reply
  cases value with
  | error interrupt => rfl
  | ok a => simp only [Reply.later, Reply.recast, Reply.map, Except.map, h]

/-- The reply to a request does not depend on the count. -/
theorem Request.serve_later (k : Nat) (m : Machine) (request : Request) :
    request.serve (m.later k) =
      (request.serve m).map (Reply.later k (Answer.later k)) := by
  cases request with
  | step =>
    simp only [serve, step_later, Option.map_some]
    rw [map_later k .result fun _ => rfl]
  | steps n =>
    have hsteps := advance_later k n #[] m
    rw [Array.map_empty] at hsteps
    simp only [serve, stepUpTo, hsteps, Option.map_some]
    rw [map_later k .result fun _ => rfl]
  | run fuel =>
    simp only [serve, run_later, Option.map_map, Function.comp_def]
    congr 1
    funext reply
    exact map_later k (fun result => .result (some result)) (fun _ => rfl) reply
  | observe fuel observer =>
    simp only [serve, observe_later, Option.map_map, Function.comp_def]
    congr 1
    funext reply
    exact map_later k (fun result => .result (some result)) (fun _ => rfl) reply
  | listen listener => rfl
  | state =>
    have hsnapshot : Call.snapshot (m.later k) = (Call.snapshot m).later k id :=
      Call.mirrors_snapshot m
    simp only [serve, hsnapshot, Option.map_some]
    exact congrArg some (map_later k .state (fun _ => rfl) _)

/-- The machine after a list of requests and the replies, with so many instructions counted in
addition. -/
def servedLater (k : Nat) (served : Machine × List (Reply Answer)) :
    Machine × List (Reply Answer) :=
  (served.1.later k, served.2.map (Reply.later k (Answer.later k)))

/-- The replies to a list of requests do not depend on the count. -/
theorem serveAll_later (k : Nat) (m : Machine) (requests : List Request) :
    (m.later k).serveAll requests = (m.serveAll requests).map (servedLater k) := by
  induction requests generalizing m with
  | nil => rfl
  | cons request requests ih =>
    rw [serveAll, serveAll, Request.serve_later]
    cases request.serve m with
    | none => rfl
    | some reply =>
      simp only [Option.map_some]
      have hrest := ih reply.machine
      change ((reply.machine.later k).serveAll requests).map _ = _
      rw [hrest, Option.map_map, Option.map_map]
      rfl

end Machine

end WordMachine
