import Mathlib.Data.List.Forall2
import WordMachine.Proofs.Machine.Refinement
import WordMachine.Proofs.State.Alike

/-!
# Machines that start from states that agree

A machine shows its states in events, results and answers, and it goes on from copies of
them. Two machines that differ only in the order of the cells in their memories do the same
on every request: the replies are equal but for that order, which no text of a state shows.
This is shown for the calls of which a step is made and then for every list of requests.
-/

namespace WordMachine

/-- Results that are equal up to the order of cells. -/
structure Result.Alike (a b : Result) : Prop where
  /-- The runs have ended in the same way. -/
  outcome_eq : a.outcome = b.outcome
  /-- Equally many instructions have been executed. -/
  steps_eq : a.steps = b.steps
  /-- The last states are alike. -/
  state : a.state.Alike b.state

/-- Events that are equal up to the order of cells. -/
inductive Event.Alike : Event → Event → Prop
  | log (entry : RunLog) : Alike (.log entry) (.log entry)
  | step (index : Nat) (inst : Instruction) {s t : State} (h : s.Alike t) :
      Alike (.step index inst s) (.step index inst t)
  | observe (inst : Instruction) {s t : State} (h : s.Alike t) :
      Alike (.observe inst s) (.observe inst t)
  | error (fault : Fault) {s t : State} (h : s.Alike t) : Alike (.error fault s) (.error fault t)
  | finish {a b : Result} (h : a.Alike b) : Alike (.finish a) (.finish b)

/-- Machines that are equal up to the order of cells. -/
structure Machine.Alike (m n : Machine) : Prop where
  /-- The programs are equal. -/
  code_eq : m.code = n.code
  /-- Equally many instructions have been executed. -/
  steps_eq : m.steps = n.steps
  /-- The hooks are equal. -/
  listener_eq : m.listener = n.listener
  /-- The observers are equal. -/
  observer_eq : m.observer = n.observer
  /-- The states are alike. -/
  state : m.state.Alike n.state
  /-- Either both have a result or none has one, and the results are alike. -/
  result : Option.Rel Result.Alike m.result n.result

/-- Replies that are equal up to the order of cells. -/
structure Reply.Alike {α : Type} (related : α → α → Prop) (a b : Reply α) : Prop where
  /-- The machines afterwards are alike. -/
  machine : a.machine.Alike b.machine
  /-- The events are alike, one by one. -/
  events : List.Forall₂ Event.Alike a.events b.events
  /-- The answers are related, or the same interrupt has taken their place. -/
  value : EndAlike related a.value b.value

/-- Answers to requests that are equal up to the order of cells. -/
inductive Machine.Answer.Alike : Answer → Answer → Prop
  | result {a b : Option Result} (h : Option.Rel Result.Alike a b) : Alike (.result a) (.result b)
  | state {s t : State} (h : s.Alike t) : Alike (.state s) (.state t)
  | done : Alike .done .done

/-- An answer may be reshaped. -/
theorem Reply.Alike.map {α β : Type} {related : α → α → Prop} {related' : β → β → Prop}
    {a b : Reply α} (h : a.Alike related b) {f : α → β}
    (hf : ∀ {x y}, related x y → related' (f x) (f y)) : (a.map f).Alike related' (b.map f) :=
  ⟨h.machine, h.events, h.value.map hf⟩

namespace Call

variable {α β : Type} {related : α → α → Prop} {related' : β → β → Prop}

/-- Calls that give replies that are alike on machines that are alike. -/
def Alike (related : α → α → Prop) (call other : Call α) : Prop :=
  ∀ ⦃m n : Machine⦄, m.Alike n → (call m).Alike related (other n)

/-- Calls in sequence are alike if all of them are. -/
theorem Alike.bind {call other : Call α} {next next' : α → Call β}
    (hcall : Alike related call other)
    (hnext : ∀ {a b}, related a b → Alike related' (next a) (next' b)) :
    Alike related' (call >>= next) (other >>= next') := by
  intro m n h
  have hfirst := hcall h
  simp only [Bind.bind, andThen]
  generalize call m = first at hfirst ⊢
  generalize other n = second at hfirst ⊢
  obtain ⟨machine, events, value⟩ := first
  obtain ⟨machine', events', value'⟩ := second
  obtain ⟨hmachine, hevents, hvalue⟩ := hfirst
  cases hvalue with
  | error interrupt => exact ⟨hmachine, hevents, .error interrupt⟩
  | ok hanswers =>
    obtain ⟨hlast, hothers, hvalue⟩ := hnext hanswers hmachine
    exact ⟨hlast, List.rel_append hevents hothers, hvalue⟩

/-- Answers that are related are given alike. -/
theorem alike_pure {a b : α} (h : related a b) : Alike related (pure a) (pure b) :=
  fun _ _ hm => ⟨hm, .nil, .ok h⟩

/-- An answer that is given as the one that there is. -/
theorem Alike.some {call other : Call α} (hcall : Alike related call other) :
    Alike (Option.Rel related) (call >>= fun a => pure (.some a))
      (other >>= fun a => pure (.some a)) :=
  hcall.bind fun h => alike_pure (.some h)

/-- Asking for machines that are alike. -/
theorem alike_machine : Alike Machine.Alike machine machine :=
  fun _ _ h => ⟨h, .nil, .ok h⟩

/-- Changes that keep machines alike. -/
theorem alike_update {change change' : Machine → Machine}
    (h : ∀ {m n : Machine}, m.Alike n → (change m).Alike (change' n)) :
    Alike Eq (update change) (update change') :=
  fun _ _ hm => ⟨h hm, .nil, .ok rfl⟩

/-- Log entries show no state. -/
theorem alike_log (entry : RunLog) : Alike Eq (log entry) (log entry) :=
  fun _ _ h => ⟨h, .cons (.log entry) .nil, .ok rfl⟩

/-- A call that fails does so alike. -/
theorem alike_fail (failure : Failure) : Alike related (fail failure) (fail failure) :=
  fun _ _ h => ⟨h, .nil, .error _⟩

/-- The states that are shown are alike. -/
theorem alike_snapshot : Alike State.Alike snapshot snapshot :=
  fun _ _ h => ⟨h, .nil, h.state.copy.mapError _⟩

/-- Hooks are told of events that are alike, fail alike and leave the same. -/
theorem alike_notify (name : HookName) {s t : State}
    (hcopy : EndAlike State.Alike s.copy t.copy) {event event' : State → Event}
    (hevent : ∀ {s t : State}, s.Alike t → (event s).Alike (event' t)) :
    Alike Eq (notify name s event) (notify name t event') := by
  intro m n h
  have hhears : m.hears = n.hears := by
    funext hook
    simp only [Machine.hears, h.observer_eq]
  have hhook : m.hook? name = n.hook? name := by
    cases name with
    | step => exact congrArg Listener.step h.listener_eq
    | observe => exact h.observer_eq
    | error | finish => simp only [Machine.hook?, h.listener_eq, hhears]
  have hset (hook : Hook) : (m.setHook hook name).Alike (n.setHook hook name) := by
    obtain ⟨hcode, hsteps, hlistener, hobserver, hstate, hresult⟩ := h
    cases name with
    | step | error | finish =>
      refine ⟨hcode, hsteps, ?_, hobserver, hstate, hresult⟩
      simp only [Machine.setHook, hlistener]
    | observe => exact ⟨hcode, hsteps, hlistener, rfl, hstate, hresult⟩
  simp only [notify, hhook]
  cases n.hook? name with
  | none => exact ⟨h, .nil, .ok rfl⟩
  | some hook =>
    generalize s.copy = copied at hcopy ⊢
    generalize t.copy = copied' at hcopy ⊢
    cases hcopy with
    | error failure => exact ⟨h, .nil, .error _⟩
    | ok hstates =>
      refine ⟨hset _, .cons (hevent hstates) .nil, ?_⟩
      dsimp only
      cases hook.failsNext with
      | false => exact .ok rfl
      | true => exact .error _

end Call

namespace Machine

variable {m n : Machine}

/-- Machines that are alike are at the same instruction. -/
theorem Alike.current?_eq (h : m.Alike n) : m.current? = n.current? := by
  rw [current?, current?, h.code_eq, h.state.pc_eq]

/-- Runs end alike. -/
theorem alike_finish (outcome : Outcome) :
    Call.Alike Result.Alike (finish outcome) (finish outcome) := by
  unfold finish
  refine Call.alike_snapshot.bind fun {s t} hstate => ?_
  refine Call.alike_machine.bind fun {m n} hm => ?_
  rw [← hm.steps_eq]
  have hresult : Result.Alike { outcome, steps := m.steps, state := s }
      { outcome, steps := m.steps, state := t } := ⟨rfl, rfl, hstate⟩
  refine (Call.alike_update fun h => ?_).bind fun _ => ?_
  · exact { h with result := .some hresult }
  refine (Call.alike_log _).bind fun _ => ?_
  refine (Call.alike_notify .finish hstate.copy fun _ => .finish hresult).bind fun _ => ?_
  exact Call.alike_pure hresult

/-- Faults are reported alike. -/
theorem alike_fault (cause : Fault) : Call.Alike Result.Alike (fault cause) (fault cause) := by
  unfold fault
  refine Call.alike_machine.bind fun {m n} hm => ?_
  rw [hm.state.pc_eq]
  refine (Call.alike_log _).bind fun _ => ?_
  refine (Call.alike_notify .error hm.state.copy fun h => .error cause h).bind fun _ => ?_
  exact alike_finish (.faulted cause)

/-- Machines go on alike to states that are alike. -/
theorem alike_proceed (inst : Instruction) {s t : State} (hstate : s.Alike t) :
    Call.Alike (Option.Rel Result.Alike) (proceed inst s) (proceed inst t) := by
  unfold proceed
  refine Call.alike_machine.bind fun {m n} hm => ?_
  refine (Call.alike_update fun h => ?_).bind fun _ => ?_
  · exact { h with state := hstate, steps_eq := congrArg (· + 1) h.steps_eq }
  rw [hm.state.pc_eq]
  refine (Call.alike_notify .step hstate.copy fun h => .step _ inst h).bind
    fun {left left'} hleft => ?_
  subst hleft
  -- What the step hook has left is the same, and what it has not touched is alike.
  have hshown : (left.getD ⟨inst, s⟩).inst = (left.getD ⟨inst, t⟩).inst ∧
      EndAlike State.Alike (left.getD ⟨inst, s⟩).state.copy (left.getD ⟨inst, t⟩).state.copy := by
    cases left with
    | none => exact ⟨rfl, hstate.copy⟩
    | some report => exact ⟨rfl, State.Alike.copy_self _⟩
  dsimp only
  rw [hshown.1]
  refine (Call.alike_notify .observe hshown.2 fun h => .observe _ h).bind fun _ => ?_
  split
  · exact (alike_finish .halted).some
  · exact Call.alike_pure .none

/-- A step is the same on machines that are alike. -/
theorem alike_step : Call.Alike (Option.Rel Result.Alike) step step := by
  unfold step
  refine Call.alike_machine.bind fun {m n} hm => ?_
  have hresult := hm.result
  generalize m.result = found at hresult ⊢
  generalize n.result = found' at hresult ⊢
  cases hresult with
  | some hresult => exact Call.alike_pure (.some hresult)
  | none =>
    dsimp only
    rw [hm.current?_eq]
    cases n.current? with
    | none => exact (alike_finish .endOfProgram).some
    | some inst =>
      have hexecute := hm.state.execute inst
      dsimp only
      generalize execute m.state inst = executed at hexecute ⊢
      generalize execute n.state inst = executed' at hexecute ⊢
      cases hexecute with
      | error failure =>
        cases failure with
        | fault cause => exact (alike_fault cause).some
        | range error => exact Call.alike_fail _
      | ok hstate => exact alike_proceed inst hstate

/-- Any number of steps are the same on machines that are alike. -/
theorem Alike.advance (h : m.Alike n) (k : Nat) {past past' : Array Event}
    (hpast : List.Forall₂ Event.Alike past.toList past'.toList) :
    (advance k past m).Alike (Option.Rel Result.Alike) (advance k past' n) := by
  induction k generalizing m n past past' with
  | zero => exact ⟨h, hpast, .ok .none⟩
  | succ k ih =>
    have hstep := alike_step h
    simp only [Machine.advance]
    generalize step m = reply at hstep ⊢
    generalize step n = reply' at hstep ⊢
    obtain ⟨machine, events, value⟩ := reply
    obtain ⟨machine', events', value'⟩ := reply'
    obtain ⟨hmachine, hevents, hvalue⟩ := hstep
    have hsofar : List.Forall₂ Event.Alike (past ++ events).toList (past' ++ events').toList := by
      rw [Array.toList_appendList, Array.toList_appendList]
      exact List.rel_append hpast hevents
    cases hvalue with
    | error interrupt => exact ⟨hmachine, hsofar, .error interrupt⟩
    | ok hfound =>
      cases hfound with
      | none => exact ih hmachine hsofar
      | some hresult => exact ⟨hmachine, hsofar, .ok (.some hresult)⟩

/-- A run is the same on machines that are alike; if one is given up, so is the other. -/
theorem Alike.run (h : m.Alike n) (fuel : Nat) :
    Option.Rel (Reply.Alike Result.Alike) (m.run fuel) (n.run fuel) := by
  have hstarted : List.Forall₂ Event.Alike [.log (.started m.code.size)]
      [.log (.started n.code.size)] := by
    rw [h.code_eq]
    exact .cons (.log _) .nil
  have hsteps := h.advance fuel hstarted
  simp only [Machine.run]
  generalize Machine.advance fuel #[.log (.started m.code.size)] m = reply at hsteps ⊢
  generalize Machine.advance fuel #[.log (.started n.code.size)] n = reply' at hsteps ⊢
  obtain ⟨machine, events, value⟩ := reply
  obtain ⟨machine', events', value'⟩ := reply'
  obtain ⟨hmachine, hevents, hvalue⟩ := hsteps
  cases hvalue with
  | error interrupt => exact .some ⟨hmachine, hevents, .error interrupt⟩
  | ok hfound =>
    cases hfound with
    | none => exact .none
    | some hresult => exact .some ⟨hmachine, hevents, .ok hresult⟩

/-- Machines that are alike stay so with the same observer. -/
theorem Alike.withObserver (h : m.Alike n) (observer : Option Hook) :
    { m with observer }.Alike { n with observer } :=
  ⟨h.code_eq, h.steps_eq, h.listener_eq, rfl, h.state, h.result⟩

/-- So is an observed run. -/
theorem Alike.observe (h : m.Alike n) (fuel : Nat) (observer : Hook) :
    Option.Rel (Reply.Alike Result.Alike) (m.observe fuel observer) (n.observe fuel observer) := by
  have hrun := (h.withObserver (some observer)).run fuel
  simp only [Machine.observe]
  generalize Machine.run fuel { m with observer := some observer } = found at hrun ⊢
  generalize Machine.run fuel { n with observer := some observer } = found' at hrun ⊢
  cases hrun with
  | none => exact .none
  | some hreply => exact .some ⟨hreply.machine.withObserver none, hreply.events, hreply.value⟩

/-- Every request is answered alike. -/
theorem Alike.serve (h : m.Alike n) (request : Request) :
    Option.Rel (Reply.Alike Answer.Alike) (request.serve m) (request.serve n) := by
  -- A run may be given up, and then the other one is too.
  have hruns {found found' : Option (Reply Result)}
      (hfound : Option.Rel (Reply.Alike Result.Alike) found found') :
      Option.Rel (Reply.Alike Answer.Alike)
        (found.map fun reply => reply.map fun result => .result (some result))
        (found'.map fun reply => reply.map fun result => .result (some result)) := by
    cases hfound with
    | none => exact .none
    | some hreply => exact .some (hreply.map fun hresult => .result (.some hresult))
  cases request with
  | step => exact .some ((alike_step h).map .result)
  | steps k => exact .some ((h.advance k .nil).map .result)
  | run fuel => exact hruns (h.run fuel)
  | observe fuel observer => exact hruns (h.observe fuel observer)
  | listen listener =>
    exact .some ⟨⟨h.code_eq, h.steps_eq, rfl, h.observer_eq, h.state, h.result⟩, .nil, .ok .done⟩
  | state => exact .some ((Call.alike_snapshot h).map .state)

/-- Every list of requests is answered alike. -/
theorem Alike.serveAll (h : m.Alike n) (requests : List Request) :
    Option.Rel (fun served served' => served.1.Alike served'.1 ∧
        List.Forall₂ (Reply.Alike Answer.Alike) served.2 served'.2)
      (m.serveAll requests) (n.serveAll requests) := by
  induction requests generalizing m n with
  | nil => exact .some ⟨h, .nil⟩
  | cons request requests ih =>
    have hserve := h.serve request
    simp only [Machine.serveAll]
    generalize request.serve m = found at hserve ⊢
    generalize request.serve n = found' at hserve ⊢
    cases hserve with
    | none => exact .none
    | @some reply reply' hreply =>
      have hothers := ih hreply.machine
      dsimp only
      generalize reply.machine.serveAll requests = served at hothers ⊢
      generalize reply'.machine.serveAll requests = served' at hothers ⊢
      cases hothers with
      | none => exact .none
      | some hrest => exact .some ⟨hrest.1, .cons hreply hrest.2⟩

end Machine

end WordMachine
