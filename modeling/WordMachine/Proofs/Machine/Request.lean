import WordMachine.Proofs.Machine.Call

/-!
# Requests to a machine

Whoever drives a machine makes one request after another, in any order and mixture:
single steps, several steps, runs, observed runs, other hooks, a look at the state.
All of these are made of single steps. A property of machines that a step keeps is
therefore kept by every list of requests, and this is shown here once.
-/

namespace WordMachine.Machine

/-- What can be asked of a machine. A run is given up after so many steps. -/
inductive Request where
  /-- Execute one instruction. -/
  | step
  /-- Execute so many instructions, or less if there is a result before. -/
  | steps (n : Nat)
  /-- Run to the result. -/
  | run (fuel : Nat)
  /-- Run to the result under the eyes of an observer. -/
  | observe (fuel : Nat) (observer : Hook)
  /-- Report to other hooks from now on. -/
  | listen (listener : Listener)
  /-- Show the state. -/
  | state

/-- What a machine answers. -/
inductive Answer where
  /-- The result, or none while the run goes on. -/
  | result (result : Option Result)
  /-- The state. -/
  | state (state : State)
  /-- No more than that the request has been carried out. -/
  | done
  deriving DecidableEq

namespace Request

/-- The reply to a request. There is none to a run that is given up. -/
def serve (m : Machine) : Request → Option (Reply Answer)
  | step => some ((Machine.step m).map .result)
  | steps n => some ((Machine.stepUpTo n m).map .result)
  | run fuel => (m.run fuel).map fun reply => reply.map fun result => .result (some result)
  | observe fuel observer =>
    (m.observe fuel observer).map fun reply => reply.map fun result => .result (some result)
  | listen listener => some { machine := m.listen listener, events := [], value := .ok .done }
  | state => some ((Call.snapshot m).map .state)

/-- A request whose hooks all have a property. -/
def All (allowed : Hook → Prop) : Request → Prop
  | observe _ observer => allowed observer
  | listen listener => listener.All allowed
  | step => True
  | steps _ => True
  | run _ => True
  | state => True

/-- The observer of the steps that a request makes. -/
def watcher (m : Machine) : Request → Option Hook
  | observe _ observer => some observer
  | step | steps _ | run _ | listen _ | state => m.observer

/-- A request that is not given up before it has begun. -/
def Begun : Request → Prop
  | steps n => 0 < n
  | run fuel => 0 < fuel
  | observe fuel _ => 0 < fuel
  | step | listen _ | state => True

/-- The machine with the hooks that it has after a request. -/
def rehooked (m : Machine) : Request → Machine
  | listen listener => m.listen listener
  | observe _ _ => { m with observer := none }
  | step | steps _ | run _ | state => m

/-- What a request writes to the log before anything else happens. -/
def announced (m : Machine) : Request → List Event
  | run _ | observe _ _ => [.log (.started m.code.size)]
  | step | steps _ | listen _ | state => []

/-- If every hook has the property, all hooks of a request do. -/
theorem all_of_forall {allowed : Hook → Prop} (hallowed : ∀ hook, allowed hook)
    (request : Request) : request.All allowed := by
  cases request with
  | observe fuel observer => exact hallowed observer
  | listen listener => exact listener.all_of_forall hallowed
  | step => trivial
  | steps n => trivial
  | run fuel => trivial
  | state => trivial

end Request

/-- The machine after a list of requests and the replies to them, if each has a reply. -/
def serveAll (m : Machine) : List Request → Option (Machine × List (Reply Answer))
  | [] => some (m, [])
  | request :: requests =>
    match request.serve m with
    | none => none
    | some reply => (serveAll reply.machine requests).map fun (after, replies) =>
      (after, reply :: replies)

/-- A list of requests is served by serving the first and then the others. -/
theorem serveAll_cons {m after : Machine} {request : Request} {requests : List Request}
    {replies : List (Reply Answer)}
    (h : m.serveAll (request :: requests) = some (after, replies)) :
    ∃ reply others, request.serve m = some reply ∧
      reply.machine.serveAll requests = some (after, others) ∧ replies = reply :: others := by
  rw [serveAll] at h
  cases hserve : request.serve m with
  | none =>
    rw [hserve] at h
    cases h
  | some reply =>
    simp only [hserve] at h
    obtain ⟨⟨last, others⟩, hothers, hpair⟩ := Option.map_eq_some_iff.mp h
    obtain ⟨rfl, rfl⟩ := Prod.mk.inj hpair
    exact ⟨reply, others, rfl, hothers, rfl⟩

/-- A property that a step keeps, with what it says about answers. -/
structure StepInvariant (Holds : Machine → Prop) (Fits : Except Interrupt Answer → Prop) :
    Prop where
  /-- A step keeps the property, and its answer fits. -/
  step : ∀ {m : Machine}, Holds m →
    Holds (Machine.step m).machine ∧ Fits ((Machine.step m).value.map .result)
  /-- It fits that the run goes on. -/
  running : Fits (.ok (.result none))

/-- A property that is kept as well when hooks are exchanged for others that are allowed. -/
structure Invariant (allowed : Hook → Prop) (Holds : Machine → Prop)
    (Fits : Except Interrupt Answer → Prop) : Prop extends StepInvariant Holds Fits where
  /-- The observer may be exchanged. -/
  observer : ∀ {m : Machine} {observer : Option Hook}, (∀ hook ∈ observer, allowed hook) →
    Holds m → Holds { m with observer }
  /-- The hooks may be exchanged. -/
  listen : ∀ {m : Machine} {listener : Listener}, listener.All allowed →
    Holds m → Holds (m.listen listener)
  /-- The state that is shown fits. -/
  state : ∀ {m : Machine}, Holds m → Fits ((Call.snapshot m).value.map .state)
  /-- It fits that a request has been carried out. -/
  done : Fits (.ok .done)

namespace StepInvariant

variable {Holds : Machine → Prop} {Fits : Except Interrupt Answer → Prop}

/-- Any number of steps keep the property, and the answer fits. -/
theorem advance (inv : StepInvariant Holds Fits) {m : Machine} (hm : Holds m) (n : Nat)
    (past : Array Event) :
    Holds (Machine.advance n past m).machine ∧
      Fits ((Machine.advance n past m).value.map .result) := by
  induction n generalizing m past with
  | zero => exact ⟨hm, inv.running⟩
  | succ n ih =>
    obtain ⟨hnext, hfits⟩ := inv.step hm
    rw [Machine.advance]
    cases hvalue : (Machine.step m).value with
    | error interrupt =>
      rw [hvalue] at hfits
      exact ⟨hnext, hfits⟩
    | ok result =>
      cases result with
      | none => exact ih hnext _
      | some result =>
        rw [hvalue] at hfits
        exact ⟨hnext, hfits⟩

/-- A run keeps the property, and its result fits. -/
theorem run (inv : StepInvariant Holds Fits) {m : Machine} (hm : Holds m) {fuel : Nat}
    {reply : Reply Result} (h : m.run fuel = some reply) :
    Holds reply.machine ∧ Fits (reply.value.map fun result => .result (some result)) := by
  obtain ⟨hmachine, hfits⟩ := inv.advance hm fuel #[.log (.started m.code.size)]
  simp only [Machine.run] at h
  split at h
  · cases h
  · rename_i result hvalue
    obtain rfl := Option.some.inj h
    rw [hvalue] at hfits
    exact ⟨hmachine, hfits⟩
  · rename_i interrupt hvalue
    obtain rfl := Option.some.inj h
    rw [hvalue] at hfits
    exact ⟨hmachine, hfits⟩

end StepInvariant

namespace Invariant

variable {allowed : Hook → Prop} {Holds : Machine → Prop}
  {Fits : Except Interrupt Answer → Prop}

/-- An observed run keeps the property, and its result fits. -/
theorem observe (inv : Invariant allowed Holds Fits) {m : Machine} (hm : Holds m) {fuel : Nat}
    {observer : Hook} (hobserver : allowed observer) {reply : Reply Result}
    (h : m.observe fuel observer = some reply) :
    Holds reply.machine ∧ Fits (reply.value.map fun result => .result (some result)) := by
  have hobserved : Holds { m with observer := some observer } := by
    refine inv.observer (fun hook hhook => ?_) hm
    obtain rfl := Option.some.inj hhook
    exact hobserver
  obtain ⟨observed, hrun, rfl⟩ := Option.map_eq_some_iff.mp h
  obtain ⟨hmachine, hfits⟩ := inv.run hobserved hrun
  exact ⟨inv.observer (fun _ hhook => nomatch hhook) hmachine, hfits⟩

/-- Every request keeps the property, and the answer to it fits. -/
theorem serve (inv : Invariant allowed Holds Fits) {m : Machine} (hm : Holds m)
    {request : Request} (hrequest : request.All allowed) {reply : Reply Answer}
    (h : request.serve m = some reply) : Holds reply.machine ∧ Fits reply.value := by
  cases request with
  | step =>
    obtain rfl := Option.some.inj h
    exact inv.step hm
  | steps n =>
    obtain rfl := Option.some.inj h
    exact inv.advance hm n #[]
  | run fuel =>
    obtain ⟨answered, hrun, rfl⟩ := Option.map_eq_some_iff.mp h
    exact inv.run hm hrun
  | observe fuel observer =>
    obtain ⟨answered, hrun, rfl⟩ := Option.map_eq_some_iff.mp h
    exact inv.observe hm hrequest hrun
  | listen listener =>
    obtain rfl := Option.some.inj h
    exact ⟨inv.listen hrequest hm, inv.done⟩
  | state =>
    obtain rfl := Option.some.inj h
    exact ⟨hm, inv.state hm⟩

/-- Every list of requests keeps the property, and all answers fit. -/
theorem serveAll (inv : Invariant allowed Holds Fits) {m after : Machine} (hm : Holds m)
    {requests : List Request} (hrequests : ∀ request ∈ requests, request.All allowed)
    {replies : List (Reply Answer)} (h : m.serveAll requests = some (after, replies)) :
    Holds after ∧ ∀ reply ∈ replies, Fits reply.value := by
  induction requests generalizing m replies with
  | nil =>
    obtain ⟨rfl, rfl⟩ := Prod.mk.inj (Option.some.inj h)
    exact ⟨hm, fun _ hreply => nomatch hreply⟩
  | cons request requests ih =>
    obtain ⟨reply, others, hserve, hothers, rfl⟩ := serveAll_cons h
    obtain ⟨hmachine, hfits⟩ := inv.serve hm (hrequests request (by simp)) hserve
    obtain ⟨hafter, hall⟩ :=
      ih hmachine (fun other hother => hrequests other (by simp [hother])) hothers
    refine ⟨hafter, fun other hother => ?_⟩
    rcases List.mem_cons.mp hother with rfl | hother
    · exact hfits
    · exact hall other hother

end Invariant

end WordMachine.Machine
