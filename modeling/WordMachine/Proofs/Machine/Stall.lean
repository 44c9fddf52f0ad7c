import WordMachine.Proofs.Machine.Advance
import WordMachine.Proofs.Machine.Refinement

/-!
# A literal that is no word stalls the machine

A literal goes into the register unchecked, and the next copy of the state finds it. An
instruction that is executed after it needs a copy, and so do the hooks and the result.
A machine with such a register therefore executes nothing more and never has a result:
whatever is asked of it fails in the same way and leaves it as it is. All that can
still be seen is that a run has started, and that the next instruction lacks values, which
is found before the state is copied.
-/

namespace WordMachine

/-- A state with a register that is no word cannot be copied. The program counter is checked
before the register. -/
theorem State.copy_of_register {state : State} (hpc : IsWord state.pc)
    (hregister : ¬ IsWord state.register) :
    state.copy = .error (.range ⟨.register, state.register⟩) := by
  rw [copy, checkWord_of_isWord hpc, checkWord_of_not_isWord hregister]
  rfl

namespace Program

variable {program : Program} {start : State}

/-- The run of a program comes to a state after `k` instructions and executes there a literal that
is no word. -/
structure LeavesRange (program : Program) (start : State) (k : Nat) (before : State)
    (literal : Int) : Prop where
  /-- The run comes to the state. -/
  reaches : program.Reaches start k before
  /-- The literal is there. -/
  fetched : program[before.pc.toNat]? = some (.set literal)
  /-- It is executed. -/
  executed : ∃ after, program.Reaches start (k + 1) after
  /-- It is no word. -/
  not_isWord : ¬ IsWord literal

/-- The state after a literal has gone into the register. -/
def literalState (before : State) (literal : Int) : State :=
  { before with register := literal }.next

/-- A run that leaves the range has been going on until then. -/
theorem LeavesRange.after_eq {k : Nat} {before : State} {literal : Int}
    (h : program.LeavesRange start k before literal) :
    Progress.after program start k = .running k before := by
  obtain ⟨⟨hsteps, hstate⟩, _, ⟨_, hcount, _⟩, _⟩ := h
  have hle := Progress.steps_after_le program start k
  rw [Progress.after] at hcount
  cases hprevious : Progress.after program start k with
  | running steps last =>
    rw [hprevious] at hsteps hstate
    rw [← hsteps, ← hstate]
    rfl
  | ended result =>
    rw [hprevious] at hcount hle
    simp only [Progress.next] at hcount
    omega
  | stuck steps last error =>
    rw [hprevious] at hcount hle
    simp only [Progress.next] at hcount
    omega

/-- A run that leaves the range goes on to the state with the literal, which cannot be copied. -/
theorem LeavesRange.after_succ {k : Nat} {before : State} {literal : Int}
    (h : program.LeavesRange start k before literal) (hlength : program.length ≤ maxLength) :
    Progress.after program start (k + 1) = .running (k + 1) (literalState before literal) ∧
      (literalState before literal).copy = .error (.range ⟨.register, literal⟩) := by
  have hrunning := h.after_eq
  obtain ⟨_, hfetched, ⟨_, hcount, _⟩, hliteral⟩ := h
  rw [Progress.after, hrunning] at hcount
  -- The literal was executed, since it was counted.
  cases hexecute : execute before (.set literal) with
  | error failure =>
    cases failure with
    | fault cause =>
      simp only [Progress.next, hfetched, hexecute, Progress.steps] at hcount
      omega
    | range error =>
      simp only [Progress.next, hfetched, hexecute, Progress.steps] at hcount
      omega
  | ok reached =>
    have hwell := State.wellFormed_of_execute hexecute
    obtain rfl : literalState before literal = reached := by
      rw [execute_eq_transition hwell] at hexecute
      exact Except.ok.inj hexecute
    have hpc : IsWord (literalState before literal).pc := by
      obtain ⟨hindex, _⟩ := List.getElem?_eq_some_iff.mp hfetched
      have hnonneg := hwell.1.1
      simp only [maxLength] at hlength
      simp only [IsWord, literalState, State.next, Word.max]
      omega
    refine ⟨?_, State.copy_of_register hpc hliteral⟩
    rw [Progress.after, hrunning]
    simp only [Progress.next, hfetched, hexecute, reduceCtorEq, if_false]

end Program

/-- Whether an event can come before the state has to be copied: the start of a run, and the want
of values for an instruction. -/
def Event.NeedsNoCopy : Event → Prop
  | .log (.started _) => True
  | .log (.faulted _ fault) => fault.kind = .insufficientArguments
  | _ => False

namespace Machine

/-- A machine without a result whose state cannot be copied. -/
structure Stalled (error : RangeError) (m : Machine) : Prop where
  /-- The copy fails. -/
  copy_eq : m.state.copy = .error (.range error)
  /-- There is no result. -/
  result_eq : m.result = none

/-- The reply to a call that fails without having changed the machine. -/
def refused {α : Type} (error : RangeError) (events : List Event) (m : Machine) : Reply α where
  machine := m
  events := events
  value := .error (.failure (.range error))

/-- What a machine logs that cannot go on: only a want of values is found without a copy. -/
def complaint (m : Machine) : List Event :=
  match m.current? with
  | none => []
  | some inst =>
    if m.state.stack.depth < inst.arity then
      [.log (.faulted m.state.pc ⟨.insufficientArguments, some inst.code⟩)]
    else []

namespace Stalled

variable {α : Type} {error : RangeError} {m : Machine}

/-- There is no other result than one that needs a copy. -/
theorem finish (hm : m.Stalled error) (outcome : Outcome) :
    Machine.finish outcome m = refused error [] m := by
  have hsnapshot : Call.snapshot m = refused error [] m := by
    rw [Call.snapshot, hm.copy_eq]
    rfl
  unfold Machine.finish
  simp only [Bind.bind, Call.andThen, hsnapshot, refused]

/-- A hook is not told of anything, since it would be given a copy. -/
theorem notify_bind (hm : m.Stalled error) (name : HookName) (event : State → Event)
    (next : Option StepReport → Call α) :
    (Call.notify name m.state event >>= next) m =
      if (m.hook? name).isSome then refused error [] m else next none m := by
  cases hhook : m.hook? name with
  | none => exact Call.notify_bind_of_no_hook hhook _ _ _
  | some hook => exact Call.notify_bind_of_copy_eq_error hhook hm.copy_eq _ _

/-- A fault is logged before the state is copied. -/
theorem fault (hm : m.Stalled error) (cause : Fault) :
    Machine.fault cause m = refused error [.log (.faulted m.state.pc cause)] m := by
  unfold Machine.fault
  rw [Call.machine_bind, Call.log_bind, hm.notify_bind, hm.finish]
  simp only [ite_self]
  rfl

/-- A step fails and changes nothing. -/
theorem step (hm : m.Stalled error) : Machine.step m = refused error m.complaint m := by
  unfold Machine.step complaint
  rw [Call.machine_bind]
  simp only [hm.result_eq]
  cases m.current? with
  | none =>
    simp only [Call.bind_pure_apply, hm.finish]
    rfl
  | some inst =>
    by_cases harity : m.state.stack.depth < inst.arity
    · simp only [execute_of_lt_arity harity, if_pos harity, Call.bind_pure_apply, hm.fault]
      rfl
    · have hexecute : execute m.state inst = .error (.range error) := by
        simp only [execute, if_neg harity, hm.copy_eq, Bind.bind, Except.bind]
      simp only [hexecute, if_neg harity]
      rfl

/-- Steps in a row fail with the first of them. -/
theorem stepUpTo (hm : m.Stalled error) {n : Nat} (hpos : 0 < n) :
    Machine.stepUpTo n m = refused error m.complaint m := by
  obtain ⟨n, rfl⟩ := Nat.exists_eq_add_one_of_ne_zero (Nat.ne_of_gt hpos)
  have hvalue : (Machine.step m).value ≠ .ok none := by
    rw [hm.step]
    exact fun h => nomatch h
  rw [stepUpTo_succ_of_ne hvalue, hm.step]

/-- A run fails with its first step. -/
theorem run (hm : m.Stalled error) {fuel : Nat} (hpos : 0 < fuel) :
    m.run fuel = some (refused error (.log (.started m.code.size) :: m.complaint) m) := by
  rw [run_eq_some_iff, hm.stepUpTo hpos]
  rfl

end Stalled

/-- What a machine that cannot go on logs at a request. -/
def Request.complaint (m : Machine) : Request → List Event
  | step | steps _ => m.complaint
  | run _ | observe _ _ => .log (.started m.code.size) :: m.complaint
  | listen _ | state => []

/-- What a machine that cannot go on answers to a request: other hooks are all it takes. -/
def Request.refusal (error : RangeError) : Request → Except Interrupt Answer
  | listen _ => .ok .done
  | step | steps _ | run _ | observe _ _ | state => .error (.failure (.range error))

namespace Stalled

variable {error : RangeError} {m : Machine}

/-- Every request but one for other hooks fails, and nothing changes but the hooks. -/
theorem serve (hm : m.Stalled error) {request : Request} (hrequest : request.Begun) :
    request.serve m = some
      { machine := request.rehooked m
        events := request.complaint m
        value := request.refusal error } := by
  cases request with
  | step =>
    simp only [Request.serve, hm.step]
    rfl
  | steps n =>
    simp only [Request.serve, hm.stepUpTo hrequest]
    rfl
  | run fuel =>
    simp only [Request.serve, hm.run hrequest]
    rfl
  | observe fuel observer =>
    have hobserved : Stalled error { m with observer := some observer } :=
      ⟨hm.copy_eq, hm.result_eq⟩
    simp only [Request.serve, Machine.observe, hobserved.run hrequest]
    rfl
  | listen listener => rfl
  | state =>
    simp only [Request.serve, Call.snapshot, hm.copy_eq]
    rfl

/-- Other hooks do not help. -/
theorem rehooked (hm : m.Stalled error) (request : Request) :
    (request.rehooked m).Stalled error := by
  cases request <;> exact ⟨hm.copy_eq, hm.result_eq⟩

/-- No more is seen of a request than can come before a copy. -/
theorem needsNoCopy_complaint (request : Request) {event : Event}
    (h : event ∈ request.complaint m) : event.NeedsNoCopy := by
  have hstep (hevent : event ∈ m.complaint) : event.NeedsNoCopy := by
    unfold Machine.complaint at hevent
    split at hevent
    · cases hevent
    · split at hevent
      · obtain rfl := List.mem_singleton.mp hevent
        rfl
      · cases hevent
  have hrun (hevent : event ∈ .log (.started m.code.size) :: m.complaint) :
      event.NeedsNoCopy := by
    rcases List.mem_cons.mp hevent with rfl | hevent
    · trivial
    · exact hstep hevent
  cases request with
  | step => exact hstep h
  | steps n => exact hstep h
  | run fuel => exact hrun h
  | observe fuel observer => exact hrun h
  | listen listener => cases h
  | state => cases h

/-- Every list of requests is answered, every request in it but those for other hooks fails, and
nothing changes but the hooks. -/
theorem serveAll (hm : m.Stalled error) {requests : List Request}
    (hrequests : ∀ request ∈ requests, request.Begun) :
    ∃ after replies, m.serveAll requests = some (after, replies) ∧ after.state = m.state ∧
      after.steps = m.steps ∧ after.result = none ∧
      replies.map (·.value) = requests.map (Request.refusal error) ∧
      ∀ reply ∈ replies, ∀ event ∈ reply.events, event.NeedsNoCopy := by
  induction requests generalizing m with
  | nil => exact ⟨m, [], rfl, rfl, rfl, hm.result_eq, rfl, fun _ hreply => nomatch hreply⟩
  | cons request requests ih =>
    obtain ⟨after, replies, hserved, hstate, hsteps, hresult, hvalues, hevents⟩ :=
      ih (hm.rehooked request) fun other hother => hrequests other (by simp [hother])
    have hsame : (request.rehooked m).state = m.state ∧ (request.rehooked m).steps = m.steps := by
      cases request <;> exact ⟨rfl, rfl⟩
    let first : Reply Answer :=
      { machine := request.rehooked m
        events := request.complaint m
        value := request.refusal error }
    refine ⟨after, first :: replies, ?_, hstate.trans hsame.1, hsteps.trans hsame.2, hresult,
      congrArg (first.value :: ·) hvalues, fun reply hreply event hevent => ?_⟩
    · rw [Machine.serveAll, hm.serve (hrequests request (by simp))]
      simp only [hserved, Option.map_some, first]
    · rcases List.mem_cons.mp hreply with rfl | hreply
      · exact needsNoCopy_complaint request hevent
      · exact hevents reply hreply event hevent

end Stalled

/-- A machine with a given program and without a result that stands on the run from a given state,
no further than after `n` instructions. -/
structure Underway (program : Program) (start : State) (n : Nat) (m : Machine) : Prop where
  /-- The machine has the program. -/
  program_eq : m.program = program
  /-- There is no result. -/
  result_eq : m.result = none
  /-- The machine has not gone further. -/
  steps_le : m.steps ≤ n
  /-- The machine stands on the run. -/
  standing : Progress.after program start m.steps = .running m.steps m.state

namespace Underway

variable {program : Program} {start before : State} {k : Nat} {literal : Int} {m : Machine}

/-- A step where an instruction is executed reports it. -/
theorem step_eq_proceed (hm : m.Underway program start k) {inst : Instruction} {after : State}
    (hinst : program[m.state.pc.toNat]? = some inst) (hexecute : execute m.state inst = .ok after) :
    Machine.step m = proceed inst after m := by
  unfold Machine.step
  rw [Call.machine_bind]
  simp only [hm.result_eq, current?_eq, hm.program_eq, hinst, hexecute]

/-- Before the literal is due, a step goes on with the run, whichever hooks fail. -/
theorem step_of_lt (h : program.LeavesRange start k before literal)
    (hlength : program.length ≤ Program.maxLength) (hm : m.Underway program start (k + 1))
    (hlt : m.steps < k) :
    (Machine.step m).machine.Underway program start (k + 1) ∧
      (Machine.step m).machine.steps = m.steps + 1 ∧
      ∀ result, (Machine.step m).value ≠ .ok (some result) := by
  have hlast := (h.after_succ hlength).1
  obtain ⟨reached, hreached⟩ :=
    Progress.exists_running_of_le (j := m.steps + 1) hlast (by omega)
  obtain ⟨_, hstanding, hnext⟩ := Progress.exists_running_of_succ hreached
  rw [hm.standing] at hstanding
  cases hstanding
  obtain ⟨inst, hinst, hexecute, hhalt⟩ := Progress.exists_execute_of_next_running hnext
  -- One more instruction is executed after this one, so that the state could be copied.
  have hwell : reached.WellFormed := by
    obtain ⟨_, hlater⟩ := Progress.exists_running_of_le (j := m.steps + 2) hlast (by omega)
    obtain ⟨_, hsame, hnext'⟩ := Progress.exists_running_of_succ hlater
    rw [hreached] at hsame
    cases hsame
    obtain ⟨_, _, hexecute', _⟩ := Progress.exists_execute_of_next_running hnext'
    exact State.wellFormed_of_execute hexecute'
  have hat : m.At (.running m.steps m.state) := ⟨rfl, rfl, hm.result_eq⟩
  obtain ⟨stood, hstood, houtcome⟩ := proceed_outcome hwell hm.result_eq hat (if_neg hhalt).symm
  rw [hm.step_eq_proceed hinst hexecute]
  have hgone : stood = .running (m.steps + 1) reached ∧
      ∀ result, (proceed inst reached m).value ≠ .ok (some result) := by
    generalize (proceed inst reached m).value = value at houtcome
    cases houtcome with
    | answered => exact ⟨rfl, fun _ hvalue => nomatch hvalue⟩
    | endHookFailed _ hended => cases hended
    | errorHookFailed _ hended => cases hended
    | reportFailed => exact ⟨rfl, fun _ hvalue => nomatch hvalue⟩
    | reportUnfit => exact ⟨rfl, fun _ hvalue => nomatch hvalue⟩
  obtain ⟨rfl, hvalue⟩ := hgone
  have hfollows : m.Follows (proceed inst reached m).machine := keeps_proceed inst reached m
  refine ⟨⟨hfollows.program_eq.trans hm.program_eq, hstood.result, ?_, ?_⟩, hstood.steps, hvalue⟩
  · rw [hstood.steps]
    simp only [Progress.steps]
    omega
  · rw [hstood.steps, hstood.state]
    exact hreached

/-- The step that executes the literal counts it, and fails only where a hook would be told. -/
theorem step_of_eq (h : program.LeavesRange start k before literal)
    (hlength : program.length ≤ Program.maxLength) (hm : m.Underway program start (k + 1))
    (heq : m.steps = k) :
    Machine.step m =
      { machine := m.moved (Program.literalState before literal)
        events := []
        value := if m.listener.step.isSome ∨ m.observer.isSome then
            .error (.failure (.range ⟨.register, literal⟩))
          else .ok none } := by
  subst heq
  obtain ⟨hafter, hcopy⟩ := h.after_succ hlength
  have hbefore := h.after_eq
  rw [hm.standing] at hbefore
  obtain ⟨_, rfl⟩ := Progress.running.inj hbefore
  rw [Progress.after, hm.standing] at hafter
  obtain ⟨inst, hinst, hexecute, _⟩ := Progress.exists_execute_of_next_running hafter
  obtain rfl := Option.some.inj (h.fetched.symm.trans hinst)
  let moved := m.moved (Program.literalState m.state literal)
  have hmoved : moved.Stalled ⟨.register, literal⟩ := ⟨hcopy, hm.result_eq⟩
  rw [hm.step_eq_proceed hinst hexecute]
  unfold proceed
  rw [Call.machine_bind, Call.update_bind]
  change (Call.notify .step moved.state _ >>= _) moved = _
  rw [hmoved.notify_bind]
  change (if _ then _ else (Call.notify .observe moved.state _ >>= _) moved) = _
  rw [hmoved.notify_bind]
  have hstep : moved.hook? .step = m.listener.step := rfl
  have hobserve : moved.hook? .observe = m.observer := rfl
  rw [hstep, hobserve]
  cases m.listener.step with
  | some hook => simp [refused, moved]
  | none =>
    cases m.observer with
    | some hook => simp [refused, moved]
    | none => simp [Pure.pure, Call.answer, moved]

/-- Once the literal has been executed, the machine is stalled. -/
theorem stalled_of_eq (h : program.LeavesRange start k before literal)
    (hlength : program.length ≤ Program.maxLength) (hm : m.Underway program start (k + 1))
    (heq : m.steps = k + 1) : m.Stalled ⟨.register, literal⟩ := by
  obtain ⟨hafter, hcopy⟩ := h.after_succ hlength
  have hstanding := hm.standing
  rw [heq, hafter] at hstanding
  obtain ⟨_, hstate⟩ := Progress.running.inj hstanding
  exact ⟨hstate ▸ hcopy, hm.result_eq⟩

/-- A step of a machine on a run that leaves the range keeps it there and has no result. -/
theorem step (h : program.LeavesRange start k before literal)
    (hlength : program.length ≤ Program.maxLength) (hm : m.Underway program start (k + 1)) :
    (Machine.step m).machine.Underway program start (k + 1) ∧
      ∀ result, (Machine.step m).value ≠ .ok (some result) := by
  have hle := hm.steps_le
  by_cases hlt : m.steps < k
  · obtain ⟨hnext, _, hvalue⟩ := hm.step_of_lt h hlength hlt
    exact ⟨hnext, hvalue⟩
  · by_cases heq : m.steps = k
    · rw [hm.step_of_eq h hlength heq]
      refine ⟨⟨hm.program_eq, hm.result_eq, Nat.succ_le_succ (Nat.le_of_eq heq), ?_⟩, ?_⟩
      · simp only [moved, heq]
        exact (h.after_succ hlength).1
      · intro result
        dsimp only
        split
        · exact fun hvalue => nomatch hvalue
        · exact fun hvalue => nomatch hvalue
    · rw [(hm.stalled_of_eq h hlength (by omega)).step]
      exact ⟨hm, fun _ hvalue => nomatch hvalue⟩

end Underway

/-- An answer that is no result. -/
def NoResult (value : Except Interrupt Answer) : Prop :=
  ∀ result, value ≠ .ok (.result (some result))

/-- Whatever is asked of a machine on a run that leaves the range, it stays on the run and never
has a result. -/
theorem underway_invariant {program : Program} {start before : State} {k : Nat} {literal : Int}
    (h : program.LeavesRange start k before literal)
    (hlength : program.length ≤ Program.maxLength) :
    Invariant (fun _ => True) (Underway program start (k + 1)) NoResult where
  step {m} hm := by
    obtain ⟨hnext, hvalue⟩ := hm.step h hlength
    refine ⟨hnext, fun result hresult => ?_⟩
    cases hanswer : (step m).value with
    | error interrupt =>
      rw [hanswer] at hresult
      cases hresult
    | ok found =>
      rw [hanswer] at hresult
      obtain rfl := Answer.result.inj (Except.ok.inj hresult)
      exact hvalue result hanswer
  observer _ hm := ⟨hm.program_eq, hm.result_eq, hm.steps_le, hm.standing⟩
  listen _ hm := ⟨hm.program_eq, hm.result_eq, hm.steps_le, hm.standing⟩
  state {m} _ := by
    intro result hresult
    cases hshown : (Call.snapshot m).value with
    | error interrupt =>
      rw [hshown] at hresult
      cases hresult
    | ok state =>
      rw [hshown] at hresult
      cases hresult
  running := fun _ hresult => nomatch hresult
  done := fun _ hresult => nomatch hresult

/-- A run that executes a literal that is no word stalls the machine for good, whatever is asked of
it and whichever hooks fail. The step with the literal puts it into the register, counts it, and
fails if there is anyone to be told. From then on every request but one for other hooks fails with
the register's value, nothing else changes, and neither a hook is told of anything nor an end is
logged. There never is a result. -/
theorem stalls_on_literal_beyond_range {program : Program} {start before : State} {k : Nat}
    {literal : Int} (hlength : program.length ≤ Program.maxLength) (hstart : start.WellFormed)
    (h : program.LeavesRange start k before literal) :
    ∃ fresh, load program start = .ok fresh ∧
      ∀ requests m replies, fresh.serveAll requests = some (m, replies) →
        (m.finished = false ∧
          ∀ reply ∈ replies, ∀ result, reply.value ≠ .ok (.result (some result))) ∧
        (m.steps < k → (step m).machine.steps = m.steps + 1) ∧
        (m.steps = k → ∀ observer : Option Hook,
          let reply := step { m with observer }
          reply.machine.state = { before with pc := before.pc + 1, register := literal } ∧
          reply.machine.steps = k + 1 ∧ reply.machine.finished = false ∧ reply.events = [] ∧
          reply.value =
            if m.listener.step.isSome ∨ observer.isSome then
              .error (.failure (.range ⟨.register, literal⟩))
            else .ok none) ∧
        (m.steps = k + 1 → ∀ others : List Request, (∀ request ∈ others, request.Begun) →
          ∃ after answers, m.serveAll others = some (after, answers) ∧
            after.state = m.state ∧ after.steps = m.steps ∧ after.finished = false ∧
            answers.map (·.value) = others.map (Request.refusal ⟨.register, literal⟩) ∧
            ∀ answer ∈ answers, ∀ event ∈ answer.events, event.NeedsNoCopy) := by
  have hinvariant := underway_invariant h hlength
  have hnew : Underway program start (k + 1) { code := program.toArray, state := start } :=
    ⟨rfl, rfl, Nat.zero_le _, rfl⟩
  refine ⟨_, load_of_wellFormed program hstart, fun requests m replies hserved => ?_⟩
  obtain ⟨hm, hreplies⟩ := hinvariant.serveAll hnew
    (fun request _ => request.all_of_forall fun _ => trivial) hserved
  refine ⟨⟨?_, hreplies⟩, fun hlt => (hm.step_of_lt h hlength hlt).2.1, fun heq observer => ?_,
    fun heq others hothers => ?_⟩
  · rw [finished, hm.result_eq]
    rfl
  · have hobserved : Underway program start (k + 1) { m with observer } :=
      hinvariant.observer (fun _ _ => trivial) hm
    intro reply
    have hreply : reply = _ := hobserved.step_of_eq h hlength heq
    rw [hreply]
    refine ⟨rfl, congrArg (· + 1) heq, ?_, rfl, rfl⟩
    exact congrArg Option.isSome hm.result_eq
  · obtain ⟨after, answers, hanswered, hstate, hsteps, hresult, hvalues, hevents⟩ :=
      (hm.stalled_of_eq h hlength heq).serveAll hothers
    exact ⟨after, answers, hanswered, hstate, hsteps, by rw [finished, hresult]; rfl, hvalues,
      hevents⟩

set_option maxRecDepth 4000 in
/-- Two literals are executed, and the second is one too large. Neither an error hook nor a run
gets anything out of the machine then, although the next instruction lacks values. -/
theorem stalls_on_literal_beyond_range_of_modulus :
    ([.set 4, .set Word.modulus, .plain .store] : Program).length ≤ Program.maxLength ∧
      State.WellFormed {} ∧
      Program.LeavesRange [.set 4, .set Word.modulus, .plain .store] {} 1
        { pc := 1, register := 4 } Word.modulus ∧
      ∃ fresh, load [.set 4, .set Word.modulus, .plain .store] {} = .ok fresh ∧
        ∃ m replies, fresh.serveAll [.step, .step] = some (m, replies) ∧
          ∃ after answers,
            m.serveAll [.listen { error := some .quiet }, .step, .run 5, .state] =
              some (after, answers) ∧
            after.state = m.state ∧ after.finished = false ∧
            answers.map (·.value) =
              [.ok .done, .error (.failure (.range ⟨.register, Word.modulus⟩)),
                .error (.failure (.range ⟨.register, Word.modulus⟩)),
                .error (.failure (.range ⟨.register, Word.modulus⟩))] := by
  have hlength : ([.set 4, .set Word.modulus, .plain .store] : Program).length ≤
      Program.maxLength := by
    decide
  have hstart : State.WellFormed {} := by decide
  have hleaves : Program.LeavesRange [.set 4, .set Word.modulus, .plain .store] {} 1
      { pc := 1, register := 4 } Word.modulus :=
    ⟨⟨rfl, rfl⟩, rfl, ⟨_, rfl, rfl⟩, by decide⟩
  obtain ⟨fresh, hload, hstalls⟩ := stalls_on_literal_beyond_range hlength hstart hleaves
  obtain rfl := Except.ok.inj ((load_of_wellFormed _ hstart).symm.trans hload)
  obtain ⟨_, _, _, hstalled⟩ := hstalls [.step, .step] _ _ rfl
  obtain ⟨after, answers, hserved, hstate, _, hfinished, hvalues, _⟩ :=
    hstalled rfl [.listen { error := some .quiet }, .step, .run 5, .state]
      (by simp [Request.Begun])
  exact ⟨hlength, hstart, hleaves, _, hload, _, _, rfl, after, answers, hserved, hstate, hfinished,
    hvalues⟩

end Machine

end WordMachine
