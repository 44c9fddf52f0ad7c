import WordMachine.Proofs.Machine.Interruption

/-!
# A machine that has finished

The result of a machine can be checked against the program: the last state shows why the
run ended there. Once there is a result, nothing but the hooks can change any more, and
every request is answered from the result. The end of a run is therefore logged once in
the life of a machine, and the end hook is told of it once at most. The result is kept
before the hook is told, so that a hook that fails makes no difference to this.
-/

namespace WordMachine

/-- A result whose last state shows why the run of the program ended there: the halt is the
instruction at the program counter, or there is none, or it cannot be executed. -/
def Result.Certified (program : Program) (result : Result) : Prop :=
  match result.outcome with
  | .halted =>
    result.state.pc < program.length ∧ program[result.state.pc.toNat]? = some (.plain .halt)
  | .endOfProgram => program.length ≤ result.state.pc
  | .faulted fault =>
    result.state.pc < program.length ∧
      ∃ inst, program[result.state.pc.toNat]? = some inst ∧
        execute result.state inst = .error (.fault fault)

/-- Whether an event is the entry in the log that a run has finished. -/
def Event.logsEnd : Event → Bool
  | .log (.finished _ _) => true
  | _ => false

/-- Whether an event is a call of the end hook. -/
def Event.tellsEnd : Event → Bool
  | .finish _ => true
  | _ => false

/-- A program counter with an instruction is inside the program. -/
theorem State.WellFormed.pc_lt_length {state : State} (hstate : state.WellFormed)
    {program : Program} {inst : Instruction} (hinst : program[state.pc.toNat]? = some inst) :
    state.pc < program.length := by
  obtain ⟨hindex, _⟩ := List.getElem?_eq_some_iff.mp hinst
  have hnonneg := hstate.1.1
  omega

/-- The result of a run can be checked against the program. -/
theorem Program.Ends.certified {program : Program} {start : State}
    (hprogram : program.Admissible) (hstart : start.WellFormed) {result : Result}
    (h : program.Ends start result) : result.Certified program := by
  obtain ⟨n, last, hlast, hnext⟩ := h.exists_last
  have hsound := Progress.after_sound hprogram hstart n
  rw [hlast] at hsound
  obtain ⟨hwell, _⟩ := hsound
  rcases Progress.next_running hprogram n hwell with
    ⟨hinst, hform⟩ | ⟨inst, fault, hinst, hexecute, hform⟩ |
    ⟨inst, after, hinst, hexecute, hafter, _, hform⟩
  · rw [hform] at hnext
    obtain rfl := Progress.ended.inj hnext
    have hindex := List.getElem?_eq_none_iff.mp hinst
    have hnonneg := hwell.1.1
    simp only [Result.Certified]
    omega
  · rw [hform] at hnext
    obtain rfl := Progress.ended.inj hnext
    exact ⟨hwell.pc_lt_length hinst, inst, hinst, hexecute⟩
  · rw [hform] at hnext
    by_cases hhalt : inst = .plain .halt
    · subst hhalt
      -- A halt leaves the state as it is, so that the program counter is still at the halt.
      rw [execute_halt hwell] at hexecute
      obtain rfl := Except.ok.inj hexecute
      rw [if_pos rfl] at hnext
      obtain rfl := Progress.ended.inj hnext
      exact ⟨hwell.pc_lt_length hinst, hinst⟩
    · rw [if_neg hhalt] at hnext
      cases hnext

namespace Machine

variable {program : Program} {start : State} {extra : Nat} {m : Machine}

/-- The result of a machine is about the state and the count that the machine has. -/
theorem Overcounts.eq_resultNow (hm : m.Overcounts program start extra) {result : Result}
    (hresult : m.result = some result) : result = m.resultNow result.outcome := by
  obtain ⟨_, n, hstate, hsteps, hkept⟩ := hm
  rw [hresult] at hkept
  cases hprogress : Progress.after program start n with
  | running steps state =>
    rw [hprogress] at hkept
    cases hkept
  | ended silent =>
    rw [hprogress] at hstate hsteps hkept
    obtain rfl := Option.some.inj hkept
    rw [resultNow, hstate, hsteps]
    rfl
  | stuck steps state error =>
    rw [hprogress] at hkept
    cases hkept

/-- The result of a machine can be checked against the program. -/
theorem Overcounts.certified (hprogram : program.Admissible) (hstart : start.WellFormed)
    (hm : m.Overcounts program start extra) {result : Result} (hresult : m.result = some result) :
    result.Certified program := by
  obtain ⟨silent, hends, rfl⟩ := hm.exists_ends hresult
  exact hends.certified hprogram hstart

/-- What happens between two machines, seen from the end of the run: the end is logged once if it
comes in between, and not otherwise, and the end hook is not told more often. -/
structure EndsOnce (before : Machine) (events : List Event) (after : Machine) : Prop where
  /-- The end is logged when it comes. -/
  logged : before.finished.toNat + events.countP Event.logsEnd = after.finished.toNat
  /-- The end hook is told of no more than that. -/
  told : before.finished.toNat + events.countP Event.tellsEnd ≤ after.finished.toNat

namespace EndsOnce

/-- One thing after another. -/
theorem trans {first second third : Machine} {events events' : List Event}
    (h : EndsOnce first events second) (h' : EndsOnce second events' third) :
    EndsOnce first (events ++ events') third := by
  constructor
  · rw [List.countP_append, ← Nat.add_assoc, h.logged, h'.logged]
  · have htold := h.told
    have htold' := h'.told
    rw [List.countP_append]
    omega

/-- Nothing is seen of an end while there is none. -/
theorem of_result_eq {before after : Machine} {events : List Event}
    (hresult : after.result = before.result)
    (hevents : ∀ event ∈ events, event.logsEnd = false ∧ event.tellsEnd = false) :
    EndsOnce before events after := by
  have hfinished : after.finished = before.finished := congrArg Option.isSome hresult
  have hlogged : events.countP Event.logsEnd = 0 :=
    List.countP_eq_zero.mpr fun event hevent => by simp [(hevents event hevent).1]
  have htold : events.countP Event.tellsEnd = 0 :=
    List.countP_eq_zero.mpr fun event hevent => by simp [(hevents event hevent).2]
  constructor
  · rw [hlogged, hfinished, Nat.add_zero]
  · exact Nat.le_of_eq (by rw [htold, hfinished, Nat.add_zero])

/-- Nothing happens to a machine that is left alone. -/
theorem refl (m : Machine) : EndsOnce m [] m :=
  of_result_eq rfl fun _ hevent => nomatch hevent

end EndsOnce

/-- All that a hook is told of is the event. -/
theorem eq_of_mem_told {name : HookName} {event other : Event} (h : other ∈ m.told name event) :
    other = event := by
  unfold told at h
  cases hhook : m.hook? name with
  | none =>
    rw [hhook] at h
    cases h
  | some hook =>
    rw [hhook] at h
    exact List.mem_singleton.mp h

/-- Ending a run logs the end and tells the end hook of it, if there is one. -/
theorem finish_endsOnce (hstate : m.state.WellFormed) (hresult : m.result = none)
    (outcome : Outcome) :
    EndsOnce m (finish outcome m).events (finish outcome m).machine := by
  rw [finish_eq hstate]
  have hbefore : m.finished = false := congrArg Option.isSome hresult
  have hafter : ((m.withResult (m.resultNow outcome)).notified .finish).finished = true := by
    rw [finished, notified_result]
    rfl
  constructor
  · rw [hbefore, hafter]
    unfold told
    cases m.hook? .finish <;> rfl
  · rw [hbefore, hafter]
    unfold told
    cases m.hook? .finish with
    | none => exact Nat.zero_le _
    | some hook => exact Nat.le_refl _

/-- A fault ends the run once, unless the error hook fails. -/
theorem fault_endsOnce (hstate : m.state.WellFormed) (hresult : m.result = none)
    (cause : Fault) : EndsOnce m (fault cause m).events (fault cause m).machine := by
  have hreported : EndsOnce m
      (.log (.faulted m.state.pc cause) :: m.told .error (.error cause m.state))
      (m.notified .error) := by
    refine .of_result_eq (notified_result m .error) fun event hevent => ?_
    rcases List.mem_cons.mp hevent with rfl | hevent
    · exact ⟨rfl, rfl⟩
    · rw [eq_of_mem_told hevent]
      exact ⟨rfl, rfl⟩
  rw [fault_eq hstate]
  by_cases hfails : m.hookFails .error = true
  · rw [if_pos hfails]
    exact hreported
  · rw [if_neg hfails]
    have hnotified : (m.notified .error).state.WellFormed := by
      rw [notified_state]
      exact hstate
    exact hreported.trans
      (finish_endsOnce hnotified ((notified_result m .error).trans hresult) (.faulted cause))

/-- An instruction that has been executed ends the run once if it is a halt, unless its report
fails. -/
theorem proceed_endsOnce {inst : Instruction} {state : State} (hstate : state.WellFormed)
    (hresult : m.result = none) :
    EndsOnce m (proceed inst state m).events (proceed inst state m).machine := by
  let stepped := (m.moved state).notified .step
  let observed := stepped.notified .observe
  have hstepped : EndsOnce m ((m.moved state).told .step (.step m.state.pc.toNat inst state))
      stepped := by
    refine .of_result_eq (notified_result (m.moved state) .step) fun event hevent => ?_
    rw [eq_of_mem_told hevent]
    exact ⟨rfl, rfl⟩
  have hobserved (shown : StepReport) :
      EndsOnce stepped (stepped.told .observe (.observe shown.inst shown.state)) observed := by
    refine .of_result_eq (notified_result stepped .observe) fun event hevent => ?_
    rw [eq_of_mem_told hevent]
    exact ⟨rfl, rfl⟩
  have hreported := proceed_reported (m := m) hstate inst
  generalize proceed inst state m = reply at hreported ⊢
  cases hreported with
  | stepHookFailed => exact hstepped
  | unfit => exact hstepped
  | observerFailed => exact hstepped.trans (hobserved _)
  | through =>
    refine (hstepped.trans (hobserved _)).trans ?_
    by_cases hhalt : inst = .plain .halt
    · rw [if_pos hhalt]
      have hwell : observed.state.WellFormed := by
        rw [notified_state, notified_state]
        exact hstate
      have hnone : observed.result = none :=
        (notified_result _ _).trans ((notified_result _ _).trans hresult)
      exact finish_endsOnce hwell hnone .halted
    · rw [if_neg hhalt]
      exact .refl observed

/-- A step ends the run once if it ends it. -/
theorem step_endsOnce (hstate : m.state.WellFormed) (hprogram : m.program.Admissible) :
    EndsOnce m (step m).events (step m).machine := by
  cases hresult : m.result with
  | some result =>
    rw [step_of_result hresult]
    exact .refl m
  | none =>
    rcases step_of_running hstate hprogram hresult with
      ⟨_, hstep⟩ | ⟨_, cause, _, _, hstep⟩ | ⟨inst, after, _, _, hafter, hstep⟩
    · rw [hstep]
      exact finish_endsOnce hstate hresult .endOfProgram
    · rw [hstep]
      exact fault_endsOnce hstate hresult cause
    · rw [hstep]
      exact proceed_endsOnce hafter hresult

/-- So do steps in a row. -/
theorem Overcounts.stepUpTo_endsOnce (hprogram : program.Admissible) (hstart : start.WellFormed)
    (hm : m.Overcounts program start extra) (n : Nat) :
    EndsOnce m (stepUpTo n m).events (stepUpTo n m).machine := by
  induction n generalizing m extra with
  | zero => exact .refl m
  | succ n ih =>
    have hcode : m.program.Admissible := by
      rw [hm.program_eq]
      exact hprogram
    have hstep := step_endsOnce (hm.wellFormed hprogram hstart) hcode
    by_cases hvalue : (step m).value = .ok none
    · rw [stepUpTo_succ_of_none hvalue]
      exact hstep.trans (ih (hm.of_step hprogram hstart))
    · rw [stepUpTo_succ_of_ne hvalue]
      exact hstep

/-- What a request announces has nothing to do with the end of the run. -/
theorem Request.announced_endsOnce (request : Request) (m : Machine) (observer : Option Hook) :
    EndsOnce m (request.announced m) { m with observer } := by
  refine .of_result_eq rfl fun event hevent => ?_
  have hstarted (h : event ∈ [.log (.started m.code.size)]) :
      event.logsEnd = false ∧ event.tellsEnd = false := by
    rw [List.mem_singleton.mp h]
    exact ⟨rfl, rfl⟩
  cases request with
  | step => cases hevent
  | steps n => cases hevent
  | run fuel => exact hstarted hevent
  | observe fuel hook => exact hstarted hevent
  | listen listener => cases hevent
  | state => cases hevent

/-- A request ends the run once if it ends it. -/
theorem Overcounts.serve_endsOnce (hprogram : program.Admissible) (hstart : start.WellFormed)
    (hm : m.Overcounts program start extra) {request : Request} {reply : Reply Answer}
    (h : request.serve m = some reply) : EndsOnce m reply.events reply.machine := by
  obtain ⟨n, hechoes⟩ := Request.serve_echoes (hm.wellFormed hprogram hstart) h
  let watched : Machine := { m with observer := request.watcher m }
  have hwatched : Overcounts program start extra watched := by
    obtain ⟨hcode, j, hat⟩ := hm
    exact ⟨hcode, j, hat.state, hat.steps, hat.result⟩
  have hsteps := (request.announced_endsOnce m (request.watcher m)).trans
    (hwatched.stepUpTo_endsOnce hprogram hstart n)
  have hfinished : reply.machine.finished = (stepUpTo n watched).machine.finished :=
    congrArg Option.isSome hechoes.result
  rw [hechoes.events]
  constructor
  · rw [hfinished]
    exact hsteps.logged
  · rw [hfinished]
    exact hsteps.told

/-- A list of requests ends the run once if it ends it. -/
theorem Overcounts.serveAll_endsOnce (hprogram : program.Admissible) (hstart : start.WellFormed)
    (hm : m.Overcounts program start extra) {requests : List Request} {after : Machine}
    {replies : List (Reply Answer)} (h : m.serveAll requests = some (after, replies)) :
    EndsOnce m (replies.flatMap (·.events)) after := by
  induction requests generalizing m extra replies with
  | nil =>
    obtain ⟨rfl, rfl⟩ := Prod.mk.inj (Option.some.inj h)
    exact .refl m
  | cons request requests ih =>
    obtain ⟨reply, others, hserve, hothers, rfl⟩ := serveAll_cons h
    rw [List.flatMap_cons]
    exact (hm.serve_endsOnce hprogram hstart hserve).trans
      (ih (hm.of_serve hprogram hstart hserve).1 hothers)

/-- A machine with a result. -/
structure Settled (result : Result) (m : Machine) : Prop where
  /-- The result is kept. -/
  result_eq : m.result = some result
  /-- The result is about the state that the machine has. -/
  state_eq : m.state = result.state
  /-- The state can be copied. -/
  wellFormed : m.state.WellFormed

/-- What a machine with a result answers. -/
def Request.settled (result : Result) : Request → Answer
  | step | steps _ | run _ | observe _ _ => .result (some result)
  | listen _ => .done
  | state => .state result.state

namespace Settled

variable {result : Result}

/-- Steps in a row give the result. -/
theorem stepUpTo (hm : m.Settled result) {n : Nat} (hpos : 0 < n) :
    Machine.stepUpTo n m = { machine := m, events := [], value := .ok (some result) } := by
  obtain ⟨n, rfl⟩ := Nat.exists_eq_add_one_of_ne_zero (Nat.ne_of_gt hpos)
  have hvalue : (Machine.step m).value ≠ .ok none := by
    rw [step_of_result hm.result_eq]
    exact fun h => nomatch h
  rw [stepUpTo_succ_of_ne hvalue, step_of_result hm.result_eq]

/-- A run is announced and gives the result. -/
theorem run (hm : m.Settled result) {fuel : Nat} (hpos : 0 < fuel) :
    m.run fuel = some
      { machine := m, events := [.log (.started m.code.size)], value := .ok result } := by
  rw [run_eq_some_iff, hm.stepUpTo hpos]
  rfl

/-- Every request is answered from the result, and nothing changes but the hooks. -/
theorem serve (hm : m.Settled result) {request : Request} (hrequest : request.Begun) :
    request.serve m = some
      { machine := request.rehooked m
        events := request.announced m
        value := .ok (request.settled result) } := by
  cases request with
  | step =>
    simp only [Request.serve, step_of_result hm.result_eq]
    rfl
  | steps n =>
    simp only [Request.serve, hm.stepUpTo hrequest]
    rfl
  | run fuel =>
    simp only [Request.serve, hm.run hrequest]
    rfl
  | observe fuel observer =>
    have hobserved : Settled result { m with observer := some observer } :=
      ⟨hm.result_eq, hm.state_eq, hm.wellFormed⟩
    simp only [Request.serve, Machine.observe, hobserved.run hrequest]
    rfl
  | listen listener => rfl
  | state =>
    simp only [Request.serve, Call.snapshot_eq hm.wellFormed, hm.state_eq]
    rfl

/-- Other hooks change nothing. -/
theorem rehooked (hm : m.Settled result) (request : Request) :
    (request.rehooked m).Settled result ∧ (request.rehooked m).steps = m.steps ∧
      (request.rehooked m).code = m.code := by
  cases request <;> exact ⟨⟨hm.result_eq, hm.state_eq, hm.wellFormed⟩, rfl, rfl⟩

/-- Every list of requests is answered from the result, and nothing changes but the hooks. -/
theorem serveAll (hm : m.Settled result) {requests : List Request}
    (hrequests : ∀ request ∈ requests, request.Begun) :
    ∃ after replies, m.serveAll requests = some (after, replies) ∧
      replies.map (·.value) = requests.map (fun request => .ok (request.settled result)) ∧
      replies.map (·.events) = requests.map (Request.announced m) ∧
      ∀ reached ∈ after :: replies.map (·.machine),
        reached.Settled result ∧ reached.steps = m.steps := by
  induction requests generalizing m with
  | nil =>
    refine ⟨m, [], rfl, rfl, rfl, fun reached hreached => ?_⟩
    rw [List.mem_singleton.mp hreached]
    exact ⟨hm, rfl⟩
  | cons request requests ih =>
    obtain ⟨hnext, hsteps, hcode⟩ := hm.rehooked request
    obtain ⟨after, replies, hserved, hvalues, hevents, hreached⟩ :=
      ih hnext fun other hother => hrequests other (List.mem_cons_of_mem _ hother)
    have hannounced : Request.announced (request.rehooked m) = Request.announced m := by
      funext other
      cases other <;> simp only [Request.announced, hcode]
    let first : Reply Answer :=
      { machine := request.rehooked m
        events := request.announced m
        value := .ok (request.settled result) }
    refine ⟨after, first :: replies, ?_, congrArg (first.value :: ·) hvalues, ?_, ?_⟩
    · rw [Machine.serveAll, hm.serve (hrequests request List.mem_cons_self)]
      simp only [hserved, Option.map_some, first]
    · rw [hannounced] at hevents
      exact congrArg (first.events :: ·) hevents
    · intro reached hmem
      have hcases : reached = request.rehooked m ∨ reached ∈ after :: replies.map (·.machine) := by
        simp only [List.map_cons, List.mem_cons, first] at hmem ⊢
        tauto
      rcases hcases with rfl | hmem
      · exact ⟨hnext, hsteps⟩
      · obtain ⟨hsettled, hcount⟩ := hreached reached hmem
        exact ⟨hsettled, hcount.trans hsteps⟩

end Settled

/-- Whatever has been asked of a machine and whichever hooks have failed, the end of its run has
been logged once if it has finished and not at all otherwise. If it has finished, its result is
about the state that it shows and the count that it has. From then on every request is answered
from this result. The state, the count and the result stay as they are, no hook is told of
anything, and the start of each run is all that is logged. -/
theorem finished_for_good (hprogram : program.Admissible) (hstart : start.WellFormed) :
    ∃ fresh, load program start = .ok fresh ∧
      ∀ requests m replies, fresh.serveAll requests = some (m, replies) →
        (replies.flatMap (·.events)).countP Event.logsEnd = (if m.finished then 1 else 0) ∧
        (replies.flatMap (·.events)).countP Event.tellsEnd ≤ (if m.finished then 1 else 0) ∧
        (m.finished → ∃ result, m.result = some result ∧
          (Call.snapshot m).value = .ok result.state ∧ result.steps = m.steps ∧
          result.Certified program ∧
          ∀ others : List Request, (∀ request ∈ others, request.Begun) →
            ∃ after answers, m.serveAll others = some (after, answers) ∧
              answers.map (·.value) = others.map (fun request => .ok (request.settled result)) ∧
              answers.map (·.events) = others.map (Request.announced m) ∧
              ∀ reached ∈ after :: answers.map (·.machine),
                reached.state = m.state ∧ reached.steps = m.steps ∧
                  reached.result = some result) := by
  refine ⟨_, load_of_wellFormed program hstart, fun requests m replies hserved => ?_⟩
  have hnew := overcounts_of_new program start
  obtain ⟨hm, _⟩ := hnew.of_serveAll hprogram hstart hserved
  obtain ⟨hlogged, htold⟩ := hnew.serveAll_endsOnce hprogram hstart hserved
  have hcount : m.finished.toNat = if m.finished then 1 else 0 := by
    cases m.finished <;> rfl
  rw [hcount] at hlogged htold
  have hfresh : finished { code := program.toArray, state := start } = false := rfl
  rw [hfresh, Bool.toNat_false, Nat.zero_add] at hlogged htold
  refine ⟨hlogged, htold, fun hfinished => ?_⟩
  obtain ⟨result, hresult⟩ := Option.isSome_iff_exists.mp hfinished
  have hwell := hm.wellFormed hprogram hstart
  have hnow := hm.eq_resultNow hresult
  have hstate : m.state = result.state := by
    rw [hnow]
    rfl
  have hsettled : m.Settled result := ⟨hresult, hstate, hwell⟩
  refine ⟨result, hresult, ?_, ?_, hm.certified hprogram hstart hresult,
    fun others hothers => ?_⟩
  · rw [Call.snapshot_eq hwell, hstate]
  · rw [hnow]
    rfl
  · obtain ⟨after, answers, hanswered, hvalues, hevents, hreached⟩ := hsettled.serveAll hothers
    refine ⟨after, answers, hanswered, hvalues, hevents, fun reached hmem => ?_⟩
    obtain ⟨hsame, hsteps⟩ := hreached reached hmem
    exact ⟨hsame.state_eq.trans hstate.symm, hsteps, hsame.result_eq⟩

set_option maxRecDepth 4000 in
/-- A store lacks a value, and the end hook fails when it is told of the result. The result is kept
all the same, and other hooks that would fail as well are never called. -/
theorem finished_for_good_of_failing :
    Program.Admissible [.plain .push, .plain .store] ∧ State.WellFormed {} ∧
      ∃ fresh, load [.plain .push, .plain .store] {} = .ok fresh ∧
        ∃ m replies,
          fresh.serveAll [.listen { finish := some (.failingAt 1) }, .run 5] = some (m, replies) ∧
          m.finished ∧ (replies.flatMap (·.events)).countP Event.logsEnd = 1 ∧
          ∃ result, m.result = some result ∧
            result.outcome = .faulted ⟨.insufficientArguments, some (Instruction.plain .store).code⟩ ∧
            result.Certified [.plain .push, .plain .store] ∧
            ∃ after answers,
              m.serveAll [.listen { error := some (.failingAt 1), finish := some (.failingAt 1) },
                .observe 5 (.failingAt 1), .step] = some (after, answers) ∧
              answers.map (·.value) =
                [.ok .done, .ok (.result (some result)), .ok (.result (some result))] ∧
              answers.map (·.events) = [[], [.log (.started 2)], []] := by
  have hprogram : Program.Admissible [.plain .push, .plain .store] := ⟨by decide, by decide⟩
  have hstart : State.WellFormed {} := by decide
  obtain ⟨fresh, hload, hserve⟩ := finished_for_good hprogram hstart
  obtain rfl := Except.ok.inj ((load_of_wellFormed _ hstart).symm.trans hload)
  obtain ⟨hlogged, _, hend⟩ :=
    hserve [.listen { finish := some (.failingAt 1) }, .run 5] _ _ rfl
  obtain ⟨result, hresult, _, _, hcertified, hothers⟩ := hend rfl
  obtain ⟨after, answers, hanswered, hvalues, hevents, _⟩ := hothers
    [.listen { error := some (.failingAt 1), finish := some (.failingAt 1) },
      .observe 5 (.failingAt 1), .step] (by simp [Request.Begun])
  refine ⟨hprogram, hstart, _, hload, _, _, rfl, rfl, hlogged, result, hresult, ?_, hcertified,
    after, answers, hanswered, hvalues, hevents⟩
  obtain rfl := Option.some.inj hresult
  rfl

end Machine

end WordMachine
