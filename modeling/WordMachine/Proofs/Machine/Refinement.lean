import WordMachine.Proofs.Machine.Request
import WordMachine.Proofs.Machine.Step

/-!
# A calm machine follows the run of its program

As long as nothing interrupts it, a machine goes through the run of its program, one
instruction for each step. Every result that it gives is the result of the run. A halt
is answered by the step that executes it, while the end of the program and a fault are
answered by the step after the last instruction executed.
-/

namespace WordMachine.Machine

variable {program : Program} {start : State}

/-- A machine is made of a program and a well-formed state. -/
theorem load_of_wellFormed (program : Program) (hstart : start.WellFormed) :
    load program start = .ok { code := program.toArray, state := start } := by
  have hcopy : start.copy = .ok start := State.copy_eq_ok_iff.mpr ⟨hstart, rfl⟩
  simp only [load, hcopy, Bind.bind, Except.bind, Pure.pure, Except.pure]

/-- A calm machine with a given program that stands on the run from a given state. -/
structure Tracks (program : Program) (start : State) (m : Machine) : Prop where
  /-- The machine has the program. -/
  program_eq : m.program = program
  /-- Nothing interrupts it. -/
  calm : m.Calm
  /-- The machine stands on the run. -/
  standing : ∃ n, m.At (Progress.after program start n)

/-- A step of a calm machine takes it to the next point of the run and answers what the run
shows there. -/
theorem step_of_at (hprogram : program.Admissible) (hstart : start.WellFormed) {m : Machine}
    {n : Nat} (hcode : m.program = program) (hcalm : m.Calm)
    (hat : m.At (Progress.after program start n)) :
    (step m).machine.At (Progress.after program start (n + 1)) ∧
      (step m).value = .ok (Progress.after program start (n + 1)).result? := by
  subst hcode
  obtain ⟨reached, hreached, houtcome⟩ :=
    step_outcome hprogram hat (Progress.after_sound hprogram hstart n)
  generalize hvalue : (step m).value = value at houtcome
  cases houtcome with
  | answered => exact ⟨hreached, rfl⟩
  | endHookFailed hloud => exact absurd hcalm.quiet hloud
  | errorHookFailed hloud => exact absurd hcalm.quiet hloud
  | reportFailed hloud => exact absurd hcalm.quiet hloud
  | reportUnfit hleft => exact absurd hcalm.tidy hleft

/-- The machine after `n` steps, whatever they answer. -/
def afterSteps (m : Machine) : Nat → Machine
  | 0 => m
  | n + 1 => (step (m.afterSteps n)).machine

/-- Steps keep what all calls keep. -/
theorem follows_afterSteps (m : Machine) (n : Nat) : m.Follows (m.afterSteps n) := by
  induction n with
  | zero => exact .refl m
  | succ n ih => exact ih.trans (follows_step _)

/-- Steps of a calm machine take it along the run. -/
theorem afterSteps_at (hprogram : program.Admissible) (hstart : start.WellFormed) {m : Machine}
    {j : Nat} (hcode : m.program = program) (hcalm : m.Calm)
    (hat : m.At (Progress.after program start j)) (n : Nat) :
    (m.afterSteps n).At (Progress.after program start (j + n)) := by
  induction n with
  | zero => exact hat
  | succ n ih =>
    have hfollows := m.follows_afterSteps n
    exact (step_of_at hprogram hstart (hfollows.program_eq.trans hcode) (hfollows.calm hcalm)
      ih).1

/-- A step of a calm machine that has taken `n` steps before answers what the run shows. -/
theorem step_afterSteps (hprogram : program.Admissible) (hstart : start.WellFormed) {m : Machine}
    {j : Nat} (hcode : m.program = program) (hcalm : m.Calm)
    (hat : m.At (Progress.after program start j)) (n : Nat) :
    (step (m.afterSteps n)).value = .ok (Progress.after program start (j + n + 1)).result? := by
  have hreached := afterSteps_at hprogram hstart hcode hcalm hat n
  have hfollows := m.follows_afterSteps n
  exact (step_of_at hprogram hstart (hfollows.program_eq.trans hcode) (hfollows.calm hcalm)
    hreached).2

/-- A new machine stands at the beginning of the run. Nothing interrupts it if its hooks do not fail
and, where it is observed, its step hook is tidy. -/
theorem tracks_of_new (program : Program) (start : State) {listener : Listener}
    {observer : Option Hook} (hlistener : listener.All Hook.Quiet)
    (hobserver : ∀ hook ∈ observer, hook.Quiet)
    (htidy : observer.isSome → ∀ hook ∈ listener.step, hook.Tidy) :
    Tracks program start
      { listen { code := program.toArray, state := start } listener with observer } where
  program_eq := rfl
  calm := ⟨⟨hlistener, hobserver⟩, htidy⟩
  standing := ⟨0, rfl, rfl, rfl⟩

/-- A machine that is not observed needs no tidy hook. -/
theorem tracks_listen_of_new (program : Program) (start : State) {listener : Listener}
    (hlistener : listener.All Hook.Quiet) :
    Tracks program start (listen { code := program.toArray, state := start } listener) := by
  have hnone : ∀ hook ∈ (none : Option Hook), hook.Quiet := by simp
  exact tracks_of_new program start hlistener hnone (by simp)

/-- Whatever is asked of all hooks holds of a listener that has none. -/
theorem all_of_no_hooks (allowed : Hook → Prop) : Listener.All allowed {} :=
  ⟨by simp, by simp, by simp⟩

/-- Steps keep a calm machine on the run. -/
theorem Tracks.step (hprogram : program.Admissible) (hstart : start.WellFormed) {m : Machine}
    (hm : m.Tracks program start) : (Machine.step m).machine.Tracks program start := by
  obtain ⟨n, hat⟩ := hm.standing
  have hfollows := m.follows_step
  obtain ⟨hreached, _⟩ := step_of_at hprogram hstart hm.program_eq hm.calm hat
  exact ⟨hfollows.program_eq.trans hm.program_eq, hfollows.calm hm.calm, n + 1, hreached⟩

/-- The state of a machine that follows a run is reached by the run, and it is shown. -/
theorem Tracks.snapshot (hprogram : program.Admissible) (hstart : start.WellFormed)
    {m : Machine} (hm : m.Tracks program start) :
    program.Reaches start m.steps m.state ∧ (Call.snapshot m).value = .ok m.state := by
  obtain ⟨n, hat⟩ := hm.standing
  have hsound := (Progress.after_sound hprogram hstart n).state
  rw [← hat.state] at hsound
  refine ⟨?_, by rw [Call.snapshot_eq hsound.1]⟩
  rw [hat.state, hat.steps]
  exact program.reaches_after start n

/-- An answer as the run of a program gives it: not cut off, and with no other result than
that of the run. -/
def Faithful (program : Program) (start : State) (value : Except Interrupt Answer) : Prop :=
  ∃ answer, value = .ok answer ∧
    ∀ result, answer = .result (some result) → program.Ends start result

/-- A step keeps a calm machine on the run, and its answer is faithful. -/
theorem tracks_stepInvariant (hprogram : program.Admissible) (hstart : start.WellFormed) :
    StepInvariant (Tracks program start) (Faithful program start) where
  step {m} hm := by
    refine ⟨hm.step hprogram hstart, ?_⟩
    obtain ⟨n, hat⟩ := hm.standing
    obtain ⟨_, hvalue⟩ := step_of_at hprogram hstart hm.program_eq hm.calm hat
    rw [hvalue]
    refine ⟨_, rfl, fun result hresult => ⟨n + 1, ?_⟩⟩
    exact Progress.ended_of_result? (Answer.result.inj hresult)
  running := ⟨_, rfl, fun _ hresult => by cases hresult⟩

/-- Single steps of a calm machine answer what the run shows, one point after another. -/
theorem serveAll_replicate_step (hprogram : program.Admissible) (hstart : start.WellFormed)
    {m : Machine} {j : Nat} (hcode : m.program = program) (hcalm : m.Calm)
    (hat : m.At (Progress.after program start j)) (n : Nat) :
    ∃ after replies, m.serveAll (List.replicate n .step) = some (after, replies) ∧
      replies.map (·.value) = (List.range n).map fun i =>
        .ok (.result (Progress.after program start (j + i + 1)).result?) := by
  induction n generalizing m j with
  | zero => exact ⟨m, [], rfl, rfl⟩
  | succ n ih =>
    have hfollows := m.follows_step
    obtain ⟨hreached, hvalue⟩ := step_of_at hprogram hstart hcode hcalm hat
    have hcode' : (step m).machine.program = program :=
      hfollows.program_eq.trans hcode
    obtain ⟨after, replies, hserved, hvalues⟩ := ih hcode' (hfollows.calm hcalm) hreached
    refine ⟨after, (step m).map .result :: replies, ?_, ?_⟩
    · rw [List.replicate_succ, serveAll, Request.serve]
      change (serveAll (step m).machine _).map _ = _
      rw [hserved]
      rfl
    · rw [List.map_cons, hvalues, List.range_succ_eq_map, List.map_cons, List.map_map]
      refine List.cons_eq_cons.mpr ⟨?_, List.map_congr_left fun i _ => ?_⟩
      · simp only [Reply.map, hvalue, Except.map, Nat.add_zero]
      · have hindex : j + 1 + i + 1 = j + (i + 1) + 1 := by omega
        simp only [hindex, Function.comp_apply, Nat.succ_eq_add_one]

/-- Enough steps bring a calm machine to the result of the run. -/
theorem advance_of_ends (hprogram : program.Admissible) (hstart : start.WellFormed)
    {result : Result} (hends : program.Ends start result) {m : Machine} {j : Nat}
    (hcode : m.program = program) (hcalm : m.Calm)
    (hat : m.At (Progress.after program start j)) {n : Nat} (hpos : 0 < n)
    (henough : result.due ≤ j + n) (past : Array Event) :
    (advance n past m).value = .ok (some result) := by
  induction n generalizing m j past with
  | zero => omega
  | succ n ih =>
    have hfollows := m.follows_step
    obtain ⟨hreached, hvalue⟩ := step_of_at hprogram hstart hcode hcalm hat
    have hcode' : (step m).machine.program = program :=
      hfollows.program_eq.trans hcode
    rw [hends.result?_after] at hvalue
    rw [advance]
    by_cases hlater : j + 1 < result.due
    · simp only [hvalue, if_pos hlater]
      exact ih hcode' (hfollows.calm hcalm) hreached (by omega) (by omega) _
    · simp only [hvalue, if_neg hlater]

/-- A calm machine comes to the result of the run if it is allowed enough steps. -/
theorem Tracks.exists_run_of_ends (hprogram : program.Admissible) (hstart : start.WellFormed)
    {result : Result} (hends : program.Ends start result) {m : Machine}
    (hm : m.Tracks program start) :
    ∃ fuel reply, m.run fuel = some reply ∧ reply.value = .ok result := by
  obtain ⟨j, hat⟩ := hm.standing
  have hvalue := advance_of_ends hprogram hstart hends hm.program_eq hm.calm hat
    (Nat.succ_pos result.due) (by omega) #[.log (.started m.code.size)]
  have hrun : m.run (result.due + 1) = some
      { advance (result.due + 1) #[.log (.started m.code.size)] m with value := .ok result } := by
    simp only [run, hvalue]
  exact ⟨_, _, hrun, rfl⟩

/-- A run of a calm machine returns if and only if the run of its program ends. -/
theorem Tracks.run_isSome_iff (hprogram : program.Admissible) (hstart : start.WellFormed)
    {m : Machine} (hm : m.Tracks program start) :
    (∃ fuel, (m.run fuel).isSome) ↔ ∃ result, program.Ends start result := by
  constructor
  · rintro ⟨fuel, hfuel⟩
    obtain ⟨reply, hreply⟩ := Option.isSome_iff_exists.mp hfuel
    obtain ⟨_, answer, hanswer, hfaithful⟩ := (tracks_stepInvariant hprogram hstart).run hm hreply
    cases hvalue : reply.value with
    | error interrupt =>
      rw [hvalue] at hanswer
      cases hanswer
    | ok result =>
      rw [hvalue] at hanswer
      exact ⟨result, hfaithful result (Except.ok.inj hanswer).symm⟩
  · rintro ⟨result, hends⟩
    obtain ⟨fuel, reply, hrun, _⟩ := hm.exists_run_of_ends hprogram hstart hends
    exact ⟨fuel, Option.isSome_iff_exists.mpr ⟨reply, hrun⟩⟩

/-- A step calls no observer in. -/
theorem unobserved_stepInvariant : StepInvariant (fun m => m.observer = none) fun _ => True where
  step {m} hm := by
    have hobserved := m.follows_step.observed
    rw [hm] at hobserved
    exact ⟨Option.isNone_iff_eq_none.mp (Option.isSome_eq_false_iff.mp hobserved), trivial⟩
  running := trivial

/-- A machine is observed during a request at most, and no longer when it has been served. -/
theorem observer_eq_none_of_serve {m : Machine} (hm : m.observer = none) {request : Request}
    {reply : Reply Answer} (h : request.serve m = some reply) : reply.machine.observer = none := by
  cases request with
  | step =>
    obtain rfl := Option.some.inj h
    exact (unobserved_stepInvariant.step hm).1
  | steps n =>
    obtain rfl := Option.some.inj h
    exact (unobserved_stepInvariant.advance hm n #[]).1
  | run fuel =>
    obtain ⟨answered, hrun, rfl⟩ := Option.map_eq_some_iff.mp h
    exact (unobserved_stepInvariant.run hm hrun).1
  | observe fuel observer =>
    obtain ⟨answered, hobserve, rfl⟩ := Option.map_eq_some_iff.mp h
    obtain ⟨observed, _, rfl⟩ := Option.map_eq_some_iff.mp hobserve
    rfl
  | listen listener =>
    obtain rfl := Option.some.inj h
    exact hm
  | state =>
    obtain rfl := Option.some.inj h
    exact hm

/-- Between requests a machine is not observed. -/
theorem observer_eq_none_of_serveAll {m after : Machine} (hm : m.observer = none)
    {requests : List Request} {replies : List (Reply Answer)}
    (h : m.serveAll requests = some (after, replies)) : after.observer = none := by
  induction requests generalizing m replies with
  | nil =>
    obtain ⟨rfl, _⟩ := Prod.mk.inj (Option.some.inj h)
    exact hm
  | cons request requests ih =>
    obtain ⟨reply, others, hserve, hothers, _⟩ := serveAll_cons h
    exact ih (observer_eq_none_of_serve hm hserve) hothers

end WordMachine.Machine
