import WordMachine.Proofs.Execution.Overrun
import WordMachine.Proofs.Machine.Trace

/-!
# Programs without jumps

Without a jump the program counter moves on by one with every instruction that does not end
the run. The instructions that are executed therefore stand one behind another, none of them
is met twice, and the run ends at the end of the program if not before. A run of a machine
returns as soon as it is allowed one step more than there are instructions left.
-/

namespace WordMachine

/-- A program in which there is no jump. -/
def Program.JumpFree (program : Program) : Prop :=
  .plain .jump ∉ program

instance : DecidablePred Program.JumpFree := fun program =>
  inferInstanceAs (Decidable (.plain .jump ∉ program))

/-- The index of an executed instruction, if an event reports one to the step hook. -/
def Event.index? : Event → Option Nat
  | .step index _ _ => some index
  | _ => none

/-- The step hook is told the indices of all executed instructions in their order, whatever other
hooks there are. -/
theorem Program.indices_trace (program : Program) (shown : Nat → StepReport → StepReport)
    (states : Nat → State) (insts : Nat → Instruction) (result : Result) {listener : Listener}
    (hstep : listener.step.isSome) (observed : Bool) :
    ((program.trace shown states insts result).filter (listener.shows observed)).filterMap
      Event.index? = (List.range result.steps).map fun k => (states k).pc.toNat := by
  have hshown (event : Event) :
      (if listener.shows observed event then event.index? else none) = event.index? := by
    cases event with
    | step index inst state => exact if_pos hstep
    | _ => exact ite_self none
  have hreports (k : Nat) : ((insts k).reports (shown k) (states k) (states (k + 1))).filterMap
      Event.index? = [(states k).pc.toNat] := rfl
  have hend : result.reports.filterMap Event.index? = [] := by
    unfold Result.reports
    cases result.outcome <;> rfl
  simp only [List.filterMap_filter, hshown, trace, List.cons_append, List.filterMap_cons,
    List.filterMap_append, List.filterMap_flatMap, hreports, hend]
  simp only [Event.index?, List.append_nil]
  exact List.map_eq_flatMap.symm

namespace Program.JumpFree

variable {program : Program} {start : State}

/-- Without a jump every instruction but a halt moves on by one. -/
theorem pc_of_execute (hjump : program.JumpFree) {state after : State} {inst : Instruction}
    {index : Nat} (hinst : program[index]? = some inst) (hexecute : execute state inst = .ok after)
    (hhalt : inst ≠ .plain .halt) : after.pc = state.pc + 1 := by
  have hmem : inst ∈ program := List.mem_of_getElem? hinst
  rcases Instruction.pc_of_execute hexecute with ⟨hinst, _⟩ | ⟨rfl, _⟩ | ⟨_, _, hpc⟩
  · exact absurd hinst hhalt
  · exact absurd hmem hjump
  · exact hpc

/-- Without a jump a run that goes on has moved on by one for each instruction executed. -/
theorem pc_of_after_running (hjump : program.JumpFree) {n : Nat} {state : State}
    (h : Progress.after program start n = .running n state) : state.pc = start.pc + n := by
  induction n generalizing state with
  | zero =>
    cases h
    simp
  | succ n ih =>
    obtain ⟨before, hbefore, hnext⟩ := Progress.exists_running_of_succ h
    obtain ⟨inst, hinst, hexecute, hhalt⟩ := Progress.exists_execute_of_next_running hnext
    have hpc := hjump.pc_of_execute hinst hexecute hhalt
    have hmoved := ih hbefore
    omega

/-- Without a jump a run has ended when one more instruction has been due than there are
instructions left. -/
theorem exists_ended (hjump : program.JumpFree) (hprogram : program.Admissible)
    (hstart : start.WellFormed) :
    ∃ result, Progress.after program start (program.length - start.pc.toNat + 1) =
      .ended result := by
  have hsound := Progress.after_sound hprogram hstart (program.length - start.pc.toNat + 1)
  cases hprogress : Progress.after program start (program.length - start.pc.toNat + 1) with
  | running steps state =>
    -- The last instruction would stand behind the end of the program.
    obtain rfl := Progress.steps_of_after_running hprogress
    obtain ⟨before, hbefore, hnext⟩ := Progress.exists_running_of_succ hprogress
    obtain ⟨inst, hinst, _⟩ := Progress.exists_execute_of_next_running hnext
    obtain ⟨hindex, _⟩ := List.getElem?_eq_some_iff.mp hinst
    have hpc := hjump.pc_of_after_running hbefore
    have hnonneg := hstart.1.1
    omega
  | ended result => exact ⟨result, rfl⟩
  | stuck steps state error =>
    rw [hprogress] at hsound
    exact hsound.elim

/-- Where a run without jumps ends: one behind the last instruction executed, or at it if it is a
halt. -/
theorem pc_of_ends (hjump : program.JumpFree) (hprogram : program.Admissible)
    (hstart : start.WellFormed) {result : Result} (hends : program.Ends start result) :
    result.state.pc = if result.outcome = .halted then start.pc + result.steps - 1
      else start.pc + result.steps := by
  obtain ⟨n, last, hlast, hnext⟩ := hends.exists_last
  have hpc := hjump.pc_of_after_running hlast
  have hsound := Progress.after_sound hprogram hstart n
  rw [hlast] at hsound
  obtain ⟨hstate, _⟩ := hsound
  rcases Progress.next_running hprogram n hstate with
    ⟨_, hform⟩ | ⟨_, fault, _, _, hform⟩ | ⟨inst, after, _, hexecute, _, _, hform⟩
  · obtain rfl := Progress.ended.inj (hform.symm.trans hnext)
    simpa using hpc
  · obtain rfl := Progress.ended.inj (hform.symm.trans hnext)
    simpa using hpc
  · rw [hform] at hnext
    split at hnext
    · rename_i hhalt
      subst hhalt
      obtain rfl := Progress.ended.inj hnext
      obtain rfl := Except.ok.inj ((execute_halt hstate).symm.trans hexecute)
      simp only [if_true]
      omega
    · cases hnext

/-- The instructions that a run without jumps executes stand one behind another. -/
theorem pc_of_lt_steps (hjump : program.JumpFree) {result : Result}
    (hends : program.Ends start result) {k : Nat} (hk : k < result.steps) :
    (Progress.after program start k).state.pc = start.pc + k := by
  obtain ⟨n, last, hlast, hnext⟩ := hends.exists_last
  have hcount : result.steps ≤ n + 1 := by
    have hsteps := Progress.steps_after_le program start (n + 1)
    rwa [Progress.after, hlast, hnext] at hsteps
  obtain ⟨before, hbefore⟩ := Progress.exists_running_of_le hlast (by omega : k ≤ n)
  rw [hbefore]
  exact hjump.pc_of_after_running hbefore

/-- A run without jumps executes no more instructions than are left in the program. -/
theorem steps_le (hjump : program.JumpFree) (hprogram : program.Admissible)
    (hstart : start.WellFormed) {result : Result} (hends : program.Ends start result) :
    result.steps ≤ program.length - start.pc.toNat := by
  obtain ⟨hpath, _⟩ := Progress.path_of_ends hprogram hstart hends
  by_cases hnone : result.steps = 0
  · omega
  · have hlast : result.steps - 1 < result.steps := by omega
    obtain ⟨hindex, _⟩ := List.getElem?_eq_some_iff.mp (hpath.fetched _ hlast).2
    rw [hjump.pc_of_lt_steps hends hlast] at hindex
    have hnonneg := hstart.1.1
    omega

end Program.JumpFree

namespace Machine

variable {program : Program} {start : State}

/-- A calm machine at the beginning of a run returns its result if it is allowed the steps that
are due. -/
theorem Tracks.exists_run_of_due_le (hprogram : program.Admissible) (hstart : start.WellFormed)
    {result : Result} (hends : program.Ends start result) {m : Machine}
    (hm : m.Tracks program start) (hat : m.At (Progress.after program start 0)) {fuel : Nat}
    (hpos : 0 < fuel) (hdue : result.due ≤ fuel) :
    ∃ reply, m.run fuel = some reply := by
  have hvalue := advance_of_ends hprogram hstart hends hm.program_eq hm.calm hat hpos
    (by omega) #[.log (.started m.code.size)]
  refine ⟨{ advance fuel #[.log (.started m.code.size)] m with value := .ok result }, ?_⟩
  simp only [run, hvalue]

/-- A program without jumps ends, and a run of a calm machine returns if it is allowed one step more
than there are instructions left. No more instructions than that are executed. They stand one behind
another from the first program counter on, and a step hook is told just their indices. The run ends
one behind the last of them, or at it if it is a halt. -/
theorem run_returns_without_jumps (hprogram : program.Admissible) (hstart : start.WellFormed)
    (hjump : program.JumpFree) :
    ∃ fresh result states insts, load program start = .ok fresh ∧
      result.steps ≤ program.length - start.pc.toNat ∧
      program.Path start result.steps states insts ∧ states result.steps = result.state ∧
      (∀ k < result.steps, (states k).pc = start.pc + k ∧
        program[start.pc.toNat + k]? = some (insts k)) ∧
      (result.state.pc = if result.outcome = .halted then start.pc + result.steps - 1
        else start.pc + result.steps) ∧
      ∀ (listener : Listener) (observer : Option Hook), listener.All Hook.Quiet →
        (∀ hook ∈ observer, hook.Quiet) →
        (observer.isSome → ∀ hook ∈ listener.step, hook.Tidy) →
        let m : Machine := { fresh.listen listener with observer }
        (∀ fuel, program.length - start.pc.toNat < fuel → ∃ reply, m.run fuel = some reply) ∧
        ∀ fuel reply, m.run fuel = some reply → reply.value = .ok result ∧
          (listener.step.isSome → reply.events.filterMap Event.index? =
            List.range' start.pc.toNat result.steps) := by
  obtain ⟨result, hended⟩ := hjump.exists_ended hprogram hstart
  have hends : program.Ends start result := ⟨_, hended⟩
  obtain ⟨hdue, _⟩ := Program.due_of_after_ended hended
  obtain ⟨hpath, hlast⟩ := Progress.path_of_ends hprogram hstart hends
  have hpc {k : Nat} (hk : k < result.steps) := hjump.pc_of_lt_steps hends hk
  have hindex {k : Nat} : (start.pc + k).toNat = start.pc.toNat + k := by
    have hnonneg := hstart.1.1
    omega
  refine ⟨_, result, _, _, load_of_wellFormed program hstart,
    hjump.steps_le hprogram hstart hends, hpath, hlast, fun k hk => ⟨hpc hk, ?_⟩,
    hjump.pc_of_ends hprogram hstart hends, ?_⟩
  · rw [← hindex, ← hpc hk]
    exact (hpath.fetched k hk).2
  · intro listener observer hlistener hobserver htidy
    have htracks := tracks_of_new program start hlistener hobserver htidy
    refine ⟨fun fuel hfuel => ?_, fun fuel reply hrun => ?_⟩
    · exact htracks.exists_run_of_due_le hprogram hstart hends ⟨rfl, rfl, rfl⟩ (by omega) (by omega)
    · obtain ⟨hvalue, hevents⟩ :=
        run_shows hprogram hstart hends htracks ⟨rfl, rfl, rfl⟩ hrun
      refine ⟨hvalue, fun hstep => ?_⟩
      rw [hevents, List.range'_eq_map_range]
      refine (program.indices_trace _ _ _ result hstep _).trans (List.map_congr_left fun k hk => ?_)
      rw [hpc (List.mem_range.mp hk), hindex]

set_option maxRecDepth 4000 in
/-- A run that is started at the second instruction executes three and ends at the halt; the
reserved jump behind it is not met. -/
theorem run_returns_without_jumps_of_halt :
    Program.Admissible
        [.plain .nop, .set 4, .plain .push, .plain .halt, .plain (.reserved .jumpIf)] ∧
      State.WellFormed { pc := 1 } ∧
      Program.JumpFree
        [.plain .nop, .set 4, .plain .push, .plain .halt, .plain (.reserved .jumpIf)] ∧
      ∃ fresh, load [.plain .nop, .set 4, .plain .push, .plain .halt, .plain (.reserved .jumpIf)]
          { pc := 1 } = .ok fresh ∧
        ∃ reply, (fresh.listen { step := some .quiet }).run 5 = some reply ∧
          reply.value = .ok { outcome := .halted, steps := 3
                              state := { pc := 3, register := 4, stack := { values := [4] } } } ∧
          reply.events.filterMap Event.index? = [1, 2, 3] := by
  have hprogram : Program.Admissible
      [.plain .nop, .set 4, .plain .push, .plain .halt, .plain (.reserved .jumpIf)] :=
    ⟨by decide, by decide⟩
  have hstart : State.WellFormed { pc := 1 } := by decide
  have hjump : Program.JumpFree
      [.plain .nop, .set 4, .plain .push, .plain .halt, .plain (.reserved .jumpIf)] := by
    decide
  obtain ⟨fresh, result, _, _, hload, _, _, _, _, _, hruns⟩ :=
    run_returns_without_jumps hprogram hstart hjump
  obtain rfl := Except.ok.inj ((load_of_wellFormed _ hstart).symm.trans hload)
  have hquiet : Listener.All Hook.Quiet { step := some .quiet } :=
    ⟨by rintro hook ⟨⟩; exact fun _ => rfl, by simp, by simp⟩
  obtain ⟨hreturns, hshown⟩ := hruns _ none hquiet (by simp) (by simp)
  obtain ⟨reply, hrun⟩ := hreturns 5 (by decide)
  obtain ⟨hvalue, hindices⟩ := hshown 5 reply hrun
  obtain rfl : result = { outcome := .halted, steps := 3
                          state := { pc := 3, register := 4, stack := { values := [4] } } } := by
    obtain rfl := Option.some.inj hrun
    exact (Except.ok.inj hvalue).symm
  exact ⟨hprogram, hstart, hjump, _, hload, reply, hrun, hvalue, hindices rfl⟩

end Machine

end WordMachine
