import WordMachine.Proofs.Machine.Recast
import WordMachine.Proofs.Machine.Schedule

/-!
# Starting again from a state

The state that a machine shows is all that its run depends on. A new machine that is
started from it goes on like the first one, and only the count starts from zero again.
Started from the state of a result, it ends at once in the same way: a fault and the end
of the program are met again, and a halt, which leaves the state as it is, is executed
again.
-/

namespace WordMachine

namespace Program

variable {program : Program} {start : State}

/-- A run from the state of a result ends at once in the same way, after the halt if there was
one. -/
theorem Ends.after_one (hprogram : program.Admissible) (hstart : start.WellFormed)
    {result : Result} (h : program.Ends start result) :
    Progress.after program result.state 1 =
      .ended { result with steps := if result.outcome = .halted then 1 else 0 } := by
  obtain ⟨n, last, hlast, hnext⟩ := h.exists_last
  have hsound := Progress.after_sound hprogram hstart n
  rw [hlast] at hsound
  obtain ⟨hwell, _⟩ := hsound
  rw [Progress.after, Progress.after]
  rcases Progress.next_running hprogram n hwell with
    ⟨hinst, hform⟩ | ⟨inst, fault, hinst, hexecute, hform⟩ |
    ⟨inst, after, hinst, hexecute, _, _, hform⟩
  · obtain rfl := Progress.ended.inj (hform.symm.trans hnext)
    simp [Progress.next, hinst]
  · obtain rfl := Progress.ended.inj (hform.symm.trans hnext)
    simp [Progress.next, hinst, hexecute]
  · by_cases hhalt : inst = .plain .halt
    · subst hhalt
      rw [if_pos rfl] at hform
      obtain rfl := Progress.ended.inj (hform.symm.trans hnext)
      rw [execute_halt hwell] at hexecute
      obtain rfl := Except.ok.inj hexecute
      simp [Progress.next, hinst, execute_halt hwell]
    · rw [if_neg hhalt] at hform
      rw [hform] at hnext
      cases hnext

end Program

namespace Machine

variable {program : Program} {start : State} {capacity : Int} {m : Machine}

/-- A machine without a result goes on like a new machine with the same hooks that is started from
its state, at a higher count. -/
theorem Sound.exists_restarted (hm : m.Sound program capacity) (hresult : m.result = none) :
    ∃ restarted, load program m.state = .ok restarted ∧
      m = later m.steps { restarted.listen m.listener with observer := m.observer } := by
  have hcode : m.code = program.toArray := by
    rw [← hm.program_eq]
    rfl
  refine ⟨_, load_of_wellFormed program hm.state.1, ?_⟩
  have hlater := eq_later_of_result_eq_none hresult
  rw [hcode] at hlater
  exact hlater

/-- Single steps do not depend on the count. -/
theorem afterSteps_later (k n : Nat) (m : Machine) :
    (m.later k).afterSteps n = (m.afterSteps n).later k := by
  induction n with
  | zero => rfl
  | succ n ih =>
    rw [afterSteps, ih, step_later]
    rfl

/-- A calm machine without a result and a calm machine that is new in the same state are in the
same state and give the same answer after as many steps, but for the count. -/
theorem Calm.afterSteps_restarted (hprogram : program.Admissible) {other : Machine}
    (hcalm : m.Calm) (hcalm' : other.Calm) (hcode : m.program = program)
    (hcode' : other.program = program) (hwell : m.state.WellFormed) (hresult : m.result = none)
    (hat : other.At (.running 0 m.state)) (n : Nat) :
    (m.afterSteps n).state = (other.afterSteps n).state ∧
      (m.afterSteps n).steps = m.steps + (other.afterSteps n).steps ∧
      ∃ found, (step (other.afterSteps n)).value = .ok found ∧
        (step (m.afterSteps n)).value = .ok (found.map (Result.later m.steps)) := by
  -- The machine is compared with a new one that has its hooks, and that one with the other.
  let resumed : Machine :=
    { code := m.code, state := m.state, listener := m.listener, observer := m.observer }
  have hsame : resumed.program = program := hcode
  have hresumed : resumed.Calm :=
    ⟨⟨hcalm.quiet.listener, hcalm.quiet.observer⟩, hcalm.tidy⟩
  have hafter : m.afterSteps n = (resumed.afterSteps n).later m.steps :=
    (congrArg (afterSteps · n) (eq_later_of_result_eq_none hresult)).trans (afterSteps_later ..)
  have hat' : resumed.At (.running 0 m.state) := ⟨rfl, rfl, rfl⟩
  have hreached := afterSteps_at hprogram hwell hsame hresumed (j := 0) hat' n
  have hreached' := afterSteps_at hprogram hwell hcode' hcalm' (j := 0) hat n
  have hanswer := step_afterSteps hprogram hwell hsame hresumed (j := 0) hat' n
  have hanswer' := step_afterSteps hprogram hwell hcode' hcalm' (j := 0) hat n
  rw [hafter]
  refine ⟨?_, ?_, _, hanswer', ?_⟩
  · exact hreached.state.trans hreached'.state.symm
  · have hsteps := hreached.steps.trans hreached'.steps.symm
    rw [Nat.add_comm]
    exact congrArg (· + m.steps) hsteps
  · rw [step_later]
    simp only [Reply.later, Reply.recast, resumed, hanswer, Except.map]

/-- The state that a machine shows is all that its run depends on, as long as no hook fails. A new
machine that is started from that state goes through the same states and gives the same answers,
and what was counted before is all that its counts lack; with the same hooks it does the same on
every list of requests. A new machine that is started from the state of a result ends with its
first step and in the same way. -/
theorem restarts_from_state (hprogram : program.Admissible) (hstart : start.WellFormed) :
    ∃ fresh, load program start = .ok fresh ∧
      ∀ requests m replies, (∀ request ∈ requests, request.All Hook.Quiet) →
        fresh.serveAll requests = some (m, replies) →
        (m.finished = false →
          ∃ state restarted, (Call.snapshot m).value = .ok state ∧
            load program state = .ok restarted ∧
            (∀ listener, listener.All Hook.Quiet → ∀ n,
              let original := m.afterSteps n
              let again := (restarted.listen listener).afterSteps n
              original.state = again.state ∧ original.steps = m.steps + again.steps ∧
              ∃ found, (step again).value = .ok found ∧
                (step original).value = .ok (found.map (Result.later m.steps))) ∧
            ∀ others, m.serveAll others =
              ({ restarted.listen m.listener with observer := m.observer }.serveAll others).map
                (servedLater m.steps)) ∧
        ∀ result, m.result = some result →
          ∃ restarted, load program result.state = .ok restarted ∧
            ∀ listener, listener.All Hook.Quiet →
              (step (restarted.listen listener)).value =
                .ok (some { result with steps := if result.outcome = .halted then 1 else 0 }) := by
  refine ⟨_, load_of_wellFormed program hstart, fun requests m replies hrequests hserved => ?_⟩
  obtain ⟨hsound, _⟩ := (sound_invariant hprogram start.stack.capacity).serveAll
    (sound_of_new program hstart) (fun request _ => request.all_of_forall fun _ => trivial) hserved
  have hcalm := calm_of_serveAll hprogram hstart hrequests hserved
  have hwell := hsound.state.1
  refine ⟨fun hunfinished => ?_, fun result hresult => ?_⟩
  · have hnone : m.result = none := by simpa [finished] using hunfinished
    obtain ⟨restarted, hload, hlater⟩ := hsound.exists_restarted hnone
    obtain rfl := Except.ok.inj ((load_of_wellFormed program hwell).symm.trans hload)
    have hshown : (Call.snapshot m).value = .ok m.state := by rw [Call.snapshot_eq hwell]
    refine ⟨_, _, hshown, hload, fun listener hlistener n => ?_,
      fun others => (congrArg (serveAll · others) hlater).trans (serveAll_later ..)⟩
    have hnew := tracks_listen_of_new program m.state hlistener
    exact hcalm.afterSteps_restarted hprogram hnew.calm hsound.program_eq rfl hwell hnone
      ⟨rfl, rfl, rfl⟩ n
  · obtain ⟨hafter, _, _⟩ :=
      (overcounts_of_new program start).of_serveAll hprogram hstart hserved
    obtain ⟨silent, hends, rfl⟩ := hafter.exists_ends hresult
    have hstate : silent.state.WellFormed := hsound.result hresult ▸ hwell
    refine ⟨_, load_of_wellFormed program hstate, fun listener hlistener => ?_⟩
    have hanswer := step_afterSteps hprogram hstate rfl
      (tracks_listen_of_new program silent.state hlistener).calm (j := 0) ⟨rfl, rfl, rfl⟩ 0
    rw [hends.after_one hprogram hstart] at hanswer
    exact hanswer

set_option maxRecDepth 4000 in
/-- A machine that is started again behind the first instruction comes to the same states, and one
that is started again where the run has halted executes the halt once more. -/
theorem restarts_from_state_of_halt :
    Program.Admissible [.set 4, .plain .push, .plain .halt] ∧ State.WellFormed {} ∧
      ∃ fresh, load [.set 4, .plain .push, .plain .halt] {} = .ok fresh ∧
        (∃ m replies, fresh.serveAll [.step] = some (m, replies) ∧ m.finished = false ∧
          ∃ state restarted, (Call.snapshot m).value = .ok state ∧
            load [.set 4, .plain .push, .plain .halt] state = .ok restarted ∧
            ∀ n, (m.afterSteps n).state = ((restarted.listen {}).afterSteps n).state) ∧
        ∃ restarted, load [.set 4, .plain .push, .plain .halt]
            { pc := 2, register := 4, stack := { values := [4] } } = .ok restarted ∧
          (step (restarted.listen {})).value =
            .ok (some { outcome := .halted, steps := 1
                        state := { pc := 2, register := 4, stack := { values := [4] } } }) := by
  have hprogram : Program.Admissible [.set 4, .plain .push, .plain .halt] :=
    ⟨by decide, by decide⟩
  have hstart : State.WellFormed {} := by decide
  have hquiet := all_of_no_hooks Hook.Quiet
  obtain ⟨fresh, hload, hrestarts⟩ := restarts_from_state hprogram hstart
  obtain rfl := Except.ok.inj ((load_of_wellFormed _ hstart).symm.trans hload)
  obtain ⟨hunfinished, _⟩ := hrestarts [.step] _ _ (by simp [Request.All]) rfl
  obtain ⟨state, restarted, hstate, hrestarted, hsteps, _⟩ := hunfinished rfl
  obtain ⟨_, hfinished⟩ := hrestarts [.run 3] _ _ (by simp [Request.All]) rfl
  obtain ⟨again, hagain, hanswer⟩ := hfinished _ rfl
  exact ⟨hprogram, hstart, _, hload,
    ⟨_, _, rfl, rfl, state, restarted, hstate, hrestarted, fun n => (hsteps {} hquiet n).1⟩,
    again, hagain, hanswer {} hquiet⟩

end Machine

end WordMachine
