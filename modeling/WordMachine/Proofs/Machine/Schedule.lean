import WordMachine.Proofs.Machine.WordRange

/-!
# A machine under every schedule of requests

Steps, runs and observed runs may be asked for in any order and mixture, with other hooks
in between. As long as no hook fails and every request is answered, the machine refines
the run of its program. Requests are answered if, besides, all hooks are tidy; without
that an observed run may fail, and it is not among the calls that return.
-/

namespace WordMachine.Machine

variable {program : Program} {start : State}

/-- A new machine is calm after requests with hooks that do not fail. -/
theorem calm_of_serveAll (hprogram : program.Admissible) (hstart : start.WellFormed)
    {requests : List Request} (hquiet : ∀ request ∈ requests, request.All Hook.Quiet)
    {after : Machine} {replies : List (Reply Answer)}
    (hserved : serveAll { code := program.toArray, state := start } requests =
      some (after, replies)) : after.Calm := by
  obtain ⟨⟨_, hafter⟩, _⟩ := (quiet_invariant hprogram start.stack.capacity).serveAll
    ⟨sound_of_new program hstart, quiet_of_new program start⟩ hquiet hserved
  exact ⟨hafter, tidy_of_observer_eq_none (observer_eq_none_of_serveAll rfl hserved)⟩

/-- A new machine answers all requests with hooks that do not fail and are tidy. -/
theorem answered_of_tidy (hprogram : program.Admissible) (hstart : start.WellFormed)
    {requests : List Request} (hquiet : ∀ request ∈ requests, request.All Hook.Quiet)
    (htidy : ∀ request ∈ requests, request.All Hook.Tidy) {after : Machine}
    {replies : List (Reply Answer)}
    (hserved : serveAll { code := program.toArray, state := start } requests =
      some (after, replies)) {reply : Reply Answer} (hreply : reply ∈ replies) :
    ∃ answer, reply.value = .ok answer := by
  have hnew := sound_of_new program hstart
  obtain ⟨_, hhooks⟩ := (quiet_invariant hprogram start.stack.capacity).serveAll
    ⟨hnew, quiet_of_new program start⟩ hquiet hserved
  obtain ⟨_, hfailures⟩ := (tidy_invariant hprogram start.stack.capacity).serveAll
    ⟨hnew, by simp⟩ htidy hserved
  cases hvalue : reply.value with
  | ok answer => exact ⟨answer, rfl⟩
  | error interrupt =>
    cases interrupt with
    | failure failure => exact absurd hvalue (hfailures reply hreply failure)
    | hook name => exact absurd hvalue (hhooks reply hreply name)

/-- A machine none of whose hooks fails refines the run of its program under every schedule of
requests that are answered, as they are with tidy hooks. It counts and shows a state that the run
reaches, it gives no other result than that of the run, a run returns if and only if the run of the
program ends, and single steps answer with the result from the step on at which it is due. -/
theorem serveAll_refines_run (hprogram : program.Admissible) (hstart : start.WellFormed) :
    ∃ fresh, load program start = .ok fresh ∧
      (∀ requests after replies, (∀ request ∈ requests, request.All Hook.Quiet) →
        fresh.serveAll requests = some (after, replies) →
        ((∀ request ∈ requests, request.All Hook.Tidy) ∨
          ∀ reply ∈ replies, ∃ answer, reply.value = .ok answer) →
        (∃ k state, after.steps = k ∧ program.Reaches start k state ∧
          (Call.snapshot after).value = .ok state) ∧
        (∀ reply ∈ replies, ∃ answer, reply.value = .ok answer ∧
          ∀ result, answer = .result (some result) → program.Ends start result) ∧
        ((∃ fuel, (after.run fuel).isSome) ↔ ∃ result, program.Ends start result)) ∧
      ∀ listener, listener.All Hook.Quiet → ∀ n,
        ∃ after replies,
          (fresh.listen listener).serveAll (List.replicate n .step) = some (after, replies) ∧
          (∀ result, program.Ends start result → replies.map (·.value) =
            (List.range n).map fun i =>
              .ok (.result (if i + 1 < result.due then none else some result))) ∧
          ((∀ result, ¬ program.Ends start result) →
            replies.map (·.value) = (List.range n).map fun _ => .ok (.result none)) := by
  refine ⟨_, load_of_wellFormed program hstart, ?_, ?_⟩
  · intro requests after replies hquiet hserved hreturns
    have hanswered : ∀ reply ∈ replies, ∃ answer, reply.value = .ok answer := by
      rcases hreturns with htidy | hanswered
      · exact fun reply => answered_of_tidy hprogram hstart hquiet htidy hserved
      · exact hanswered
    -- No report on a halt has failed, so that nothing is counted in addition.
    have hnone : replies.countP Reply.haltReportFailed = 0 := by
      refine List.countP_eq_zero.mpr fun reply hreply => ?_
      obtain ⟨answer, hvalue⟩ := hanswered reply hreply
      simp [Reply.haltReportFailed_of_ok hvalue]
    obtain ⟨hafter, _, hgiven⟩ :=
      (overcounts_of_new program start).of_serveAll hprogram hstart hserved
    rw [hnone] at hafter
    have hends {result : Result} (hresult : after.result = some result) :
        program.Ends start result := by
      obtain ⟨silent, hsilent, rfl⟩ := hafter.exists_ends hresult
      exact hsilent
    have htracks : after.Tracks program start := by
      obtain ⟨hcode, n, hat⟩ := hafter
      rw [Progress.overcount_zero] at hat
      exact ⟨hcode, calm_of_serveAll hprogram hstart hquiet hserved, n, hat⟩
    obtain ⟨hreaches, hsnapshot⟩ := htracks.snapshot hprogram hstart
    refine ⟨⟨_, _, rfl, hreaches, hsnapshot⟩, fun reply hreply => ?_,
      htracks.run_isSome_iff hprogram hstart⟩
    obtain ⟨answer, hvalue⟩ := hanswered reply hreply
    refine ⟨answer, hvalue, fun result hresult => hends ?_⟩
    exact hgiven reply hreply result (.inl (hresult ▸ hvalue))
  · intro listener hlistener n
    have hlistening := tracks_listen_of_new program start hlistener
    obtain ⟨after, replies, hserved, hvalues⟩ := serveAll_replicate_step hprogram hstart
      hlistening.program_eq hlistening.calm (j := 0) ⟨rfl, rfl, rfl⟩ n
    refine ⟨after, replies, hserved, fun result hends => ?_, fun hnever => ?_⟩
    · rw [hvalues]
      refine List.map_congr_left fun i _ => ?_
      rw [hends.result?_after, Nat.zero_add]
    · rw [hvalues]
      refine List.map_congr_left fun i _ => ?_
      rw [Program.result?_after_of_not_ends hnever]

set_option maxRecDepth 4000 in
/-- The step that executes a halt answers with the result, and so do the steps after it. -/
theorem serveAll_refines_run_of_halt :
    Program.Admissible [.set 4, .plain .push, .plain .halt] ∧ State.WellFormed {} ∧
      ∃ fresh, load [.set 4, .plain .push, .plain .halt] {} = .ok fresh ∧
        ∃ after replies,
          (fresh.listen {}).serveAll (List.replicate 4 .step) = some (after, replies) ∧
          replies.map (·.value) = [none, none,
            some { outcome := .halted, steps := 3
                   state := { pc := 2, register := 4, stack := { values := [4] } } },
            some { outcome := .halted, steps := 3
                   state := { pc := 2, register := 4, stack := { values := [4] } } }].map
              fun result => .ok (.result result) := by
  have hprogram : Program.Admissible [.set 4, .plain .push, .plain .halt] :=
    ⟨by decide, by decide⟩
  have hstart : State.WellFormed {} := by decide
  obtain ⟨fresh, hload, _, hsteps⟩ := serveAll_refines_run hprogram hstart
  obtain ⟨after, replies, hserved, hvalues, _⟩ := hsteps {} (all_of_no_hooks _) 4
  exact ⟨hprogram, hstart, fresh, hload, after, replies, hserved, hvalues _ ⟨3, rfl⟩⟩

end WordMachine.Machine
