import WordMachine.Proofs.Machine.Advance
import WordMachine.Proofs.Machine.Restart

/-!
# Code behind the end of a program

A program can be told from a longer one that begins with it only where there is no
instruction at the program counter. Until then the two machines do the same, with
whatever hooks. A run of the shorter program that ends otherwise than there is a run of
the longer one. Where the shorter program does end, the machine on the longer one goes
on like a new machine that is started there.
-/

namespace WordMachine

/-- A beginning of an admissible program is admissible. -/
theorem Program.Admissible.of_append {program more : Program}
    (h : (program ++ more : Program).Admissible) : program.Admissible where
  inRange inst hinst := h.inRange inst (List.mem_append_left more hinst)
  length_le := by
    have hlength := h.length_le
    rw [List.length_append] at hlength
    omega

/-- The machine with more code behind its program. -/
def Machine.appending (more : Program) (m : Machine) : Machine :=
  { m with code := m.code ++ more.toArray }

/-- The reply that leaves the machine with more code behind its program. -/
def Reply.appending {α : Type} (more : Program) (reply : Reply α) : Reply α :=
  { reply with machine := reply.machine.appending more }

namespace Machine

variable {program more : Program} {capacity : Int} {m : Machine}

/-- With no instructions counted in addition only the program changes. -/
theorem recast_zero (change : Array Instruction → Array Instruction) (m : Machine) :
    m.recast change 0 = { m with code := change m.code } := by
  have hresult : m.result.map (Result.later 0) = m.result := Option.map_id'
  simp only [recast, hresult, Nat.add_zero]

/-- An instruction that is there is not moved by code behind it. -/
theorem current?_appending {inst : Instruction} (h : m.current? = some inst) :
    (m.appending more).current? = some inst := by
  obtain ⟨hindex, _⟩ := Array.getElem?_eq_some_iff.mp h
  have hleft : (m.code ++ more.toArray)[m.state.pc.toNat]? = m.code[m.state.pc.toNat]? :=
    Array.getElem?_append_left hindex
  exact hleft.trans h

/-- A step does not notice code behind the program while there is an instruction at the program
counter, or once there is a result. -/
theorem step_appending (more : Program) (h : m.result.isSome ∨ m.current?.isSome) :
    step (m.appending more) = (step m).appending more := by
  have hevents (events : List Event) : events.map (Event.later 0) = events := by
    have hid : Event.later 0 = id := by
      funext event
      cases event with
      | log entry => cases entry <;> rfl
      | _ => rfl
    rw [hid, List.map_id]
  have hvalue (value : Except Interrupt (Option Result)) :
      value.map (Option.map (Result.later 0)) = value := by
    rcases value with interrupt | _ | result
    · rfl
    · rfl
    · rfl
  have hsame : m.result.isSome ∨ (m.recast (· ++ more.toArray) 0).current? = m.current? := by
    refine h.imp_right fun hsome => ?_
    obtain ⟨inst, hinst⟩ := Option.isSome_iff_exists.mp hsome
    rw [recast_zero, hinst]
    exact current?_appending hinst
  have hstep := step_recast hsame
  simp only [Reply.recast, recast_zero, hevents, hvalue] at hstep
  exact hstep

/-- A sound machine that answers has gone to the next point of the run, and the answer is what
the run shows there. -/
theorem Sound.step_of_ok (hprogram : program.Admissible) (hm : m.Sound program capacity)
    {found : Option Result} (h : (step m).value = .ok found) :
    ∃ before, m.At before ∧ (step m).machine.At (before.next program) ∧
      (before.next program).Sound capacity ∧ (before.next program).result? = found := by
  obtain ⟨rfl, before, hat, hsound⟩ := hm
  obtain ⟨reached, hreached, houtcome⟩ := step_outcome hprogram hat hsound
  refine ⟨before, hat, ?_⟩
  generalize hvalue : (step m).value = value at houtcome
  cases houtcome with
  | answered =>
    rw [h] at hvalue
    exact ⟨hreached, hsound.next hprogram, (Except.ok.inj hvalue).symm⟩
  | endHookFailed => exact nomatch h.symm.trans hvalue
  | errorHookFailed => exact nomatch h.symm.trans hvalue
  | reportFailed => exact nomatch h.symm.trans hvalue
  | reportUnfit => exact nomatch h.symm.trans hvalue

/-- A step without a result executes and counts an instruction. -/
theorem Sound.step_of_none (hprogram : program.Admissible) (hm : m.Sound program capacity)
    (h : (step m).value = .ok none) :
    (step m).machine.steps = m.steps + 1 ∧ (step m).machine.result = none := by
  obtain ⟨before, hat, hreached, hsound, hfound⟩ := hm.step_of_ok hprogram h
  refine ⟨?_, hreached.result.trans hfound⟩
  cases before with
  | running steps state =>
    rw [hreached.steps, hat.steps]
    rcases Progress.next_running_forms program steps state with
      ⟨_, hnext⟩ | ⟨_, hnext⟩ | ⟨_, _, hnext⟩ | ⟨_, hnext⟩
    · rw [hnext]
      rfl
    · rw [hnext] at hfound
      cases hfound
    · rw [hnext] at hfound
      cases hfound
    · rw [hnext] at hsound
      exact hsound.elim
  | ended result => cases hfound
  | stuck steps state error => exact hsound.elim

/-- A run that ends otherwise than with a halt ends where the machine stands. -/
theorem Sound.step_of_some (hprogram : program.Admissible) (hm : m.Sound program capacity)
    (hresult : m.result = none) {result : Result} (h : (step m).value = .ok (some result))
    (houtcome : result.outcome ≠ .halted) : result.steps = m.steps ∧ result.state = m.state := by
  obtain ⟨before, hat, _, hsound, hfound⟩ := hm.step_of_ok hprogram h
  cases before with
  | running steps state =>
    rw [hat.steps, hat.state]
    rcases Progress.next_running_forms program steps state with
      ⟨_, hnext⟩ | ⟨_, hnext⟩ | ⟨_, _, hnext⟩ | ⟨_, hnext⟩
    · rw [hnext] at hfound
      cases hfound
    · rw [hnext] at hfound
      obtain rfl := Option.some.inj hfound
      exact absurd rfl houtcome
    · rw [hnext] at hfound
      obtain rfl := Option.some.inj hfound
      exact ⟨rfl, rfl⟩
    · rw [hnext] at hsound
      exact hsound.elim
  | ended other =>
    rw [hat.result] at hresult
    cases hresult
  | stuck steps state error => exact hsound.elim

/-- Steps in a row keep a machine sound. -/
theorem Sound.stepUpTo (hprogram : program.Admissible) (hm : m.Sound program capacity) (n : Nat) :
    (Machine.stepUpTo n m).machine.Sound program capacity :=
  ((sound_invariant hprogram capacity).advance hm n #[]).1

/-- Where there is no instruction, the run ends. -/
theorem Sound.step_of_current?_eq_none (hprogram : program.Admissible)
    (hm : m.Sound program capacity) (hresult : m.result = none) (hcurrent : m.current? = none) :
    (step m).value ≠ .ok none ∧ (step m).machine.result = some (m.resultNow .endOfProgram) := by
  have hstate := hm.state.1
  have hcode : m.program.Admissible := hm.program_eq ▸ hprogram
  rcases step_of_running hstate hcode hresult with
    ⟨_, hstep⟩ | ⟨inst, _, hinst, _⟩ | ⟨inst, _, hinst, _⟩
  · rw [hstep, finish_eq hstate]
    refine ⟨?_, notified_result _ _⟩
    simp only [Reply.map]
    split
    · simp [Except.map]
    · simp [Except.map]
  · rw [hcurrent] at hinst
    cases hinst
  · rw [hcurrent] at hinst
    cases hinst

/-- Steps in a row do not notice code behind the program, unless they come to the end of the
program. -/
theorem stepUpTo_appending (more : Program) (hprogram : program.Admissible) {n : Nat}
    (hm : m.Sound program capacity)
    (hended : ∀ result, (stepUpTo n m).machine.result = some result →
      result.outcome ≠ .endOfProgram) :
    stepUpTo n (m.appending more) = (stepUpTo n m).appending more := by
  induction n generalizing m with
  | zero => rfl
  | succ n ih =>
    have hthere : m.result.isSome ∨ m.current?.isSome := by
      refine Classical.byContradiction fun hnone => ?_
      simp only [not_or, Option.not_isSome_iff_eq_none] at hnone
      obtain ⟨hvalue, hkept⟩ := hm.step_of_current?_eq_none hprogram hnone.1 hnone.2
      rw [stepUpTo_succ_of_ne hvalue] at hended
      exact hended _ hkept rfl
    have hstep := step_appending more hthere
    have hsame : (step (m.appending more)).value = (step m).value := by
      rw [hstep]
      rfl
    by_cases hvalue : (step m).value = .ok none
    · rw [stepUpTo_succ_of_none hvalue] at hended ⊢
      rw [stepUpTo_succ_of_none (hsame.trans hvalue), hstep]
      have hnext := ((sound_invariant hprogram capacity).step hm).1
      change (stepUpTo n ((step m).machine.appending more)).following _ = _
      rw [ih hnext hended]
      rfl
    · have hvalue' : (step (m.appending more)).value ≠ .ok none := by rw [hsame]; exact hvalue
      rw [stepUpTo_succ_of_ne hvalue, stepUpTo_succ_of_ne hvalue', hstep]

/-- Code behind the program leaves a machine sound. -/
theorem Sound.appending (hm : m.Sound program capacity) (more : Program) :
    (m.appending more).Sound (program ++ more) capacity where
  program_eq := by
    rw [← hm.program_eq]
    simp only [Machine.program, Machine.appending, Array.toList_append]
  standing := by
    obtain ⟨progress, hat, hsound⟩ := hm.standing
    exact ⟨progress, ⟨hat.state, hat.steps, hat.result⟩, hsound⟩

/-- A result that steps in a row give is kept. -/
theorem Sound.result_of_stepUpTo (hprogram : program.Admissible) (hm : m.Sound program capacity)
    {n : Nat} {result : Result} (h : (Machine.stepUpTo n m).value = .ok (some result)) :
    (Machine.stepUpTo n m).machine.result = some result := by
  have hne : (Machine.stepUpTo n m).value ≠ .ok none := by simp [h]
  obtain ⟨k, past, _, hlast⟩ := exists_last_step hne
  rw [hlast] at h ⊢
  obtain ⟨_, _, hreached, _, hfound⟩ := (hm.stepUpTo hprogram k).step_of_ok hprogram h
  exact hreached.result.trans hfound

/-- A step first and others after it are as many steps and one more. -/
theorem afterSteps_step (m : Machine) (n : Nat) :
    (step m).machine.afterSteps n = m.afterSteps (n + 1) := by
  induction n with
  | zero => rfl
  | succ n ih => exact congrArg (fun other => (step other).machine) ih

/-- Steps in a row that come to no result are as many single steps, each of which is counted and
answers that the run goes on. -/
theorem Sound.stepUpTo_of_none (hprogram : program.Admissible) (hm : m.Sound program capacity)
    (hresult : m.result = none) {n : Nat} (h : (Machine.stepUpTo n m).value = .ok none) :
    (Machine.stepUpTo n m).machine = m.afterSteps n ∧ (m.afterSteps n).steps = m.steps + n ∧
      (m.afterSteps n).result = none ∧ ∀ i < n, (step (m.afterSteps i)).value = .ok none := by
  induction n generalizing m with
  | zero => exact ⟨rfl, rfl, hresult, fun i hi => absurd hi i.not_lt_zero⟩
  | succ n ih =>
    have hvalue : (step m).value = .ok none := by
      refine Classical.byContradiction fun hne => ?_
      rw [stepUpTo_succ_of_ne hne] at h
      exact hne h
    obtain ⟨hsteps, hnone⟩ := hm.step_of_none hprogram hvalue
    rw [stepUpTo_succ_of_none hvalue] at h ⊢
    have hnext := ((sound_invariant hprogram capacity).step hm).1
    obtain ⟨hmachine, hcount, hlast, hvalues⟩ := ih hnext hnone h
    rw [afterSteps_step] at hmachine hcount hlast
    refine ⟨hmachine, by omega, hlast, fun i hi => ?_⟩
    cases i with
    | zero => exact hvalue
    | succ i =>
      rw [← afterSteps_step]
      exact hvalues i (by omega)

/-- Steps that come to no result come to none with code behind the program, and they lead to the
same machine but for that code. -/
theorem Sound.afterSteps_appending (hprogram : (program ++ more : Program).Admissible)
    (hm : m.Sound program capacity) (hresult : m.result = none) {n : Nat}
    (h : (Machine.stepUpTo n m).value = .ok none) :
    (m.appending more).afterSteps n = (m.afterSteps n).appending more ∧
      ∀ i < n, (step ((m.appending more).afterSteps i)).value = .ok none := by
  have hshort := hprogram.of_append
  obtain ⟨hmachine, _, hunfinished, _⟩ := hm.stepUpTo_of_none hshort hresult h
  have hsame := stepUpTo_appending more hshort hm fun result hfinished => by
    rw [hmachine, hunfinished] at hfinished
    cases hfinished
  have hnone : (Machine.stepUpTo n (m.appending more)).value = .ok none := by
    rw [hsame]
    exact h
  obtain ⟨hmachine', _, _, hvalues⟩ := (hm.appending more).stepUpTo_of_none hprogram hresult hnone
  refine ⟨?_, hvalues⟩
  rw [← hmachine', hsame, ← hmachine]
  rfl

/-- A run that ends with a halt or a fault does not notice code behind the program. -/
theorem Sound.run_appending (hprogram : program.Admissible) (hm : m.Sound program capacity)
    (more : Program) {fuel : Nat} {reply : Reply Result} {result : Result}
    (hrun : m.run fuel = some reply) (hvalue : reply.value = .ok result)
    (houtcome : result.outcome ≠ .endOfProgram) :
    ∃ events, reply.events = .log (.started m.code.size) :: events ∧
      (m.appending more).run fuel = some
        { machine := reply.machine.appending more
          events := .log (.started (m.appending more).code.size) :: events
          value := .ok result } := by
  have hreply := run_eq_some_iff.mp hrun
  have hmachine : (Machine.stepUpTo fuel m).machine = reply.machine := congrArg Reply.machine hreply
  have hevents : .log (.started m.code.size) :: (Machine.stepUpTo fuel m).events = reply.events :=
    congrArg Reply.events hreply
  have hanswer : (Machine.stepUpTo fuel m).value = .ok (some result) := by
    have hmapped : (Machine.stepUpTo fuel m).value = reply.value.map some :=
      congrArg Reply.value hreply
    rw [hmapped, hvalue]
    rfl
  have hkept := hm.result_of_stepUpTo hprogram hanswer
  have hsteps := stepUpTo_appending more hprogram hm fun other hother => by
    rw [hkept] at hother
    obtain rfl := Option.some.inj hother
    exact houtcome
  refine ⟨_, hevents.symm, run_eq_some_iff.mpr ?_⟩
  rw [hsteps]
  simp only [Reply.following, Reply.appending, Reply.map, hmachine, hanswer, Except.map,
    List.singleton_append]

/-- A run that comes to the end of the program has got there by steps without a result. -/
theorem Sound.steps_of_run_endOfProgram (hprogram : program.Admissible)
    (hm : m.Sound program capacity) (hresult : m.result = none) {fuel k : Nat}
    {reply : Reply Result} {state : State} (hrun : m.run fuel = some reply)
    (hvalue : reply.value = .ok { outcome := .endOfProgram, steps := k, state }) :
    ∃ n, k = m.steps + n ∧ (Machine.stepUpTo n m).value = .ok none ∧
      (Machine.stepUpTo n m).machine.state = state := by
  have hmapped : (Machine.stepUpTo fuel m).value = reply.value.map some :=
    congrArg Reply.value (run_eq_some_iff.mp hrun)
  rw [hvalue] at hmapped
  have hne : (Machine.stepUpTo fuel m).value ≠ .ok none := by
    rw [hmapped]
    exact fun h => nomatch h
  obtain ⟨n, past, hnone, hlast⟩ := exists_last_step hne
  rw [hlast] at hmapped
  obtain ⟨hmachine, hsteps, hunfinished, _⟩ := hm.stepUpTo_of_none hprogram hresult hnone
  rw [← hmachine] at hsteps hunfinished
  obtain ⟨hcount, hstate⟩ := (hm.stepUpTo hprogram n).step_of_some hprogram hunfinished hmapped
    (by simp)
  exact ⟨n, hcount.trans hsteps, hnone, hstate.symm⟩

/-- Code behind the end of a program does not change what happens before the end is reached, with
whatever hooks. A run that ends with a halt or a fault is the run of the longer program, and all
that is seen of it is the same but for the length. If the run comes to the end of the program, the
machine on the longer one gets there in as many steps, none of which has a result, and goes on like
a new machine with the same hooks that is started there, at a higher count. -/
theorem unchanged_by_appended_code {start : State}
    (hprogram : (program ++ more : Program).Admissible) (hstart : start.WellFormed) :
    ∃ short long, load program start = .ok short ∧ load (program ++ more) start = .ok long ∧
      ∀ (listener : Listener) (observer : Option Hook),
        let first : Machine := { short.listen listener with observer }
        let second : Machine := { long.listen listener with observer }
        (∀ n, (∀ result, (stepUpTo n first).machine.result = some result →
            result.outcome ≠ .endOfProgram) →
          stepUpTo n second = (stepUpTo n first).appending more) ∧
        (∀ fuel reply result, first.run fuel = some reply → reply.value = .ok result →
          result.outcome ≠ .endOfProgram →
          ∃ events, reply.events = .log (.started program.length) :: events ∧
            second.run fuel = some
              { machine := reply.machine.appending more
                events := .log (.started (program ++ more).length) :: events
                value := .ok result }) ∧
        ∀ fuel reply k state, first.run fuel = some reply →
          reply.value = .ok { outcome := .endOfProgram, steps := k, state } →
          let m := second.afterSteps k
          (∀ i < k, (step (second.afterSteps i)).value = .ok none) ∧
          m.state = state ∧ m.steps = k ∧
          ∃ fresh, load (program ++ more) state = .ok fresh ∧ ∀ requests,
            m.serveAll requests =
              ({ fresh.listen m.listener with observer := m.observer }.serveAll requests).map
                (servedLater k) := by
  have hshort := hprogram.of_append
  refine ⟨_, _, load_of_wellFormed program hstart, load_of_wellFormed _ hstart, ?_⟩
  intro listener observer first second
  have hfirst : first.Sound program start.stack.capacity :=
    ⟨rfl, .running 0 start, ⟨rfl, rfl, rfl⟩, hstart, rfl⟩
  have hsecond : second = first.appending more := by
    simp only [first, second, appending, listen, List.append_toArray]
  rw [hsecond]
  refine ⟨fun n => stepUpTo_appending more hshort hfirst,
    fun fuel reply result hrun hvalue houtcome => ?_, fun fuel reply k state hrun hvalue => ?_⟩
  · obtain ⟨events, hevents, hlonger⟩ := hfirst.run_appending hshort more hrun hvalue houtcome
    rw [← hsecond] at hlonger ⊢
    exact ⟨events, hevents, hlonger⟩
  · obtain ⟨n, hcount, hnone, hstate⟩ := hfirst.steps_of_run_endOfProgram hshort rfl hrun hvalue
    obtain rfl : k = n := hcount.trans (Nat.zero_add n)
    obtain ⟨hmachine, hsteps, hunfinished, _⟩ := hfirst.stepUpTo_of_none hshort rfl hnone
    obtain ⟨hreached, hvalues⟩ := hfirst.afterSteps_appending hprogram rfl hnone
    have hsound := (hfirst.stepUpTo hshort k).appending more
    rw [hmachine] at hsound hstate
    have hsteps' : ((first.afterSteps k).appending more).steps = k :=
      hsteps.trans (Nat.zero_add k)
    obtain ⟨fresh, hload, hlater⟩ := hsound.exists_restarted hunfinished
    rw [hsteps'] at hlater
    intro m
    have hm : m = (first.afterSteps k).appending more := hreached
    rw [hm]
    exact ⟨hvalues, hstate, hsteps', fresh, hstate ▸ hload, fun requests =>
      (congrArg (serveAll · requests) hlater).trans (serveAll_later ..)⟩

set_option maxRecDepth 4000 in
/-- A jump beyond the end of the program ends its run and lands on the last instruction of the
code behind it. -/
theorem unchanged_by_appended_code_of_jump :
    Program.Admissible ([.set 4, .plain .push, .plain .jump] ++ [.plain .nop, .plain .halt]) ∧
      State.WellFormed {} ∧
      ∃ long, load ([.set 4, .plain .push, .plain .jump] ++ [.plain .nop, .plain .halt]) {} =
          .ok long ∧
        (long.afterSteps 3).state = { pc := 4, register := 4 } ∧
        ∃ fresh, load ([.set 4, .plain .push, .plain .jump] ++ [.plain .nop, .plain .halt])
            { pc := 4, register := 4 } = .ok fresh ∧
          (long.afterSteps 3).serveAll [.step] = (fresh.serveAll [.step]).map (servedLater 3) := by
  have hprogram : Program.Admissible
      ([.set 4, .plain .push, .plain .jump] ++ [.plain .nop, .plain .halt]) :=
    ⟨by decide, by decide⟩
  have hstart : State.WellFormed {} := by decide
  obtain ⟨short, long, hshort, hlong, hunchanged⟩ := unchanged_by_appended_code hprogram hstart
  obtain rfl := Except.ok.inj ((load_of_wellFormed _ hstart).symm.trans hshort)
  obtain rfl := Except.ok.inj ((load_of_wellFormed _ hstart).symm.trans hlong)
  obtain ⟨_, _, hend⟩ := hunchanged {} none
  obtain ⟨_, hstate, _, fresh, hfresh, hserved⟩ :=
    hend 4 _ 3 { pc := 4, register := 4 } rfl rfl
  have hreached : State.WellFormed { pc := 4, register := 4 } := by decide
  obtain rfl := Except.ok.inj ((load_of_wellFormed _ hreached).symm.trans hfresh)
  exact ⟨hprogram, hstart, _, hlong, hstate, _, hfresh, hserved [.step]⟩

end Machine

end WordMachine
