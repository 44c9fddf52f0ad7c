import WordMachine.Proofs.Machine.Request
import WordMachine.Proofs.Machine.Step

/-!
# Steps in a row

Whatever is asked of a machine, it makes a number of steps in a row and stops early
at a result or at an interrupt. The events so far only stand in front of those of
the steps. A reply to a request tells the same as the reply to these steps, and it
leaves the machine where they do, apart from the hooks.
-/

namespace WordMachine

/-- Reshaping twice is reshaping once. -/
theorem Reply.map_map {α β γ : Type} (reply : Reply α) (f : α → β) (g : β → γ) :
    (reply.map f).map g = reply.map fun a => g (f a) := by
  unfold Reply.map
  cases reply.value with
  | error interrupt => rfl
  | ok a => rfl

/-- Reshaping an answer does not change how it is interrupted. -/
theorem Reply.map_value_eq_error_iff {α β : Type} {reply : Reply α} {f : α → β}
    {interrupt : Interrupt} :
    (reply.map f).value = .error interrupt ↔ reply.value = .error interrupt := by
  unfold Reply.map
  cases reply.value with
  | error cause => simp [Except.map]
  | ok a => simp [Except.map]

namespace Machine

/-- While there is no result, the next step follows. -/
theorem advance_succ_of_none {m : Machine} (h : (step m).value = .ok none) (n : Nat)
    (past : Array Event) :
    advance (n + 1) past m = advance n (past ++ (step m).events) (step m).machine := by
  rw [advance]
  simp only [h]

/-- A result or a hook that fails stops the steps. -/
theorem advance_succ_of_ne {m : Machine} (h : (step m).value ≠ .ok none) (n : Nat)
    (past : Array Event) : advance (n + 1) past m = (step m).following past.toList := by
  rw [advance]
  split
  · rename_i hnone
    exact absurd hnone h
  · simp only [Reply.following, Array.toList_appendList]

/-- The events so far stand in front of those of the steps. -/
theorem advance_eq_following (n : Nat) (past : Array Event) (m : Machine) :
    advance n past m = (stepUpTo n m).following past.toList := by
  unfold stepUpTo
  induction n generalizing m past with
  | zero => simp only [advance, Reply.following, List.append_nil]
  | succ n ih =>
    by_cases hvalue : (step m).value = .ok none
    · rw [advance_succ_of_none hvalue, advance_succ_of_none hvalue, ih, ih (#[] ++ _),
        Reply.following_following]
      simp only [Array.toList_appendList, List.nil_append]
    · rw [advance_succ_of_ne hvalue, advance_succ_of_ne hvalue, Reply.following_following,
        List.append_nil]

/-- One step in a row is a step. -/
theorem stepUpTo_one (m : Machine) : stepUpTo 1 m = step m := by
  unfold stepUpTo
  by_cases hvalue : (step m).value = .ok none
  · rw [advance_succ_of_none hvalue, advance, ← hvalue]
    simp
  · rw [advance_succ_of_ne hvalue]
    rfl

/-- Steps after steps are steps, as long as there is no result. -/
theorem stepUpTo_succ_of_none {m : Machine} (h : (step m).value = .ok none) (n : Nat) :
    stepUpTo (n + 1) m = (stepUpTo n (step m).machine).following (step m).events := by
  rw [stepUpTo, advance_succ_of_none h, advance_eq_following]
  simp

/-- A first step with a result or with a hook that fails is the only one. -/
theorem stepUpTo_succ_of_ne {m : Machine} (h : (step m).value ≠ .ok none) (n : Nat) :
    stepUpTo (n + 1) m = step m := by
  rw [stepUpTo, advance_succ_of_ne h]
  rfl

/-- Steps that end with a result or with a hook that fails are steps that end with neither, and
one more. -/
theorem exists_last_step {m : Machine} {n : Nat} (h : (stepUpTo n m).value ≠ .ok none) :
    ∃ k past, (stepUpTo k m).value = .ok none ∧
      stepUpTo n m = (step (stepUpTo k m).machine).following past := by
  induction n generalizing m with
  | zero => exact absurd rfl h
  | succ n ih =>
    by_cases hvalue : (step m).value = .ok none
    · rw [stepUpTo_succ_of_none hvalue] at h ⊢
      obtain ⟨k, past, hnone, hlast⟩ := ih h
      refine ⟨k + 1, (step m).events ++ past, ?_, ?_⟩
      · rw [stepUpTo_succ_of_none hvalue]
        exact hnone
      · rw [stepUpTo_succ_of_none hvalue, hlast, Reply.following_following]
        rfl
    · refine ⟨0, [], rfl, ?_⟩
      rw [stepUpTo, advance_succ_of_ne hvalue]
      rfl

/-- A machine that has a result stays as it is. -/
theorem stepUpTo_of_result {m : Machine} {result : Result} (hresult : m.result = some result)
    (n : Nat) : (stepUpTo n m).machine = m := by
  cases n with
  | zero => rfl
  | succ n =>
    have hstep := step_of_result hresult
    have hne : (step m).value ≠ .ok none := by
      rw [hstep]
      exact fun h => nomatch h
    rw [stepUpTo, advance_succ_of_ne hne, hstep]
    rfl

/-- A run is made of steps, after an entry in the log. -/
theorem run_eq_some_iff {m : Machine} {fuel : Nat} {reply : Reply Result} :
    m.run fuel = some reply ↔
      (stepUpTo fuel m).following [.log (.started m.code.size)] = reply.map some := by
  have hsteps : advance fuel #[.log (.started m.code.size)] m =
      (stepUpTo fuel m).following [.log (.started m.code.size)] :=
    advance_eq_following _ _ _
  unfold run
  rw [hsteps]
  generalize (stepUpTo fuel m).following [.log (.started m.code.size)] = inner
  obtain ⟨machine, events, value⟩ := inner
  obtain ⟨machine', events', value'⟩ := reply
  rcases value with interrupt | _ | result
  · cases value' with
    | error interrupt' => simp [Reply.map, Except.map]
    | ok result' => simp [Reply.map, Except.map]
  · cases value' with
    | error interrupt' => simp [Reply.map, Except.map]
    | ok result' => simp [Reply.map, Except.map]
  · cases value' with
    | error interrupt' => simp [Reply.map, Except.map]
    | ok result' => simp [Reply.map, Except.map]

/-- The reply to a request tells the same as a reply to steps, and leaves the machine where that
one does, apart from the hooks. -/
structure Echoes (inner : Reply (Option Result)) (outer : Reply Answer) : Prop where
  /-- The program is the same. -/
  code : outer.machine.code = inner.machine.code
  /-- The state is the same. -/
  state : outer.machine.state = inner.machine.state
  /-- As many instructions are counted. -/
  steps : outer.machine.steps = inner.machine.steps
  /-- The result that is kept is the same. -/
  result : outer.machine.result = inner.machine.result
  /-- The events are the same. -/
  events : outer.events = inner.events
  /-- The one is interrupted as the other is. -/
  interrupted : ∀ interrupt, outer.value = .error interrupt ↔ inner.value = .error interrupt
  /-- The listener is the same after an interrupt. -/
  listener : ∀ interrupt, inner.value = .error interrupt →
    outer.machine.listener = inner.machine.listener
  /-- A result that is given was given for the steps. -/
  answered : ∀ result, outer.value = .ok (.result (some result)) → inner.value = .ok (some result)

/-- A reply to steps is echoed by itself. -/
theorem echoes_map (inner : Reply (Option Result)) : Echoes inner (inner.map .result) where
  code := rfl
  state := rfl
  steps := rfl
  result := rfl
  events := rfl
  interrupted interrupt := Reply.map_value_eq_error_iff
  listener _ _ := rfl
  answered result := by
    unfold Reply.map
    cases inner.value with
    | error cause => simp [Except.map]
    | ok found => simp [Except.map]

/-- An answer that takes no step and is no result. -/
theorem echoes_of_no_step {m after : Machine} {answer : Answer} (hcode : after.code = m.code)
    (hstate : after.state = m.state) (hsteps : after.steps = m.steps)
    (hresult : after.result = m.result) (hanswer : ∀ result, answer ≠ .result (some result)) :
    Echoes ((stepUpTo 0 m).following [])
      { machine := after, events := [], value := .ok answer } where
  code := hcode
  state := hstate
  steps := hsteps
  result := hresult
  events := rfl
  interrupted interrupt := by
    constructor
    · exact fun h => nomatch h
    · exact fun h => nomatch h
  listener _ h := nomatch h
  answered result h := absurd (Except.ok.inj h) (hanswer result)

/-- Every request is served by a number of steps, after what it writes to the log and under the
eyes of its observer. -/
theorem Request.serve_echoes {m : Machine} (hstate : m.state.WellFormed) {request : Request}
    {reply : Reply Answer} (h : request.serve m = some reply) :
    ∃ n, Echoes ((stepUpTo n { m with observer := request.watcher m }).following
      (request.announced m)) reply := by
  cases request with
  | step =>
    obtain rfl := Option.some.inj h
    refine ⟨1, ?_⟩
    rw [stepUpTo_one]
    exact echoes_map (Machine.step m)
  | steps n =>
    obtain rfl := Option.some.inj h
    exact ⟨n, echoes_map (Machine.stepUpTo n m)⟩
  | run fuel =>
    obtain ⟨answered, hrun, rfl⟩ := Option.map_eq_some_iff.mp h
    refine ⟨fuel, ?_⟩
    have hinner := run_eq_some_iff.mp hrun
    rw [← Reply.map_map answered some, ← hinner]
    exact echoes_map _
  | observe fuel observer =>
    obtain ⟨answered, hobserve, rfl⟩ := Option.map_eq_some_iff.mp h
    obtain ⟨observed, hrun, rfl⟩ := Option.map_eq_some_iff.mp hobserve
    refine ⟨fuel, ?_⟩
    have hinner := run_eq_some_iff.mp hrun
    have hechoes : Echoes ((stepUpTo fuel { m with observer := some observer }).following
        [.log (.started m.code.size)]) (observed.map fun result => .result (some result)) := by
      rw [← Reply.map_map observed some, ← hinner]
      exact echoes_map _
    -- The observer is dismissed, and nothing else changes.
    exact ⟨hechoes.code, hechoes.state, hechoes.steps, hechoes.result, hechoes.events,
      hechoes.interrupted, hechoes.listener, hechoes.answered⟩
  | listen listener =>
    obtain rfl := Option.some.inj h
    exact ⟨0, echoes_of_no_step rfl rfl rfl rfl fun _ hanswer => nomatch hanswer⟩
  | state =>
    obtain rfl := Option.some.inj h
    rw [Call.snapshot_eq hstate]
    exact ⟨0, echoes_of_no_step rfl rfl rfl rfl fun _ hanswer => nomatch hanswer⟩

end Machine

end WordMachine
