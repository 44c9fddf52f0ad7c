import WordMachine.Proofs.Execution.Effect
import WordMachine.Proofs.Machine.Trace
import WordMachine.Proofs.Machine.WordRange

/-!
# The memory as a history of stores

Nothing but a store changes the memory, and it changes one cell. What a cell holds after some
instructions is therefore told by the stores among them: the value of the last one at its
address, or what the cell held at the start if there was none. This is also what a load finds.
The addresses that are written are those of the start and those of the stores. Whatever is
asked of a machine with whatever hooks, it stands at the end of a path of instructions that it
has executed one after another.
-/

namespace WordMachine

namespace Instruction

variable {inst : Instruction} {state after : State}

/-- The cell that an instruction stores, if it is a store: the address is on top of the stack, and
the value is below it. -/
def stored? (inst : Instruction) (state : State) : Option (Int × Int) :=
  match inst, state.stack.values with
  | plain .store, address :: value :: _ => some (address, value)
  | _, _ => none

/-- Only a store stores a cell. -/
theorem eq_store_of_stored? {cell : Int × Int} (h : inst.stored? state = some cell) :
    inst = .plain .store := by
  unfold stored? at h
  split at h
  · rfl
  · cases h

/-- The cell that is stored is the one that is written by the values taken. -/
theorem stored?_eq_written {top rest : List Int} (hvalues : state.stack.values = top ++ rest)
    (hlength : top.length = inst.taken) : inst.stored? state = inst.written top.reverse := by
  by_cases hstore : inst = .plain .store
  · subst hstore
    obtain ⟨address, value, rfl⟩ := List.length_eq_two.mp hlength
    simp only [stored?, hvalues, List.cons_append]
    rfl
  · have hstored : inst.stored? state = none :=
      Option.eq_none_iff_forall_ne_some.mpr fun _ h => hstore (eq_store_of_stored? h)
    have hwritten : inst.written top.reverse = none := by
      unfold written
      split
      · exact absurd rfl hstore
      · rfl
    rw [hstored, hwritten]

/-- An instruction leaves the memory as it is, or it sets the cell that it stores. -/
theorem memory_of_execute (h : execute state inst = .ok after) :
    after.memory = (inst.stored? state).elim state.memory fun cell =>
      state.memory.put cell.1 cell.2 := by
  have hstate := State.wellFormed_of_execute h
  obtain ⟨top, rest, hvalues, hlength, rfl⟩ :=
    eq_performed_of_transition hstate (hstate.transition_of_execute h)
  rw [stored?_eq_written hvalues hlength]
  rfl

/-- A load replaces the address on top of the stack by what the memory holds there. -/
theorem values_of_execute_load (h : execute state (.plain .load) = .ok after) :
    ∃ address rest, state.stack.values = address :: rest ∧
      after.stack.values = state.memory.read address :: rest := by
  have hload := (State.wellFormed_of_execute h).transition_of_execute h
  cases hvalues : state.stack.values with
  | nil =>
    rw [hvalues] at hload
    cases hload
  | cons address rest =>
    rw [hvalues] at hload
    obtain rfl := Except.ok.inj hload
    exact ⟨address, rest, rfl, rfl⟩

end Instruction

namespace Program

/-- What the first `k` instructions leave at an address, told by the stores among them. -/
inductive Recalls (states : Nat → State) (insts : Nat → Instruction) (k : Nat) (x : Int) :
    Int → Prop
  /-- The value of the last store at the address. -/
  | stored {i : Nat} {value : Int} (hi : i < k)
      (hstore : (insts i).stored? (states i) = some (x, value))
      (hlast : ∀ j, i < j → j < k → ∀ other, (insts j).stored? (states j) ≠ some (x, other)) :
      Recalls states insts k x value
  /-- What was there at the start, if there was no store at the address. -/
  | initial (hnone : ∀ i < k, ∀ other, (insts i).stored? (states i) ≠ some (x, other)) :
      Recalls states insts k x ((states 0).memory.read x)

variable {program : Program} {start : State} {states : Nat → State} {insts : Nat → Instruction}
  {k : Nat} {x : Int}

/-- A store at an address is the last one there when it has just been executed. -/
theorem recalls_of_store {value : Int} (h : (insts k).stored? (states k) = some (x, value)) :
    Recalls states insts (k + 1) x value :=
  .stored (Nat.lt_succ_self k) h fun j hlow hhigh => by omega

/-- An instruction that stores nothing at an address leaves there what was there. -/
theorem Recalls.succ {value : Int} (h : Recalls states insts k x value)
    (hother : ∀ other, (insts k).stored? (states k) ≠ some (x, other)) :
    Recalls states insts (k + 1) x value := by
  cases h with
  | stored hi hstore hlast =>
    refine .stored (by omega) hstore fun j hlow hhigh => ?_
    rcases Nat.lt_succ_iff_lt_or_eq.mp hhigh with hlt | rfl
    · exact hlast j hlow hlt
    · exact hother
  | initial hnone =>
    refine .initial fun i hi => ?_
    rcases Nat.lt_succ_iff_lt_or_eq.mp hi with hlt | rfl
    · exact hnone i hlt
    · exact hother

/-- The stores leave a single value at an address. -/
theorem Recalls.unique {first second : Int} (hfirst : Recalls states insts k x first)
    (hsecond : Recalls states insts k x second) : first = second := by
  cases hfirst with
  | @stored i _ hi hstore hlast =>
    cases hsecond with
    | @stored j _ hj hstore' hlast' =>
      -- Neither of the two stores comes after the other.
      rcases Nat.lt_trichotomy i j with hlt | rfl | hgt
      · exact absurd hstore' (hlast j hlt hj second)
      · rw [hstore] at hstore'
        exact (Prod.mk.inj (Option.some.inj hstore')).2
      · exact absurd hstore (hlast' i hgt hi first)
    | initial hnone => exact absurd hstore (hnone i hi first)
  | initial hnone =>
    cases hsecond with
    | stored hj hstore' _ => exact absurd hstore' (hnone _ hj second)
    | initial => rfl

namespace Path

/-- The beginning of a path is a path. -/
theorem of_le (h : program.Path start k states insts) {j : Nat} (hle : j ≤ k) :
    program.Path start j states insts where
  first := h.first
  fetched i hi := h.fetched i (by omega)
  executed i hi := h.executed i (by omega)

/-- A path goes on with the instruction at the program counter. -/
theorem extend (h : program.Path start k states insts) {inst : Instruction} {after : State}
    (hnonneg : 0 ≤ (states k).pc) (hinst : program[(states k).pc.toNat]? = some inst)
    (hexecute : execute (states k) inst = .ok after) :
    program.Path start (k + 1) (Function.update states (k + 1) after)
      (Function.update insts k inst) := by
  have hstates {i : Nat} (hi : i ≤ k) : Function.update states (k + 1) after i = states i :=
    Function.update_of_ne (by omega) _ _
  have hinsts {i : Nat} (hi : i < k) : Function.update insts k inst i = insts i :=
    Function.update_of_ne (by omega) _ _
  refine ⟨(hstates (Nat.zero_le k)).trans h.first, fun i hi => ?_, fun i hi => ?_⟩
  · rw [hstates (by omega)]
    rcases Nat.lt_succ_iff_lt_or_eq.mp hi with hlt | rfl
    · rw [hinsts hlt]
      exact h.fetched i hlt
    · rw [Function.update_self]
      exact ⟨hnonneg, hinst⟩
  · rw [hstates (by omega)]
    rcases Nat.lt_succ_iff_lt_or_eq.mp hi with hlt | rfl
    · rw [hinsts hlt, hstates hlt]
      exact h.executed i hlt
    · rw [Function.update_self, Function.update_self]
      exact hexecute

/-- What a cell holds is what the stores leave there. -/
theorem recalls_read (h : program.Path start k states insts) (x : Int) :
    Recalls states insts k x ((states k).memory.read x) := by
  induction k with
  | zero => exact .initial fun i hi => absurd hi i.not_lt_zero
  | succ k ih =>
    have hbefore := ih (h.of_le k.le_succ)
    rw [Instruction.memory_of_execute (h.executed k k.lt_succ_self)]
    cases hstored : (insts k).stored? (states k) with
    | none => exact hbefore.succ fun other => by simp [hstored]
    | some cell =>
      rw [Option.elim_some, Memory.read, Memory.cell?_put]
      by_cases hx : x = cell.1
      · rw [if_pos hx]
        exact recalls_of_store (by rw [hstored, hx]; rfl)
      · rw [if_neg hx]
        refine hbefore.succ fun other hother => hx ?_
        rw [hstored] at hother
        rw [Option.some.inj hother]

/-- A cell holds exactly the value that the stores leave there. -/
theorem read_eq_iff (h : program.Path start k states insts) (x value : Int) :
    (states k).memory.read x = value ↔ Recalls states insts k x value := by
  constructor
  · rintro rfl
    exact h.recalls_read x
  · exact (h.recalls_read x).unique

/-- The written addresses are those that were written at the start and those of the stores. -/
theorem mem_addresses_iff (h : program.Path start k states insts) (x : Int) :
    x ∈ (states k).memory.addresses ↔ x ∈ start.memory.addresses ∨
      ∃ i < k, ∃ value, (insts i).stored? (states i) = some (x, value) := by
  induction k with
  | zero => simp [h.first]
  | succ k ih =>
    -- The stores are those before the last instruction, and that instruction if it is one.
    have hsplit : (∃ i < k + 1, ∃ value, (insts i).stored? (states i) = some (x, value)) ↔
        (∃ i < k, ∃ value, (insts i).stored? (states i) = some (x, value)) ∨
          ∃ value, (insts k).stored? (states k) = some (x, value) := by
      simp only [Nat.lt_succ_iff_lt_or_eq, or_and_right, exists_or, exists_eq_left]
    rw [hsplit, ← or_assoc, ← ih (h.of_le k.le_succ),
      Instruction.memory_of_execute (h.executed k k.lt_succ_self)]
    cases (insts k).stored? (states k) with
    | none => simp
    | some cell =>
      rw [Option.elim_some, Memory.mem_addresses_put]
      refine or_congr_right ⟨?_, ?_⟩
      · rintro rfl
        exact ⟨cell.2, rfl⟩
      · rintro ⟨value, hcell⟩
        rw [Option.some.inj hcell]

/-- One instruction adds a cell at most, and none unless it is a store. -/
theorem size_succ (h : program.Path start k states insts) {i : Nat} (hi : i < k) :
    (states i).memory.size ≤ (states (i + 1)).memory.size ∧
      (states (i + 1)).memory.size ≤
        (states i).memory.size + if insts i = .plain .store then 1 else 0 := by
  rw [Instruction.memory_of_execute (h.executed i hi)]
  cases hstored : (insts i).stored? (states i) with
  | none =>
    rw [Option.elim_none]
    omega
  | some cell =>
    rw [Option.elim_some, Memory.size_put, if_pos (Instruction.eq_store_of_stored? hstored)]
    split
    · omega
    · omega

/-- Cells are never given up. -/
theorem size_mono (h : program.Path start k states insts) {i : Nat} (hi : i ≤ k) :
    (states i).memory.size ≤ (states k).memory.size := by
  induction k with
  | zero =>
    obtain rfl : i = 0 := by omega
    exact Nat.le_refl _
  | succ k ih =>
    rcases Nat.lt_or_eq_of_le hi with hlt | rfl
    · have hbefore := ih (h.of_le k.le_succ) (by omega)
      have hlast := (h.size_succ k.lt_succ_self).1
      omega
    · exact Nat.le_refl _

/-- There are no more cells than there were, and one for each store. -/
theorem size_le (h : program.Path start k states insts) :
    (states k).memory.size ≤
      start.memory.size + (List.range k).countP fun i => insts i = .plain .store := by
  induction k with
  | zero => simp [h.first]
  | succ k ih =>
    have hbefore := ih (h.of_le k.le_succ)
    have hlast := (h.size_succ k.lt_succ_self).2
    rw [List.range_succ, List.countP_append, List.countP_singleton]
    simp only [decide_eq_true_eq]
    omega

/-- What was written stays written. -/
theorem addresses_subset (h : program.Path start k states insts) {i : Nat} (hi : i ≤ k) :
    (states i).memory.addresses ⊆ (states k).memory.addresses := by
  intro x hx
  rw [(h.of_le hi).mem_addresses_iff] at hx
  rw [h.mem_addresses_iff]
  refine hx.imp_right fun ⟨j, hj, hstore⟩ => ⟨j, ?_, hstore⟩
  omega

/-- A load finds what the stores before it have left at its address. -/
theorem values_of_load (h : program.Path start k states insts) {i : Nat} (hi : i < k)
    (hload : insts i = .plain .load) :
    ∃ x value rest, (states i).stack.values = x :: rest ∧ Recalls states insts i x value ∧
      (states (i + 1)).stack.values = value :: rest := by
  have hexecute := h.executed i hi
  rw [hload] at hexecute
  obtain ⟨x, rest, hbefore, hafter⟩ := Instruction.values_of_execute_load hexecute
  exact ⟨x, _, rest, hbefore, (h.of_le (Nat.le_of_lt hi)).recalls_read x, hafter⟩

end Path

end Program

/-- One more instruction leaves a sound run where it is, or it is counted and leads on from the
instruction at the program counter. -/
theorem Progress.Sound.next_cases {program : Program} {capacity : Int} {progress : Progress}
    (hprogram : program.Admissible) (hsound : progress.Sound capacity) :
    ((progress.next program).steps = progress.steps ∧
      (progress.next program).state = progress.state) ∨
    ∃ inst, program[progress.state.pc.toNat]? = some inst ∧
      execute progress.state inst = .ok (progress.next program).state ∧
      (progress.next program).steps = progress.steps + 1 := by
  cases progress with
  | running steps state =>
    rcases next_running hprogram steps hsound.1 with
      ⟨_, hnext⟩ | ⟨_, _, _, _, hnext⟩ | ⟨inst, after, hinst, hexecute, _, _, hnext⟩
    · rw [hnext]
      exact .inl ⟨rfl, rfl⟩
    · rw [hnext]
      exact .inl ⟨rfl, rfl⟩
    · rw [hnext]
      refine .inr ⟨inst, hinst, ?_⟩
      split
      · exact ⟨hexecute, rfl⟩
      · exact ⟨hexecute, rfl⟩
  | ended result => exact .inl ⟨rfl, rfl⟩
  | stuck steps state error => exact hsound.elim

namespace Machine

variable {program : Program} {start : State}

/-- However a step comes out, the machine stands where the run was or where one more instruction
takes it. -/
theorem StepOutcome.reached_cases {quiet tidy : Prop} {before next reached : Progress}
    {value : Except Interrupt (Option Result)}
    (h : StepOutcome quiet tidy before next reached value) :
    (reached.steps = before.steps ∧ reached.state = before.state) ∨
      (reached.steps = next.steps ∧ reached.state = next.state) := by
  cases h with
  | answered => exact .inr ⟨rfl, rfl⟩
  | endHookFailed => exact .inr ⟨rfl, rfl⟩
  | errorHookFailed => exact .inl ⟨rfl, rfl⟩
  | reportFailed => exact .inr ⟨rfl, rfl⟩
  | reportUnfit => exact .inr ⟨rfl, rfl⟩

/-- A sound machine at the end of a path of as many instructions as it has counted. -/
structure Walked (program : Program) (start : State) (m : Machine) : Prop where
  /-- The machine is sound. -/
  sound : m.Sound program start.stack.capacity
  /-- A path leads to its state. -/
  path : ∃ states insts, program.Path start m.steps states insts ∧ states m.steps = m.state

/-- A step leaves a machine at the end of its path, or the path goes on by one instruction. -/
theorem Walked.step (hprogram : program.Admissible) {m : Machine} (hm : m.Walked program start) :
    (Machine.step m).machine.Walked program start := by
  have hafter := ((sound_invariant hprogram start.stack.capacity).step hm.sound).1
  refine ⟨hafter, ?_⟩
  obtain ⟨rfl, before, hat, hsound⟩ := hm.sound
  obtain ⟨states, insts, hpath, hlast⟩ := hm.path
  obtain ⟨reached, hreached, houtcome⟩ := step_outcome hprogram hat hsound
  rw [hreached.steps, hreached.state]
  rw [hat.steps] at hpath
  rw [hat.steps, hat.state] at hlast
  rcases houtcome.reached_cases with ⟨hsteps, hstate⟩ | ⟨hsteps, hstate⟩
  · rw [hsteps, hstate]
    exact ⟨states, insts, hpath, hlast⟩
  · rw [hsteps, hstate]
    rcases hsound.next_cases hprogram with ⟨hcount, hsame⟩ | ⟨inst, hinst, hexecute, hcount⟩
    · rw [hcount, hsame]
      exact ⟨states, insts, hpath, hlast⟩
    · have hnonneg : 0 ≤ before.state.pc := hsound.state.1.1.1
      rw [← hlast] at hinst hexecute hnonneg
      rw [hcount]
      exact ⟨_, _, hpath.extend hnonneg hinst hexecute, Function.update_self ..⟩

/-- Whatever is asked of a machine with whatever hooks, it stands at the end of a path. -/
theorem walked_invariant (hprogram : program.Admissible) :
    Invariant (fun _ => True) (Walked program start) fun _ => True where
  step hm := ⟨hm.step hprogram, trivial⟩
  observer hallowed hm :=
    ⟨(sound_invariant hprogram start.stack.capacity).observer hallowed hm.sound, hm.path⟩
  listen hallowed hm :=
    ⟨(sound_invariant hprogram start.stack.capacity).listen hallowed hm.sound, hm.path⟩
  state _ := trivial
  running := trivial
  done := trivial

/-- A new machine stands at the beginning of all paths. -/
theorem walked_of_new (program : Program) (hstart : start.WellFormed) :
    Walked program start { code := program.toArray, state := start } where
  sound := sound_of_new program hstart
  path := by
    refine ⟨fun _ => start, fun _ => .plain .nop, ⟨rfl, fun i hi => ?_, fun i hi => ?_⟩, rfl⟩
    · exact absurd hi i.not_lt_zero
    · exact absurd hi i.not_lt_zero

/-- The memory is the history of the stores. Whatever is asked of a machine, its state is reached
along a path of as many instructions as it counts. After such a path a cell holds the value of the
last store at its address, or what it held at the start if there was none. The written addresses
are those of the start and of the stores, none is given up, and there is one more for each store at
most. Every load has found what the stores before it left at its address. -/
theorem memory_tells_stores (hprogram : program.Admissible) (hstart : start.WellFormed) :
    ∃ fresh, load program start = .ok fresh ∧
      (∀ requests after replies, fresh.serveAll requests = some (after, replies) →
        ∃ states insts, program.Path start after.steps states insts ∧
          states after.steps = after.state) ∧
      ∀ k states insts, program.Path start k states insts →
        (∀ x value, (states k).memory.read x = value ↔
          Program.Recalls states insts k x value) ∧
        (∀ x, x ∈ (states k).memory.addresses ↔ x ∈ start.memory.addresses ∨
          ∃ i < k, ∃ value, (insts i).stored? (states i) = some (x, value)) ∧
        (∀ i ≤ k, (states i).memory.addresses ⊆ (states k).memory.addresses ∧
          (states i).memory.size ≤ (states k).memory.size) ∧
        (states k).memory.size ≤
          start.memory.size + (List.range k).countP (fun i => insts i = .plain .store) ∧
        ∀ i < k, insts i = .plain .load →
          ∃ x value rest, (states i).stack.values = x :: rest ∧
            Program.Recalls states insts i x value ∧
            (states (i + 1)).stack.values = value :: rest := by
  refine ⟨_, load_of_wellFormed program hstart, fun requests after replies hserved => ?_,
    fun k states insts hpath => ?_⟩
  · obtain ⟨hafter, _⟩ := (walked_invariant hprogram).serveAll (walked_of_new program hstart)
      (fun request _ => request.all_of_forall fun _ => trivial) hserved
    exact hafter.path
  · exact ⟨hpath.read_eq_iff, hpath.mem_addresses_iff,
      fun i hi => ⟨hpath.addresses_subset hi, hpath.size_mono hi⟩, hpath.size_le,
      fun i hi hload => hpath.values_of_load hi hload⟩

set_option maxRecDepth 4000 in
/-- Two stores at the same address leave the second value there, which is zero and still counts, and
a load finds it. The cell that no store has touched keeps what it held. -/
theorem memory_tells_stores_of_zero :
    Program.Admissible [.plain .store, .plain .store, .plain .load] ∧
      State.WellFormed
        { stack := { values := [9, 5, 9, 0, 9] }, memory := Memory.empty.put 2 3 } ∧
      ∃ fresh, load [.plain .store, .plain .store, .plain .load]
          { stack := { values := [9, 5, 9, 0, 9] }, memory := Memory.empty.put 2 3 } = .ok fresh ∧
        ∃ after replies, fresh.serveAll [.steps 3] = some (after, replies) ∧
          after.steps = 3 ∧ after.state.stack.values = [0] ∧
          ∃ states insts, states 3 = after.state ∧ Program.Recalls states insts 3 9 0 ∧
            Program.Recalls states insts 3 2 3 ∧
            ∃ i < 3, ∃ value, (insts i).stored? (states i) = some (9, value) := by
  have hprogram : Program.Admissible [.plain .store, .plain .store, .plain .load] :=
    ⟨by decide, by decide⟩
  have hstart : State.WellFormed
      { stack := { values := [9, 5, 9, 0, 9] }, memory := Memory.empty.put 2 3 } := by
    decide
  obtain ⟨fresh, hload, hpaths, htold⟩ := memory_tells_stores hprogram hstart
  obtain rfl := Except.ok.inj ((load_of_wellFormed _ hstart).symm.trans hload)
  have hserved : ∃ replies, serveAll
      { code := [.plain .store, .plain .store, .plain .load].toArray
        state := { stack := { values := [9, 5, 9, 0, 9] }, memory := Memory.empty.put 2 3 } }
      [.steps 3] = some
        ({ code := [.plain .store, .plain .store, .plain .load].toArray
           state := { pc := 3, stack := { values := [0] }
                      memory := ((Memory.empty.put 2 3).put 9 5).put 9 0 }
           steps := 3 }, replies) :=
    ⟨_, rfl⟩
  obtain ⟨replies, hreplies⟩ := hserved
  obtain ⟨states, insts, hpath, hlast⟩ := hpaths _ _ _ hreplies
  obtain ⟨hread, haddresses, _⟩ := htold 3 states insts hpath
  have hmemory : (states 3).memory = ((Memory.empty.put 2 3).put 9 5).put 9 0 :=
    congrArg State.memory hlast
  rw [hmemory] at hread haddresses
  have hwritten : 9 ∈ (((Memory.empty.put 2 3).put 9 5).put 9 0).addresses :=
    Memory.mem_addresses_iff.mpr ⟨0, rfl⟩
  have hnew : 9 ∉ (Memory.empty.put 2 3).addresses := by
    have hnone : (Memory.empty.put 2 3).cell? 9 = none := rfl
    simp [Memory.mem_addresses_iff, hnone]
  exact ⟨hprogram, hstart, _, hload, _, replies, hreplies, rfl, rfl, states, insts, hlast,
    (hread 9 0).mp rfl, (hread 2 3).mp rfl, ((haddresses 9).mp hwritten).resolve_left hnew⟩

end Machine

end WordMachine
