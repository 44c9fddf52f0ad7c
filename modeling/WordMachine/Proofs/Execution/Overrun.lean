import WordMachine.Proofs.Execution.Effect
import WordMachine.Proofs.State.Access

/-!
# The one way out of the word range

An instruction whose literal is a word leaves words everywhere, with one exception: from the
largest word the program counter moves on to the number behind it. There it stays. Whatever is
done with the state, short of setting the program counter, it can neither be copied nor carry
out an instruction that finds its values on the stack.
-/

namespace WordMachine

/-- The number behind a word is a word again, unless the word is the largest. -/
theorem IsWord.isWord_succ_iff {a : Int} (ha : IsWord a) : IsWord (a + 1) ↔ a ≠ 2 ^ 64 - 1 := by
  simp only [IsWord, Word.max] at ha ⊢
  omega

namespace Instruction

variable {inst : Instruction}

/-- All but a halt and a jump move on. -/
theorem target_of_ne (hhalt : inst ≠ .plain .halt) (hjump : inst ≠ .plain .jump) (pc : Int)
    (args : List Int) : inst.target pc args = pc + 1 := by
  unfold target
  split
  · exact absurd rfl hjump
  · exact absurd rfl hhalt
  · rfl

/-- Where an instruction leaves the program counter: a halt where it was, a jump at a word, and any
other one number on. -/
theorem pc_of_execute {state after : State} (h : execute state inst = .ok after) :
    (inst = .plain .halt ∧ after.pc = state.pc) ∨ (inst = .plain .jump ∧ IsWord after.pc) ∨
      (inst ≠ .plain .halt ∧ inst ≠ .plain .jump ∧ after.pc = state.pc + 1) := by
  have hstate := State.wellFormed_of_execute h
  obtain ⟨top, rest, hvalues, hlength, rfl⟩ :=
    eq_performed_of_transition hstate (hstate.transition_of_execute h)
  by_cases hhalt : inst = .plain .halt
  · subst hhalt
    exact .inl ⟨rfl, rfl⟩
  · by_cases hjump : inst = .plain .jump
    · subst hjump
      -- The target is the only value that is taken.
      obtain ⟨target, rfl⟩ := List.length_eq_one_iff.mp hlength
      have htarget : target ∈ state.stack.values := by simp [hvalues]
      exact .inr (.inl ⟨rfl, hstate.isWord_of_mem htarget⟩)
    · exact .inr (.inr ⟨hhalt, hjump, target_of_ne hhalt hjump state.pc top.reverse⟩)

/-- The program counter leaves the word range exactly if an instruction moves on from the largest
word. -/
theorem not_isWord_pc_iff {state after : State} (h : execute state inst = .ok after) :
    ¬ IsWord after.pc ↔
      state.pc = 2 ^ 64 - 1 ∧ inst ≠ .plain .halt ∧ inst ≠ .plain .jump := by
  have hword : IsWord state.pc := (State.wellFormed_of_execute h).1
  rcases pc_of_execute h with ⟨rfl, hpc⟩ | ⟨rfl, hpc⟩ | ⟨hhalt, hjump, hpc⟩
  · simp [hpc, hword]
  · simp [hpc]
  · rw [hpc, hword.isWord_succ_iff, not_not]
    exact ⟨fun hlargest => ⟨hlargest, hhalt, hjump⟩, And.left⟩

end Instruction

namespace State

variable {state : State}

/-- A program counter that is no word stays where it is, unless it is set. -/
theorem pc_accessed (hpc : ¬ IsWord state.pc) {access : Access}
    (haccess : ∀ value, access ≠ .setPc value) : (state.accessed access).pc = state.pc := by
  rcases state.accessed_cases access with hsame | hleads
  · rw [hsame]
  · cases access with
    | setPc value => exact absurd rfl (haccess value)
    | setRegister value | peek | read address =>
      rw [hleads]
    | push value =>
      rw [hleads.2.2]
      rfl
    | pop =>
      obtain ⟨top, rest, _, hafter⟩ := hleads
      rw [hafter]
      rfl
    | write address value => rw [hleads.2.2]
    | copy => exact absurd hleads.1.1 hpc
    | execute code literal => exact absurd (wellFormed_of_execute hleads).1 hpc

/-- A program counter that is no word stays where it is under any number of accesses that do not
set it. -/
theorem pc_accessedAll (hpc : ¬ IsWord state.pc) {accesses : List Access}
    (haccesses : ∀ access ∈ accesses, ∀ value, access ≠ .setPc value) :
    (state.accessedAll accesses).pc = state.pc := by
  unfold accessedAll
  induction accesses generalizing state with
  | nil => rfl
  | cons access accesses ih =>
    have hkept : (state.accessed access).pc = state.pc :=
      pc_accessed hpc (haccesses access (by simp))
    have hothers : ∀ other ∈ accesses, ∀ value, other ≠ .setPc value := fun other hother =>
      haccesses other (by simp [hother])
    rw [List.foldl_cons, ih (by rwa [hkept]) hothers, hkept]

/-- A guarded state whose program counter is no word can neither be copied nor carry out an
instruction that finds its values. -/
theorem Guarded.refuses {capacity : Int} (hstate : state.Guarded capacity)
    (hpc : ¬ IsWord state.pc) :
    state.copy = .error (.range ⟨.pc, state.pc⟩) ∧
      ∀ inst : Instruction, inst.arity ≤ state.stack.depth →
        WordMachine.execute state inst = .error (.range ⟨.pc, state.pc⟩) := by
  have herror : state.rangeError? = some ⟨.pc, state.pc⟩ := if_pos hpc
  refine ⟨?_, fun inst harity => hstate.execute_eq_range_iff.mpr ⟨harity, herror⟩⟩
  rw [hstate.copy_eq, herror]
  rfl

end State

/-- How far an instruction whose literal is a word leaves the word range. The register, the stack
with its depth and the memory stay within their bounds. The program counter leaves the range exactly
if it was the largest word and the instruction is neither a halt nor a jump. It is then the number
behind the largest word, and unless it is set, any later copy and any later instruction that finds
its values fails with a range error about it. -/
theorem overruns_at_largest_word {state after : State} {inst : Instruction} (hinst : inst.InRange)
    (h : execute state inst = .ok after) :
    (IsWord after.register ∧ (∀ value ∈ after.stack.toList, IsWord value) ∧
      (∀ cell ∈ after.memory.entries, IsWord cell.1 ∧ IsWord cell.2) ∧
      (after.stack.depth : Int) ≤ after.stack.capacity) ∧
    (¬ IsWord after.pc ↔
      state.pc = 2 ^ 64 - 1 ∧ inst ≠ .plain .halt ∧ inst ≠ .plain .jump) ∧
    (¬ IsWord after.pc → after.pc = 2 ^ 64 ∧
      ∀ accesses : List State.Access, (∀ access ∈ accesses, ∀ value, access ≠ .setPc value) →
        let later := after.accessedAll accesses
        later.copy = .error (.range ⟨.pc, 2 ^ 64⟩) ∧
        ∀ other : Instruction, other.arity ≤ later.stack.depth →
          execute later other = .error (.range ⟨.pc, 2 ^ 64⟩)) := by
  have hstate := State.wellFormed_of_execute h
  obtain ⟨_, ⟨hregister, hstack, hmemory⟩, _⟩ :=
    Instruction.words_of_transition hstate (hstate.transition_of_execute h)
  refine ⟨⟨hregister hinst, fun value hvalue => ?_, fun cell hcell => ?_, hstack.2⟩,
    Instruction.not_isWord_pc_iff h, fun hpc => ?_⟩
  · exact hstack.1 value (List.mem_reverse.mp hvalue)
  · exact hmemory cell (after.memory.entries_perm.mem_iff.mp hcell)
  · have hbehind : after.pc = 2 ^ 64 := by
      obtain ⟨hlargest, hhalt, hjump⟩ := (Instruction.not_isWord_pc_iff h).mp hpc
      rcases Instruction.pc_of_execute h with ⟨rfl, _⟩ | ⟨rfl, _⟩ | ⟨_, _, hmoved⟩
      · exact absurd rfl hhalt
      · exact absurd rfl hjump
      · omega
    refine ⟨hbehind, fun accesses haccesses => ?_⟩
    have hkept := State.pc_accessedAll hpc haccesses
    have hguarded : after.Guarded after.stack.capacity := ⟨hstack, hmemory, rfl⟩
    have hrefuses := (hguarded.accessedAll accesses).refuses (by rwa [hkept])
    rwa [hkept, hbehind] at hrefuses

/-- A literal leads out of the range from the largest word, where a halt and a jump do not. A push
and a new register make no difference to what comes later: the copy fails on the program counter,
and so does a sum that finds two values. -/
theorem overruns_at_largest_word_of_literal :
    let state : State := { pc := 2 ^ 64 - 1, stack := { values := [7] } }
    let after : State := { pc := 2 ^ 64, register := 5, stack := { values := [7] } }
    let later := after.accessedAll [.push 2, .setRegister (-1), .execute 4 0]
    Instruction.InRange (.set 5) ∧ execute state (.set 5) = .ok after ∧ ¬ IsWord after.pc ∧
      later.copy = .error (.range ⟨.pc, 2 ^ 64⟩) ∧
      execute later (.plain (.binary .add)) = .error (.range ⟨.pc, 2 ^ 64⟩) ∧
      (∃ halted, execute state (.plain .halt) = .ok halted ∧ IsWord halted.pc) ∧
      ∃ jumped, execute state (.plain .jump) = .ok jumped ∧ IsWord jumped.pc := by
  intro state after later
  have hafter : execute state (.set 5) = .ok after := by rfl
  have hhalted : execute state (.plain .halt) = .ok state := by rfl
  have hjumped : execute state (.plain .jump) = .ok { pc := 7 } := by rfl
  obtain ⟨_, hexactly, hlater⟩ := overruns_at_largest_word (by decide) hafter
  have hpc : ¬ IsWord after.pc := hexactly.mpr ⟨rfl, by decide, by decide⟩
  obtain ⟨hcopy, hexecute⟩ :=
    (hlater hpc).2 [.push 2, .setRegister (-1), .execute 4 0] (by simp)
  refine ⟨by decide, hafter, hpc, hcopy, hexecute _ (by decide), ⟨_, hhalted, ?_⟩, _, hjumped, ?_⟩
  · by_contra hout
    have hplain : Instruction.InRange (.plain .halt) := trivial
    exact ((overruns_at_largest_word hplain hhalted).2.1.mp hout).2.1 rfl
  · by_contra hout
    have hplain : Instruction.InRange (.plain .jump) := trivial
    exact ((overruns_at_largest_word hplain hjumped).2.1.mp hout).2.2 rfl

end WordMachine
