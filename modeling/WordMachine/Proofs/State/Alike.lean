import WordMachine.Proofs.Execution.WordRange
import WordMachine.Proofs.Rendering

/-!
# States that differ in the order of their cells

States that agree and have equal capacities can still differ in one thing: the order in
which the cells of their memories were written. Nothing that is done with a state shows it.
Copying and executing an instruction end in the same failure on both, or in states that
again differ in no more than this order.
-/

namespace WordMachine

/-- Two attempts that end alike: in the same failure, or in answers that are related. -/
inductive EndAlike {ε α : Type} (related : α → α → Prop) : Except ε α → Except ε α → Prop
  /-- Both fail in the same way. -/
  | error (failure : ε) : EndAlike related (.error failure) (.error failure)
  /-- Both have an answer. -/
  | ok {a b : α} (h : related a b) : EndAlike related (.ok a) (.ok b)

namespace EndAlike

variable {ε ε' α β : Type} {related : α → α → Prop}

/-- An attempt fails as the other one does. -/
theorem eq_error {failure : ε} {attempt : Except ε α}
    (h : EndAlike related (.error failure) attempt) : attempt = .error failure := by
  cases h
  rfl

/-- Failures may be reworded. -/
theorem mapError {first second : Except ε α} (h : EndAlike related first second) (f : ε → ε') :
    EndAlike related (first.mapError f) (second.mapError f) := by
  cases h with
  | error failure => exact .error (f failure)
  | ok h => exact .ok h

/-- Answers may be reshaped if they stay related. -/
theorem map {related' : β → β → Prop} {first second : Except ε α}
    (h : EndAlike related first second) {f : α → β} (hf : ∀ {a b}, related a b → related' (f a) (f b)) :
    EndAlike related' (first.map f) (second.map f) := by
  cases h with
  | error failure => exact .error failure
  | ok h => exact .ok (hf h)

end EndAlike

namespace State

/-- States that are equal up to the order of the cells in their memories, which hold words. -/
structure Alike (s t : State) : Prop where
  /-- The program counters are equal. -/
  pc_eq : s.pc = t.pc
  /-- The registers are equal. -/
  register_eq : s.register = t.register
  /-- The stacks are equal, and so are their capacities. -/
  stack_eq : s.stack = t.stack
  /-- The memories have the same cells in some order. -/
  cells_perm : s.memory.cells.Perm t.memory.cells
  /-- The addresses and values in memory are words. -/
  memory_words : s.memory.WellFormed

namespace Alike

variable {s t : State}

/-- States that are alike agree. -/
theorem agrees (h : s.Alike t) : s.agrees t = true := by
  simp only [State.agrees, Stack.agrees, Bool.and_eq_true, beq_iff_eq, Memory.agrees_iff_perm]
  exact ⟨⟨⟨h.pc_eq, h.register_eq⟩, congrArg Stack.values h.stack_eq⟩, h.cells_perm⟩

/-- The cells of both are words. -/
theorem wellFormed_memory (h : s.Alike t) : t.memory.WellFormed :=
  fun cell hcell => h.memory_words cell (h.cells_perm.mem_iff.mpr hcell)

/-- If one of them is well formed, so is the other. -/
theorem wellFormed (h : s.Alike t) (hstate : s.WellFormed) : t.WellFormed := by
  obtain ⟨hpc, hregister, hstack, _⟩ := hstate
  exact ⟨h.pc_eq ▸ hpc, h.register_eq ▸ hregister, h.stack_eq ▸ hstack, h.wellFormed_memory⟩

/-- Copies of both are alike, and both are refused for the same number. -/
theorem copy (h : s.Alike t) : EndAlike Alike s.copy t.copy := by
  have hcopy : s.memory.copy = .ok s.memory := Memory.copy_eq_ok_iff.mpr ⟨h.memory_words, rfl⟩
  have hcopy' : t.memory.copy = .ok t.memory := Memory.copy_eq_ok_iff.mpr ⟨h.wellFormed_memory, rfl⟩
  simp only [State.copy, hcopy, hcopy', ← h.pc_eq, ← h.register_eq, ← h.stack_eq]
  cases checkWord .pc s.pc with
  | error failure => exact .error failure
  | ok =>
    cases checkWord .register s.register with
    | error failure => exact .error failure
    | ok =>
      cases s.stack.copy with
      | error failure => exact .error failure
      | ok stack => exact .ok ⟨rfl, rfl, rfl, h.cells_perm, h.memory_words⟩

/-- Whatever its memory holds, a state is copied like itself. -/
theorem copy_self (s : State) : EndAlike Alike s.copy s.copy := by
  cases hcopy : s.copy with
  | error failure => exact .error failure
  | ok copied =>
    obtain ⟨⟨_, _, _, hmemory⟩, rfl⟩ := copy_eq_ok_iff.mp hcopy
    exact .ok ⟨rfl, rfl, rfl, .refl _, hmemory⟩

/-- An instruction leads from both to the same fault or to states that are alike. -/
theorem transition (h : s.Alike t) (hstate : s.WellFormed) (inst : Instruction) :
    EndAlike Alike (inst.transition s s.stack.values) (inst.transition t t.stack.values) := by
  have hmem (value : Int) (hvalue : value ∈ s.stack.values) : IsWord value :=
    hstate.isWord_of_mem hvalue
  obtain ⟨pc, register, stack, memory⟩ := s
  obtain ⟨_, _, _, other⟩ := t
  obtain ⟨rfl, rfl, rfl, hperm, hwords⟩ := h
  -- From here on the states differ in nothing but their memories.
  dsimp only at hmem hperm hwords ⊢
  generalize stack.values = values at hmem ⊢
  cases inst with
  | plain op =>
    cases op with
    | nop | halt => exact .ok ⟨rfl, rfl, rfl, hperm, hwords⟩
    | load =>
      rcases values with _ | ⟨address, rest⟩
      · exact .error _
      · refine .ok ⟨rfl, rfl, ?_, hperm, hwords⟩
        simp only [next, withValues, Memory.read_eq_of_perm hperm]
    | store =>
      rcases values with _ | ⟨address, _ | ⟨value, rest⟩⟩
      · exact .error _
      · exact .error _
      · exact .ok ⟨rfl, rfl, rfl, Memory.put_perm hperm address value,
          hwords.put (hmem address (by simp)) (hmem value (by simp))⟩
    | push =>
      simp only [Instruction.transition]
      split
      · exact .ok ⟨rfl, rfl, rfl, hperm, hwords⟩
      · exact .error _
    | pop | jump | not =>
      rcases values with _ | ⟨top, rest⟩
      · exact .error _
      · exact .ok ⟨rfl, rfl, rfl, hperm, hwords⟩
    | binary op =>
      rcases values with _ | ⟨a, _ | ⟨b, rest⟩⟩
      · exact .error _
      · exact .error _
      · simp only [Instruction.transition]
        cases op.apply? a b with
        | none => exact .error _
        | some value => exact .ok ⟨rfl, rfl, rfl, hperm, hwords⟩
    | reserved op => exact .error _
  | set literal => exact .ok ⟨rfl, rfl, rfl, hperm, hwords⟩
  | unknown code => exact .error _

/-- Executing an instruction ends alike on both, whatever the instruction. -/
theorem execute (h : s.Alike t) (inst : Instruction) :
    EndAlike Alike (WordMachine.execute s inst) (WordMachine.execute t inst) := by
  by_cases hstate : s.WellFormed
  · rw [execute_eq_transition hstate, execute_eq_transition (h.wellFormed hstate)]
    exact (h.transition hstate inst).mapError _
  · -- The copy that is made first fails, unless there are too few values even for that.
    have hcopy := h.copy
    cases hfailed : s.copy with
    | ok copied => exact absurd (copy_eq_ok_iff.mp hfailed).1 hstate
    | error failure =>
      rw [hfailed] at hcopy
      have hfailed' := hcopy.eq_error
      simp only [WordMachine.execute, hfailed, hfailed', ← h.stack_eq]
      split
      · exact .error _
      · exact .error _

end Alike

end State

end WordMachine
