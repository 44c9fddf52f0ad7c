import WordMachine.Proofs.Execution.WordRange

/-!
# Which instructions are faults

Four things can find fault with an instruction: the table of arities, the stack, the
arithmetic and the choice of an operation. On a well-formed state they never get in each
other's way. Each kind of fault has a condition of its own on the opcode, the depth of the
stack and its two topmost values, no two of these conditions hold at once, and an instruction
is carried out if none of them does.
-/

namespace WordMachine

/-- Two words for which a binary operation has no result; `a` is on top and `b` below it. -/
def BinaryOp.Overflows : BinaryOp → Int → Int → Prop
  | add, a, b => Word.modulus ≤ a + b
  | sub, a, b => a < b
  | mul, a, b => Word.modulus ≤ a * b
  | div, _, b => b = 0
  | mod, _, b => b = 0
  | cmp, _, _ => False
  | and, _, _ => False
  | or, _, _ => False
  | xor, _, _ => False

instance : (op : BinaryOp) → (a b : Int) → Decidable (op.Overflows a b)
  | .add, a, b => inferInstanceAs (Decidable (Word.modulus ≤ a + b))
  | .sub, a, b => inferInstanceAs (Decidable (a < b))
  | .mul, a, b => inferInstanceAs (Decidable (Word.modulus ≤ a * b))
  | .div, _, b => inferInstanceAs (Decidable (b = 0))
  | .mod, _, b => inferInstanceAs (Decidable (b = 0))
  | .cmp, _, _ => isFalse id
  | .and, _, _ => isFalse id
  | .or, _, _ => isFalse id
  | .xor, _, _ => isFalse id

/-- An operation has no result exactly for numbers that overflow it. -/
theorem BinaryOp.apply?_eq_none_iff {op : BinaryOp} {a b : Int} :
    op.apply? a b = none ↔ op.Overflows a b := by
  have hmax (value : Int) : Word.max < value ↔ Word.modulus ≤ value := by
    simp only [Word.max, Word.modulus]
    omega
  cases op with
  | add => simp [Overflows, BinaryOp.apply?, Word.add?, hmax]
  | sub => simp [Overflows, BinaryOp.apply?, Word.sub?]
  | mul => simp [Overflows, BinaryOp.apply?, Word.mul?, hmax]
  | div => simp [Overflows, BinaryOp.apply?, Word.div?]
  | mod => simp [Overflows, BinaryOp.apply?, Word.mod?]
  | cmp | and | or | xor => simp [Overflows, BinaryOp.apply?]

/-- The code of an opcode is at most 20. -/
theorem Opcode.code_le (opcode : Opcode) : opcode.code ≤ 20 := by
  rcases opcode with _ | ⟨_ | _ | _ | _ | _ | _ | _ | _ | ⟨_ | _⟩ | ⟨_ | _⟩⟩ <;> decide

/-- The codes of the opcodes are the numbers from 0 to 20. -/
theorem Opcode.ofCode?_eq_none_iff {code : Int} :
    ofCode? code = none ↔ code < 0 ∨ 20 < code := by
  constructor
  · intro hnone
    by_contra hwithin
    obtain ⟨n, rfl⟩ := Int.eq_ofNat_of_zero_le (show 0 ≤ code by omega)
    have hall : ∀ n < 21, ofCode? (n : Nat) ≠ none := by decide
    exact hall n (by omega) hnone
  · intro hbeyond
    refine List.find?_eq_none.mpr fun opcode _ => ?_
    have hle := opcode.code_le
    simp only [decide_eq_true_eq]
    omega

namespace Instruction

/-- The instruction with a code has the opcode of that code. -/
theorem opcode?_ofCode (code literal : Int) :
    (ofCode code literal).opcode? = Opcode.ofCode? code := by
  unfold ofCode
  split
  all_goals
    rename_i h
    exact h.symm

/-- The instruction with a code has that code. -/
theorem code_ofCode (code literal : Int) : (ofCode code literal).code = code := by
  have hcode {opcode : Opcode} (h : Opcode.ofCode? code = some opcode) :
      (opcode.code : Int) = code := by
    simpa using List.find?_some h
  unfold ofCode
  split
  · rename_i h
    exact hcode h
  · rename_i h
    exact hcode h
  · rfl

/-- The condition under which an instruction is a fault of a kind. -/
def Faults (inst : Instruction) (state : State) : FaultKind → Prop
  | .insufficientArguments =>
    ∃ opcode, inst.opcode? = some opcode ∧ state.stack.depth < opcode.arity
  | .stackFull =>
    inst.opcode? = some (.plain .push) ∧ (state.stack.depth : Int) = state.stack.capacity
  | .stackEmpty => inst.opcode? = some (.plain .pop) ∧ state.stack.depth = 0
  | .arithmeticOverflow =>
    ∃ op a b rest, inst.opcode? = some (.plain (.binary op)) ∧
      state.stack.values = a :: b :: rest ∧ op.Overflows a b
  | .illegalInstruction =>
    inst.opcode? = none ∨ ∃ op, inst.opcode? = some (.plain (.reserved op))

variable {inst : Instruction} {state : State} {kind : FaultKind}

/-- An operation that stands alone is the only instruction with its opcode. -/
theorem opcode?_eq_plain_iff {op : Operation} :
    inst.opcode? = some (.plain op) ↔ inst = .plain op := by
  cases inst with
  | plain other => simp [opcode?]
  | set literal => simp [opcode?]
  | unknown code => simp [opcode?]

/-- With an opcode an instruction asks for as many values as the opcode does. -/
theorem arity_of_opcode? {opcode : Opcode} (h : inst.opcode? = some opcode) :
    inst.arity = opcode.arity := by
  rw [arity, h, Option.map_some, Option.getD_some]

/-- A fault in the table of transitions has met its condition. -/
theorem faults_of_transition (hstate : state.WellFormed)
    (h : inst.transition state state.stack.values = .error kind) : inst.Faults state kind := by
  have hdepth : (state.stack.values.length : Int) ≤ state.stack.capacity := hstate.2.2.1.2
  -- What is there when an operation lacks values.
  have hshort {op : Operation} {values : List Int} (hvalues : state.stack.values = values)
      (hlt : values.length < op.arity) :
      (plain op).Faults state .insufficientArguments :=
    ⟨.plain op, rfl, by rw [Stack.depth, hvalues]; exact hlt⟩
  generalize hvalues : state.stack.values = values at h hdepth
  cases inst with
  | plain op =>
    cases op with
    | nop | halt => cases h
    | load | jump | not =>
      rcases values with _ | ⟨top, rest⟩
      · obtain rfl := Except.error.inj h
        exact hshort hvalues Nat.zero_lt_one
      · cases h
    | store =>
      rcases values with _ | ⟨address, _ | ⟨value, rest⟩⟩
      · obtain rfl := Except.error.inj h
        exact hshort hvalues Nat.zero_lt_two
      · obtain rfl := Except.error.inj h
        exact hshort hvalues Nat.one_lt_two
      · cases h
    | push =>
      simp only [transition] at h
      split at h
      · cases h
      · rename_i hfull
        obtain rfl := Except.error.inj h
        refine ⟨rfl, ?_⟩
        rw [Stack.depth, hvalues]
        omega
    | pop =>
      rcases values with _ | ⟨top, rest⟩
      · obtain rfl := Except.error.inj h
        exact ⟨rfl, List.length_eq_zero_iff.mpr hvalues⟩
      · cases h
    | binary op =>
      rcases values with _ | ⟨a, _ | ⟨b, rest⟩⟩
      · obtain rfl := Except.error.inj h
        exact hshort hvalues Nat.zero_lt_two
      · obtain rfl := Except.error.inj h
        exact hshort hvalues Nat.one_lt_two
      · simp only [transition] at h
        cases happly : op.apply? a b with
        | none =>
          rw [happly] at h
          obtain rfl := Except.error.inj h
          exact ⟨op, a, b, rest, rfl, hvalues, BinaryOp.apply?_eq_none_iff.mp happly⟩
        | some value =>
          rw [happly] at h
          cases h
    | reserved op =>
      obtain rfl := Except.error.inj h
      exact .inr ⟨op, rfl⟩
  | set literal => cases h
  | unknown code =>
    obtain rfl := Except.error.inj h
    exact .inl rfl

/-- Where the condition of a fault is met, there is that fault in the table of transitions. -/
theorem Faults.transition_eq (h : inst.Faults state kind) :
    inst.transition state state.stack.values = .error kind := by
  cases kind with
  | insufficientArguments =>
    obtain ⟨opcode, hopcode, hshort⟩ := h
    rw [← arity_of_opcode? hopcode] at hshort
    exact transition_of_lt_arity hshort
  | stackFull =>
    obtain ⟨hopcode, hfull⟩ := h
    obtain rfl := opcode?_eq_plain_iff.mp hopcode
    rw [Stack.depth] at hfull
    exact if_neg (by omega)
  | stackEmpty =>
    obtain ⟨hopcode, hempty⟩ := h
    obtain rfl := opcode?_eq_plain_iff.mp hopcode
    rw [List.length_eq_zero_iff.mp hempty]
    rfl
  | arithmeticOverflow =>
    obtain ⟨op, a, b, rest, hopcode, hvalues, hoverflows⟩ := h
    obtain rfl := opcode?_eq_plain_iff.mp hopcode
    rw [hvalues, transition, BinaryOp.apply?_eq_none_iff.mpr hoverflows]
  | illegalInstruction =>
    rcases h with hnone | ⟨op, hopcode⟩
    · cases inst with
      | plain op => cases hnone
      | set literal => cases hnone
      | unknown code => rfl
    · obtain rfl := opcode?_eq_plain_iff.mp hopcode
      rfl

end Instruction

/-- On a well-formed state an instruction comes out in another state or in a fault with its code,
and in no range error. The kind of the fault is the one whose condition is met. -/
theorem State.WellFormed.execute_cases {state : State} (hstate : state.WellFormed)
    (inst : Instruction) :
    (∃ after, WordMachine.execute state inst = .ok after ∧ ∀ kind, ¬ inst.Faults state kind) ∨
    (∃ kind, WordMachine.execute state inst = .error (.fault { kind, code := some inst.code }) ∧
      ∀ other, inst.Faults state other ↔ other = kind) := by
  rw [execute_eq_transition hstate]
  cases htransition : inst.transition state state.stack.values with
  | ok after =>
    refine .inl ⟨after, rfl, fun kind hfaults => ?_⟩
    rw [hfaults.transition_eq] at htransition
    cases htransition
  | error kind =>
    refine .inr ⟨kind, rfl, fun other => ⟨fun hother => ?_, ?_⟩⟩
    · rw [hother.transition_eq] at htransition
      exact Except.error.inj htransition
    · rintro rfl
      exact Instruction.faults_of_transition hstate htransition

/-- How an instruction with any code comes out on a well-formed state. No number is ever found
outside the word range. There is a fault of a kind exactly if the condition of this kind is met:
too few values for an opcode, a full stack for a push, an empty one for a pop, an overflow of the
two topmost values, or an operation that is reserved or has no opcode. Without any of them there is
another state. A fault names the code, and the codes of the opcodes are the numbers up to 20. -/
theorem execute_classified {state : State} (hstate : state.WellFormed) (code literal : Int) :
    let inst := Instruction.ofCode code literal
    (∀ error, execute state inst ≠ .error (.range error)) ∧
    (∀ kind, (∃ fault, execute state inst = .error (.fault fault) ∧ fault.kind = kind) ↔
      inst.Faults state kind) ∧
    ((∃ after, execute state inst = .ok after) ↔ ∀ kind, ¬ inst.Faults state kind) ∧
    (∀ fault, execute state inst = .error (.fault fault) → fault.code = some code) ∧
    inst.opcode? = Opcode.ofCode? code ∧ (inst.opcode? = none ↔ code < 0 ∨ 20 < code) := by
  intro inst
  have hopcode : inst.opcode? = Opcode.ofCode? code := Instruction.opcode?_ofCode code literal
  have hcode : inst.code = code := Instruction.code_ofCode code literal
  refine ⟨hstate.execute_ne_range inst, ?_, ?_, ?_, hopcode, ?_⟩
  · intro kind
    rcases hstate.execute_cases inst with ⟨after, hexecute, hnone⟩ | ⟨found, hexecute, hfound⟩
    · simp [hexecute, hnone]
    · simp [hexecute, hfound, eq_comm]
  · rcases hstate.execute_cases inst with ⟨after, hexecute, hnone⟩ | ⟨found, hexecute, hfound⟩
    · simp [hexecute, hnone]
    · simp [hexecute, hfound]
  · intro fault hfault
    rcases hstate.execute_cases inst with ⟨after, hexecute, _⟩ | ⟨found, hexecute, _⟩
    · cases hexecute.symm.trans hfault
    · obtain rfl := Failure.fault.inj (Except.error.inj (hexecute.symm.trans hfault))
      exact congrArg some hcode
  · rw [hopcode]
    exact Opcode.ofCode?_eq_none_iff

/-- On a full stack a sum of its two values overflows and a push finds no room, while the difference
takes the place of both values. A code that is no opcode is illegal even so. -/
theorem execute_classified_of_full :
    State.WellFormed { stack := { values := [Word.max, 1], capacity := 2 } } ∧
      let state : State := { stack := { values := [Word.max, 1], capacity := 2 } }
      (∃ fault, execute state (.ofCode 11 0) = .error (.fault fault) ∧
        fault.kind = .arithmeticOverflow) ∧
      (∃ fault, execute state (.ofCode 4 0) = .error (.fault fault) ∧ fault.kind = .stackFull) ∧
      (∃ after, execute state (.ofCode 12 0) = .ok after) ∧
      ∃ fault, execute state (.ofCode 21 0) = .error (.fault fault) ∧
        fault.kind = .illegalInstruction := by
  have hstate : State.WellFormed { stack := { values := [Word.max, 1], capacity := 2 } } := by
    decide
  refine ⟨hstate, ?_, ?_, ?_, ?_⟩
  · exact ((execute_classified hstate 11 0).2.1 .arithmeticOverflow).mpr
      ⟨.add, Word.max, 1, [], by decide, rfl, by decide⟩
  · exact ((execute_classified hstate 4 0).2.1 .stackFull).mpr ⟨by decide, by decide⟩
  · refine (execute_classified hstate 12 0).2.2.1.mpr fun kind hfaults => ?_
    cases hfaults.transition_eq
  · exact ((execute_classified hstate 21 0).2.1 .illegalInstruction).mpr (.inl (by decide))

end WordMachine
