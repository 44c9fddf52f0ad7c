import WordMachine.Operation
import WordMachine.Word

/-!
# Failures of execution

Two things can go wrong on a machine. A *fault* belongs to the run: an
instruction cannot be carried out, and the run ends there. A *range error* is
the refusal of a number that had to be a word and is not. Both are kept as
causes, and `message` gives their wording.
-/

namespace WordMachine

/-- The places whose numbers must be words. -/
inductive Quantity where
  | pc
  | register
  | stackValue
  | address
  | memoryValue
  deriving DecidableEq, Repr

/-- The name of a quantity in messages. -/
def Quantity.text : Quantity → String
  | pc => "pc"
  | register => "register"
  | stackValue => "stack value"
  | address => "address"
  | memoryValue => "memory value"

/-- A number that had to be a word and is not. -/
structure RangeError where
  /-- Where the number was to go. -/
  quantity : Quantity
  /-- The number. -/
  value : Int
  deriving DecidableEq, Repr

/-- The wording of a range error. -/
def RangeError.message (error : RangeError) : String :=
  error.quantity.text ++ " " ++ toString error.value ++ " is outside the 64-bit unsigned range"

/-- The reasons why an instruction cannot be carried out. -/
inductive FaultKind where
  | insufficientArguments
  | stackFull
  | stackEmpty
  | arithmeticOverflow
  | illegalInstruction
  deriving DecidableEq, Repr

namespace FaultKind

/-- All kinds of fault. -/
def all : List FaultKind :=
  [insufficientArguments, stackFull, stackEmpty, arithmeticOverflow, illegalInstruction]

/-- The label of a kind in reports. -/
def label : FaultKind → String
  | insufficientArguments => "INSUFFICIENT_ARGUMENTS"
  | stackFull => "STACK_FULL"
  | stackEmpty => "STACK_EMPTY"
  | arithmeticOverflow => "ARITHMETIC_OVERFLOW"
  | illegalInstruction => "ILLEGAL_INSTRUCTION"

/-- The wording of a kind. -/
def text : FaultKind → String
  | insufficientArguments => "not enough values on the stack"
  | stackFull => "stack is full"
  | stackEmpty => "stack is empty"
  | arithmeticOverflow => "arithmetic overflow"
  | illegalInstruction => "instruction cannot be executed"

end FaultKind

/-- Why an instruction could not be carried out, and the code of the instruction once
it is known (`ExecutionError`). -/
structure Fault where
  /-- The reason. -/
  kind : FaultKind
  /-- The code of the instruction. -/
  code : Option Int := none
  deriving DecidableEq, Repr

namespace Fault

/-- The wording of a fault, led by the instruction's name once its code is known. -/
def message (fault : Fault) : String :=
  match fault.code with
  | none => fault.kind.text
  | some code => Opcode.nameOfCode code ++ ": " ++ fault.kind.text

/-- Records the code of the instruction (`withOpcode`); a code that is already there stays. -/
def withCode (fault : Fault) (code : Int) : Fault :=
  { fault with code := some (fault.code.getD code) }

end Fault

/-- A fault of the run or a number outside the word range. -/
inductive Failure where
  | fault (cause : Fault)
  | range (error : RangeError)
  deriving DecidableEq, Repr

namespace Failure

/-- The wording of a failure. -/
def message : Failure → String
  | fault cause => cause.message
  | range error => error.message

/-- Records the code of the instruction in a fault. -/
def withCode : Failure → Int → Failure
  | fault cause, code => .fault (cause.withCode code)
  | range error, _ => .range error

end Failure

/-- Refuses a number that is not a word (`assertWord`). -/
def checkWord (quantity : Quantity) (value : Int) : Except Failure Unit :=
  if IsWord value then .ok () else .error (.range ⟨quantity, value⟩)

/-- A word passes the check. -/
theorem checkWord_of_isWord {value : Int} (hvalue : IsWord value) (quantity : Quantity) :
    checkWord quantity value = .ok () :=
  if_pos hvalue

/-- Any other number is refused. -/
theorem checkWord_of_not_isWord {value : Int} (hvalue : ¬ IsWord value) (quantity : Quantity) :
    checkWord quantity value = .error (.range ⟨quantity, value⟩) :=
  if_neg hvalue

/-- Only words pass the check. -/
@[simp] theorem checkWord_eq_ok_iff {quantity : Quantity} {value : Int} {u : Unit} :
    checkWord quantity value = .ok u ↔ IsWord value := by
  unfold checkWord
  split <;> simp_all

/-- An operation on something that it may change. What it has changed before a failure stays
changed. -/
abbrev Action (σ α : Type) : Type :=
  EStateM Failure σ α

namespace Action

variable {σ α β : Type} {action : Action σ α} {before after : σ}

/-- What an operation leaves behind where a failure gives it up. -/
def exec (action : Action σ α) (before : σ) : Except Failure σ :=
  match action before with
  | .ok _ after => .ok after
  | .error failure _ => .error failure

/-- What an operation leaves behind, whether it fails or not. -/
def left (action : Action σ α) (before : σ) : σ :=
  match action before with
  | .ok _ after => after
  | .error _ after => after

/-- An operation that succeeds is followed by the next one. -/
theorem bind_of_ok {a : α} (h : action before = .ok a after) (next : α → Action σ β) :
    (action >>= next) before = next a after := by
  simp only [Bind.bind, EStateM.bind, h]

/-- An operation that fails is not followed by another one. -/
theorem bind_of_error {failure : Failure} (h : action before = .error failure after)
    (next : α → Action σ β) : (action >>= next) before = .error failure after := by
  simp only [Bind.bind, EStateM.bind, h]

/-- Looking at what is there does not change it. -/
theorem get_bind (next : σ → Action σ β) : (get >>= next) before = next before before := rfl

/-- A check that is passed has no effect. -/
theorem ofExcept_of_ok {outcome : Except Failure α} {a : α} (h : outcome = .ok a) :
    (ofExcept outcome : Action σ α) before = .ok a before := by
  subst h
  rfl

/-- A check that is not passed has no effect but the failure. -/
theorem ofExcept_of_error {outcome : Except Failure α} {failure : Failure}
    (h : outcome = .error failure) :
    (ofExcept outcome : Action σ α) before = .error failure before := by
  subst h
  rfl

end Action

/-- Two steps succeed exactly if the first does and then the second. -/
theorem bind_eq_ok_iff {α β : Type} {first : Except Failure α} {next : α → Except Failure β}
    {b : β} : (first >>= next) = .ok b ↔ ∃ a, first = .ok a ∧ next a = .ok b := by
  cases first <;> simp [bind, Except.bind]

/-- Returning succeeds with the value that is returned. -/
theorem return_eq_ok_iff {α : Type} {a b : α} :
    (pure a : Except Failure α) = .ok b ↔ b = a := by
  simp [pure, Except.pure, eq_comm]

/-- Throwing never succeeds. -/
theorem throw_ne_ok {α : Type} {failure : Failure} {a : α} :
    (throw failure : Except Failure α) ≠ .ok a := by
  simp [throw, throwThe, MonadExceptOf.throw]

/-- A list passes the check of its members exactly if all of them do. -/
theorem forM_eq_ok_iff {α : Type} {check : α → Except Failure Unit} {items : List α} {u : Unit} :
    items.forM check = .ok u ↔ ∀ item ∈ items, check item = .ok () := by
  induction items with
  | nil => simp [pure, Except.pure]
  | cons item items ih =>
    have hunit : (∃ u, check item = .ok u) ↔ check item = .ok () :=
      ⟨fun ⟨(), h⟩ => h, fun h => ⟨(), h⟩⟩
    change (check item >>= fun _ => items.forM check) = .ok u ↔ _
    simp only [bind_eq_ok_iff, exists_and_right, hunit, ih, List.mem_cons, forall_eq_or_imp]

end WordMachine
