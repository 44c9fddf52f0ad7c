import WordMachine.Failure

/-!
# The stack

A stack of words with a capacity. The values are held with the top first, so
that pushing and popping work at the head of the list; `ofList` and `toList`
take and give them from bottom to top. A stack made here holds words only and is
never deeper than its capacity, which may be any integer.
-/

namespace WordMachine

/-- The capacity of a stack for which none is given. -/
def Stack.defaultCapacity : Int := 65535

/-- A stack with a capacity. -/
structure Stack where
  /-- The values, the top first. -/
  values : List Int := []
  /-- The greatest depth allowed. -/
  capacity : Int := Stack.defaultCapacity
  deriving DecidableEq, Repr

namespace Stack

/-- The values from bottom to top (`toArray`). -/
def toList (stack : Stack) : List Int :=
  stack.values.reverse

/-- The number of values. -/
def depth (stack : Stack) : Nat :=
  stack.values.length

/-- Whether there is no value to pop. -/
def isEmpty (stack : Stack) : Bool :=
  stack.values.isEmpty

/-- Whether there is no room for another value. -/
def isFull (stack : Stack) : Bool :=
  stack.capacity ≤ stack.depth

/-- Makes a stack from its values, bottom to top (the constructor of `Stack`). The length is
compared with the capacity before the values are checked in order. -/
def ofList (values : List Int) (capacity : Int := defaultCapacity) : Except Failure Stack :=
  if capacity < values.length then throw (.fault { kind := .stackFull })
  else do
    values.forM (checkWord .stackValue)
    return { values := values.reverse, capacity }

/-- Adds a value on top and gives the depth back (`push`). A number that is no word is refused even
by a full stack. -/
def push (value : Int) : Action Stack Nat := do
  ofExcept (checkWord .stackValue value)
  if (← get).isFull then throw (.fault { kind := .stackFull })
  modify fun stack => { stack with values := value :: stack.values }
  return (← get).depth

/-- Takes the top value and gives it back (`pop`). -/
def pop : Action Stack Int := do
  match (← get).values with
  | [] => throw (.fault { kind := .stackEmpty })
  | top :: rest =>
    modify fun stack => { stack with values := rest }
    return top

/-- The top value, if there is one (`peek`). -/
def peek? (stack : Stack) : Option Int :=
  stack.values.head?

/-- What is asked of a stack. -/
inductive Request where
  /-- To add a value on top. -/
  | push (value : Int)
  /-- To take the top value. -/
  | pop
  deriving DecidableEq, Repr

/-- What comes of a request. -/
inductive Event where
  /-- The value was added, and the depth is given back. -/
  | pushed (value : Int) (depth : Nat)
  /-- The top value was taken and is given back. -/
  | popped (value : Int)
  /-- The request failed. -/
  | refused (failure : Failure)
  deriving DecidableEq, Repr

/-- Carries out a request. The stack afterwards is what `push` or `pop` has left, also if it has
failed. -/
def serve (stack : Stack) : Request → Event × Stack
  | .push value =>
    match push value stack with
    | .ok depth after => (.pushed value depth, after)
    | .error failure after => (.refused failure, after)
  | .pop =>
    match pop stack with
    | .ok top after => (.popped top, after)
    | .error failure after => (.refused failure, after)

/-- The same stack, after the depth and then the values from bottom to top have been checked
again (`clone`). -/
def copy (stack : Stack) : Except Failure Stack :=
  if stack.capacity < stack.depth then throw (.fault { kind := .stackFull })
  else do
    stack.toList.forM (checkWord .stackValue)
    return stack

/-- Whether two stacks hold the same values (`equals`); their capacities may differ. -/
def agrees (a b : Stack) : Bool :=
  a.values == b.values

/-- A stack of words that is no deeper than its capacity. -/
def WellFormed (stack : Stack) : Prop :=
  (∀ value ∈ stack.values, IsWord value) ∧ (stack.depth : Int) ≤ stack.capacity

instance (stack : Stack) : Decidable stack.WellFormed :=
  inferInstanceAs (Decidable ((∀ value ∈ stack.values, IsWord value) ∧ _))

/-- A word is pushed where there is room for it. -/
theorem push_of_room {stack : Stack} {value : Int} (hvalue : IsWord value)
    (hroom : (stack.depth : Int) < stack.capacity) :
    push value stack =
      .ok (stack.depth + 1) { stack with values := value :: stack.values } := by
  have hfull : stack.isFull = false := by simpa [isFull] using hroom
  rw [push, Action.bind_of_ok (Action.ofExcept_of_ok (checkWord_of_isWord hvalue _)),
    Action.get_bind, hfull]
  rfl

/-- A word is refused where there is no room for it, and the stack stays as it is. -/
theorem push_of_full {stack : Stack} {value : Int} (hvalue : IsWord value)
    (hfull : stack.capacity ≤ stack.depth) :
    push value stack = .error (.fault { kind := .stackFull }) stack := by
  have hisFull : stack.isFull = true := decide_eq_true hfull
  rw [push, Action.bind_of_ok (Action.ofExcept_of_ok (checkWord_of_isWord hvalue _)),
    Action.get_bind, hisFull]
  rfl

/-- A number that is no word is refused, and the stack stays as it is. -/
theorem push_of_not_isWord {stack : Stack} {value : Int} (hvalue : ¬ IsWord value) :
    push value stack = .error (.range ⟨.stackValue, value⟩) stack :=
  Action.bind_of_error (Action.ofExcept_of_error (checkWord_of_not_isWord hvalue _)) _

/-- The top value is popped. -/
theorem pop_of_cons {stack : Stack} {top : Int} {rest : List Int}
    (hvalues : stack.values = top :: rest) : pop stack = .ok top { stack with values := rest } := by
  obtain ⟨values, capacity⟩ := stack
  subst hvalues
  rfl

/-- There is nothing to pop, and the stack stays as it is. -/
theorem pop_of_nil {stack : Stack} (hvalues : stack.values = []) :
    pop stack = .error (.fault { kind := .stackEmpty }) stack := by
  obtain ⟨values, capacity⟩ := stack
  subst hvalues
  rfl

/-- A stack can be made from values, bottom to top, exactly if it is well formed. -/
theorem ofList_eq_ok_iff {values : List Int} {capacity : Int} {stack : Stack} :
    ofList values capacity = .ok stack ↔
      stack.WellFormed ∧ stack = { values := values.reverse, capacity } := by
  unfold ofList
  split
  · rename_i hlong
    refine ⟨fun h => (throw_ne_ok h).elim, ?_⟩
    rintro ⟨⟨_, hdepth⟩, rfl⟩
    simp only [depth, List.length_reverse] at hdepth
    omega
  · rename_i hshort
    simp only [bind_eq_ok_iff, forM_eq_ok_iff, checkWord_eq_ok_iff, exists_const,
      return_eq_ok_iff]
    refine and_congr_left ?_
    rintro rfl
    simp only [WellFormed, depth, List.mem_reverse, List.length_reverse]
    exact ⟨fun hwords => ⟨hwords, by omega⟩, And.left⟩

/-- A copy is made from the values like any other stack. -/
theorem copy_eq_ofList (stack : Stack) : stack.copy = ofList stack.toList stack.capacity := by
  simp [copy, ofList, toList, depth]

/-- A stack can be copied exactly if it is well formed, and the copy is the stack itself. -/
theorem copy_eq_ok_iff {stack after : Stack} :
    stack.copy = .ok after ↔ stack.WellFormed ∧ after = stack := by
  rw [copy_eq_ofList, ofList_eq_ok_iff, toList, List.reverse_reverse]
  refine and_congr_left ?_
  rintro rfl
  exact Iff.rfl

end Stack

end WordMachine
