import WordMachine.Proofs.Word.Range
import WordMachine.Stack

/-!
# The low-water mark of a stack

Requests to push and to pop come in any order, and some of them fail. What lies below the lowest
depth that is reached is out of their reach. A value that is popped is therefore the one that was
pushed when the depth last rose to where it is, or an initial value if the depth was never lower.
In terms of what came of the requests alone, this is the last value that was pushed and has not
been popped.
-/

namespace WordMachine.Stack

variable {stack next : Stack} {request : Request} {requests : List Request} {event : Event}

/-- What a request can do: everything that can come of it, and the stack afterwards. -/
inductive Serves (stack : Stack) : Request → Event → Stack → Prop
  /-- A word is pushed where there is room for it. -/
  | pushed {value : Int} (hword : IsWord value) (hroom : (stack.depth : Int) < stack.capacity) :
      Serves stack (.push value) (.pushed value (stack.depth + 1))
        { stack with values := value :: stack.values }
  /-- A number that is no word is refused, with or without room for it. -/
  | notWord {value : Int} (hword : ¬ IsWord value) :
      Serves stack (.push value) (.refused (.range ⟨.stackValue, value⟩)) stack
  /-- A word is refused where there is no room for it. -/
  | full {value : Int} (hword : IsWord value) (hfull : stack.capacity ≤ stack.depth) :
      Serves stack (.push value) (.refused (.fault { kind := .stackFull })) stack
  /-- The top value is popped. -/
  | popped {top : Int} {rest : List Int} (hvalues : stack.values = top :: rest) :
      Serves stack .pop (.popped top) { stack with values := rest }
  /-- There is nothing to pop. -/
  | empty (hvalues : stack.values = []) :
      Serves stack .pop (.refused (.fault { kind := .stackEmpty })) stack

/-- Every request is served in one of these ways. -/
theorem serves_serve (stack : Stack) (request : Request) :
    Serves stack request (stack.serve request).1 (stack.serve request).2 := by
  cases request with
  | push value =>
    by_cases hword : IsWord value
    · by_cases hroom : (stack.depth : Int) < stack.capacity
      · rw [serve, push_of_room hword hroom]
        exact .pushed hword hroom
      · have hfull := Int.not_lt.mp hroom
        rw [serve, push_of_full hword hfull]
        exact .full hword hfull
    · rw [serve, push_of_not_isWord hword]
      exact .notWord hword
  | pop =>
    cases hvalues : stack.values with
    | nil =>
      rw [serve, pop_of_nil hvalues]
      exact .empty hvalues
    | cons top rest =>
      rw [serve, pop_of_cons hvalues]
      exact .popped hvalues

/-- The conditions of the ways exclude each other. -/
theorem Serves.unique {event' : Event} {next' : Stack} (h : Serves stack request event next)
    (h' : Serves stack request event' next') : event = event' ∧ next = next' := by
  cases h with
  | pushed hword hroom =>
    cases h' with
    | pushed => exact ⟨rfl, rfl⟩
    | notWord hno => exact absurd hword hno
    | full _ hfull => omega
  | notWord hno =>
    cases h' with
    | pushed hword => exact absurd hword hno
    | notWord => exact ⟨rfl, rfl⟩
    | full hword => exact absurd hword hno
  | full hword hfull =>
    cases h' with
    | pushed _ hroom => omega
    | notWord hno => exact absurd hword hno
    | full => exact ⟨rfl, rfl⟩
  | popped hvalues =>
    cases h' with
    | popped hvalues' =>
      obtain ⟨rfl, rfl⟩ := List.cons.inj (hvalues.symm.trans hvalues')
      exact ⟨rfl, rfl⟩
    | empty hnil => cases hvalues.symm.trans hnil
  | empty hnil =>
    cases h' with
    | popped hvalues => cases hvalues.symm.trans hnil
    | empty => exact ⟨rfl, rfl⟩

/-- What comes of a request is told by one of these ways. -/
theorem serve_eq_iff : stack.serve request = (event, next) ↔ Serves stack request event next := by
  have hserve := stack.serves_serve request
  constructor
  · intro h
    rwa [h] at hserve
  · intro h
    obtain ⟨hevent, hnext⟩ := hserve.unique h
    exact Prod.ext hevent hnext

/-- The stack after one request after another. -/
def servedAll (stack : Stack) : List Request → Stack
  | [] => stack
  | request :: requests => (stack.serve request).2.servedAll requests

/-- What came of one request after another. -/
def history (stack : Stack) : List Request → List Event
  | [] => []
  | request :: requests => (stack.serve request).1 :: (stack.serve request).2.history requests

/-- Whether a value was pushed. -/
def Event.isPush : Event → Bool
  | pushed _ _ => true
  | popped _ => false
  | refused _ => false

/-- Whether a value was popped. -/
def Event.isPop : Event → Bool
  | pushed _ _ => false
  | popped _ => true
  | refused _ => false

/-- The number of values that were pushed. -/
def pushes (events : List Event) : Nat :=
  events.countP Event.isPush

/-- The number of values that were popped. -/
def pops (events : List Event) : Nat :=
  events.countP Event.isPop

/-- Events that spare a value pushed before them: at no moment have more values been popped than
pushed, so it has not been popped itself. -/
def Spare (events : List Event) : Prop :=
  ∀ n, pops (events.take n) ≤ pushes (events.take n)

/-- Every value that was pushed has been popped. -/
def AllPopped (events : List Event) : Prop :=
  ∀ before value depth later, events = before ++ .pushed value depth :: later → ¬ Spare later

/-- The last of the values that were pushed and have not been popped. -/
def LastHeld (events : List Event) (value : Int) : Prop :=
  ∃ before depth later, events = before ++ .pushed value depth :: later ∧ Spare later ∧
    AllPopped later

/-- Requests in two parts are served one part after the other. -/
theorem servedAll_append (stack : Stack) (first later : List Request) :
    stack.servedAll (first ++ later) = (stack.servedAll first).servedAll later := by
  induction first generalizing stack with
  | nil => rfl
  | cons request first ih => exact ih _

/-- What came of the first requests is the first part of the history. -/
theorem history_take (stack : Stack) (requests : List Request) (n : Nat) :
    stack.history (requests.take n) = (stack.history requests).take n := by
  induction requests generalizing stack n with
  | nil => simp [history]
  | cons request requests ih =>
    cases n with
    | zero => rfl
    | succ n => rw [List.take_succ_cons, history, history, List.take_succ_cons, ih]

/-- An event in the history belongs to a request, and those before and after it to the requests
before and after. -/
theorem exists_of_history_eq {before after : List Event}
    (h : stack.history requests = before ++ event :: after) :
    ∃ first request later next, requests = first ++ request :: later ∧
      stack.history first = before ∧ Serves (stack.servedAll first) request event next ∧
      next.history later = after := by
  induction before generalizing stack requests with
  | nil =>
    cases requests with
    | nil => cases h
    | cons request requests =>
      obtain ⟨rfl, rfl⟩ := List.cons.inj h
      exact ⟨[], request, requests, _, rfl, rfl, stack.serves_serve request, rfl⟩
  | cons other before ih =>
    cases requests with
    | nil => cases h
    | cons request requests =>
      obtain ⟨rfl, hothers⟩ := List.cons.inj h
      obtain ⟨first, found, later, next, rfl, rfl, hserves, hafter⟩ := ih hothers
      exact ⟨request :: first, found, later, next, rfl, rfl, hserves, hafter⟩

/-- The requests after one of them are served by the stack that it leads to. -/
theorem Serves.servedAll_append_cons {first : List Request}
    (h : Serves (stack.servedAll first) request event next) (later : List Request) :
    stack.servedAll (first ++ request :: later) = next.servedAll later := by
  have hserve : (stack.servedAll first).serve request = (event, next) := serve_eq_iff.mpr h
  rw [servedAll_append, servedAll, hserve]

/-- A push adds its value and gives back the depth that it leads to, one more than before. -/
theorem Serves.of_pushed {value : Int} {depth : Nat}
    (h : Serves stack request (.pushed value depth) next) :
    request = .push value ∧ next.values = value :: stack.values ∧ depth = next.depth ∧
      next.depth = stack.depth + 1 := by
  cases h with
  | pushed => exact ⟨rfl, rfl, rfl, rfl⟩

/-- Nothing but a push raises the depth. -/
theorem Serves.pushed_of_lt (h : Serves stack request event next) (hlt : stack.depth < next.depth) :
    ∃ value, request = .push value ∧ event = .pushed value next.depth ∧
      next.depth = stack.depth + 1 := by
  cases h with
  | pushed => exact ⟨_, rfl, rfl, rfl⟩
  | notWord | full | empty => omega
  | popped hvalues =>
    simp only [depth, hvalues, List.length_cons] at hlt
    omega

/-- A push adds one to the depth, a pop takes one away, and a request that fails does neither. -/
theorem Serves.depth_eq (h : Serves stack request event next) :
    next.depth + pops [event] = stack.depth + pushes [event] := by
  cases h with
  | pushed | notWord | full | empty => rfl
  | popped hvalues =>
    rw [depth, depth, hvalues]
    rfl

/-- The depth is the initial one with the pushes added and the pops taken away. -/
theorem depth_servedAll (stack : Stack) (requests : List Request) :
    (stack.servedAll requests).depth + pops (stack.history requests) =
      stack.depth + pushes (stack.history requests) := by
  induction requests generalizing stack with
  | nil => rfl
  | cons request requests ih =>
    have hstep := (stack.serves_serve request).depth_eq
    have hothers := ih (stack.serve request).2
    simp only [pops, pushes, history, servedAll, List.countP_cons, List.countP_nil]
      at hstep hothers ⊢
    omega

/-- A stack is as deep as the list of its values is long. -/
theorem length_toList (stack : Stack) : stack.toList.length = stack.depth := by
  rw [toList, List.length_reverse, depth]

/-- A request leaves alone what lies below the depths before and after it. -/
theorem Serves.take_toList (h : Serves stack request event next) {low : Nat}
    (hbefore : low ≤ stack.depth) (hafter : low ≤ next.depth) :
    next.toList.take low = stack.toList.take low := by
  have hkept (top : Int) {rest : List Int} (hlow : low ≤ rest.length) :
      (top :: rest).reverse.take low = rest.reverse.take low := by
    rw [List.reverse_cons, List.take_append_of_le_length]
    rwa [List.length_reverse]
  cases h with
  | pushed => exact hkept _ hbefore
  | notWord | full | empty => rfl
  | popped hvalues =>
    rw [toList, toList, hvalues]
    exact (hkept _ hafter).symm

/-- Requests leave alone what lies below the lowest depth that is reached. -/
theorem take_toList_servedAll {low : Nat}
    (hlow : ∀ n, low ≤ (stack.servedAll (requests.take n)).depth) :
    (stack.servedAll requests).toList.take low = stack.toList.take low := by
  induction requests generalizing stack with
  | nil => rfl
  | cons request requests ih =>
    have hothers := ih (fun n => hlow (n + 1))
    have hstep := (stack.serves_serve request).take_toList (hlow 0) (hlow 1)
    exact hothers.trans hstep

/-- As long as the depth is not lower than at the start, what lies on top at the start is spared. -/
theorem spare_history (hlow : ∀ n, stack.depth ≤ (stack.servedAll (requests.take n)).depth) :
    Spare (stack.history requests) := by
  intro n
  have hdepth := stack.depth_servedAll (requests.take n)
  have hn := hlow n
  rw [history_take] at hdepth
  omega

/-- Where the requests end at the lowest depth that they reach, all values that were pushed have
been popped. -/
theorem allPopped_history {low : Nat}
    (hlow : ∀ n, low ≤ (stack.servedAll (requests.take n)).depth)
    (hend : (stack.servedAll requests).depth = low) : AllPopped (stack.history requests) := by
  intro before value depth later hevents hspare
  obtain ⟨first, request, others, next, rfl, -, hserves, rfl⟩ := exists_of_history_eq hevents
  obtain ⟨-, -, -, hraised⟩ := hserves.of_pushed
  have hfirst := hlow first.length
  have hothers := next.depth_servedAll others
  have hwhole := hspare (next.history others).length
  rw [List.take_left] at hfirst
  rw [List.take_length] at hwhole
  rw [hserves.servedAll_append_cons] at hend
  -- The push led above the lowest depth, and no more has been popped than pushed since.
  omega

/-- A depth that is exceeded at the end was exceeded all the time, or a push led above it and it has
been exceeded since. -/
theorem exceeded_or_raised {low : Nat} (hend : low < (stack.servedAll requests).depth) :
    (∀ n, low < (stack.servedAll (requests.take n)).depth) ∨
    ∃ first value later next, requests = first ++ .push value :: later ∧
      Serves (stack.servedAll first) (.push value) (.pushed value (low + 1)) next ∧
      ∀ n, low < (next.servedAll (later.take n)).depth := by
  induction requests generalizing stack with
  | nil => exact .inl fun n => by rwa [List.take_nil]
  | cons request requests ih =>
    rcases ih hend with hall | ⟨first, value, later, next, rfl, hserves, hlater⟩
    · by_cases hlow : low < stack.depth
      · refine .inl fun n => ?_
        cases n with
        | zero => exact hlow
        | succ n => exact hall n
      · -- Nothing but a push leads from the depth to one above it.
        have hnext := hall 0
        have hserves := stack.serves_serve request
        rw [List.take_zero, servedAll] at hnext
        obtain ⟨value, rfl, hevent, hdepth⟩ := hserves.pushed_of_lt (by omega)
        have hstart : stack.depth = low := by omega
        rw [hevent, hdepth, hstart] at hserves
        exact .inr ⟨[], value, requests, _, rfl, hserves, hall⟩
    · exact .inr ⟨request :: first, value, later, next, rfl, hserves, hlater⟩

/-- Requests that never lead below the initial depth, and lead back to it, leave the values as they
are. -/
theorem values_servedAll (hlow : ∀ n, stack.depth ≤ (stack.servedAll (requests.take n)).depth)
    (hend : (stack.servedAll requests).depth = stack.depth) :
    (stack.servedAll requests).values = stack.values := by
  have hkept := take_toList_servedAll hlow
  have hwhole : (stack.servedAll requests).toList.length ≤ stack.depth := by
    rw [length_toList]
    omega
  rw [List.take_of_length_le hwhole, List.take_of_length_le (Nat.le_of_eq stack.length_toList)]
    at hkept
  exact List.reverse_inj.mp hkept

/-- What came of all requests is what came of the first, of the one after them and of the others. -/
theorem Serves.history_append_cons {first : List Request}
    (h : Serves (stack.servedAll first) request event next) (later : List Request) :
    stack.history (first ++ request :: later) =
      stack.history first ++ event :: next.history later := by
  induction first generalizing stack with
  | nil =>
    have hserve : stack.serve request = (event, next) := serve_eq_iff.mpr h
    simp only [List.nil_append, history, hserve]
  | cons other first ih => rw [List.cons_append, history, ih h, history, List.cons_append]

/-- The value on top is the last that was pushed and has not been popped, or all that were pushed
have been popped, and it is the initial value at the same height. -/
theorem top_of_servedAll {top : Int} {rest : List Int}
    (hvalues : (stack.servedAll requests).values = top :: rest) :
    LastHeld (stack.history requests) top ∨
      AllPopped (stack.history requests) ∧ stack.toList[rest.length]? = some top := by
  have hend : (stack.servedAll requests).depth = rest.length + 1 := by
    rw [depth, hvalues, List.length_cons]
  rcases exceeded_or_raised (by omega : rest.length < (stack.servedAll requests).depth) with
    hall | ⟨first, value, later, next, rfl, hserves, hlater⟩
  · refine .inr ⟨allPopped_history hall hend, ?_⟩
    have hkept := take_toList_servedAll hall
    have htop : (stack.servedAll requests).toList[rest.length]? = some top := by
      rw [toList, hvalues, List.reverse_cons, List.getElem?_append_right (by simp)]
      simp
    have hplace : rest.length < rest.length + 1 := by omega
    rw [← List.getElem?_take_of_lt hplace, hkept, List.getElem?_take_of_lt hplace] at htop
    exact htop
  · obtain ⟨-, hnext, hdepth, -⟩ := hserves.of_pushed
    rw [hserves.servedAll_append_cons] at hvalues hend
    -- The depth has not been lower since the push, so its value lies on top again.
    have hlow (n : Nat) : next.depth ≤ (next.servedAll (later.take n)).depth := by
      have hn := hlater n
      omega
    have hback : (next.servedAll later).depth = next.depth := by omega
    rw [values_servedAll hlow hback, hnext] at hvalues
    obtain ⟨rfl, -⟩ := List.cons.inj hvalues
    exact .inl ⟨_, _, _, hserves.history_append_cons later, spare_history hlow,
      allPopped_history hlow hback⟩

/-- A request does not change the capacity. -/
theorem Serves.capacity_eq (h : Serves stack request event next) :
    next.capacity = stack.capacity := by
  cases h <;> rfl

/-- Requests do not change the capacity. -/
theorem capacity_servedAll (stack : Stack) (requests : List Request) :
    (stack.servedAll requests).capacity = stack.capacity := by
  induction requests generalizing stack with
  | nil => rfl
  | cons request requests ih =>
    have hstep := (stack.serves_serve request).capacity_eq
    exact (ih _).trans hstep

/-- A push is refused for its value, or else for want of room, and changes nothing then. -/
theorem serves_push_refused_iff {value : Int} {failure : Failure} :
    Serves stack (.push value) (.refused failure) next ↔
      next = stack ∧ (¬ IsWord value ∧ failure = .range ⟨.stackValue, value⟩ ∨
        IsWord value ∧ stack.capacity ≤ stack.depth ∧
          failure = .fault { kind := .stackFull }) := by
  constructor
  · intro h
    cases h with
    | notWord hword => exact ⟨rfl, .inl ⟨hword, rfl⟩⟩
    | full hword hfull => exact ⟨rfl, .inr ⟨hword, hfull, rfl⟩⟩
  · rintro ⟨rfl, ⟨hword, rfl⟩ | ⟨hword, hfull, rfl⟩⟩
    · exact .notWord hword
    · exact .full hword hfull

/-- A pop is refused where there is no value, and changes nothing then. -/
theorem serves_pop_refused_iff {failure : Failure} :
    Serves stack .pop (.refused failure) next ↔
      next = stack ∧ stack.depth = 0 ∧ failure = .fault { kind := .stackEmpty } := by
  constructor
  · intro h
    cases h with
    | empty hvalues => exact ⟨rfl, List.length_eq_zero_iff.mpr hvalues, rfl⟩
  · rintro ⟨rfl, hdepth, rfl⟩
    exact .empty (List.length_eq_zero_iff.mp hdepth)

/-- A pop takes the value on top. -/
theorem Serves.of_popped {value : Int} (h : Serves stack request (.popped value) next) :
    stack.values = value :: next.values := by
  cases h with
  | popped hvalues => exact hvalues

/-- Each event of the history comes after as many events as there are requests before it. -/
theorem length_history (stack : Stack) (requests : List Request) :
    (stack.history requests).length = requests.length := by
  induction requests generalizing stack with
  | nil => rfl
  | cons request requests ih => rw [history, List.length_cons, List.length_cons, ih]

/-- However a stack is pushed and popped, what lies below the lowest depth that is reached stays as
it was. A push gives back the depth that it leads to. A pop gives back the last value that was
pushed and has not been popped, or the initial value whose turn it is. A push fails with a number
that is no word, and otherwise only on a full stack, and a pop fails only on an empty one. What
fails leaves the stack as it is. -/
theorem low_water_mark {values : List Int} {capacity : Int} {stack : Stack}
    (hmade : ofList values capacity = .ok stack) (requests : List Request) :
    (∀ low, (∀ n, low ≤ (stack.servedAll (requests.take n)).depth) →
      (stack.servedAll requests).toList.take low = values.take low) ∧
    ((stack.servedAll requests).depth : Int) =
      values.length + pushes (stack.history requests) - pops (stack.history requests) ∧
    (∀ before value depth after,
      stack.history requests = before ++ .pushed value depth :: after →
      requests[before.length]? = some (.push value) ∧
        depth = (stack.servedAll (requests.take (before.length + 1))).depth) ∧
    (∀ before value after, stack.history requests = before ++ .popped value :: after →
      LastHeld before value ∨
        AllPopped before ∧ pushes before ≤ pops before ∧
          values.reverse[pops before - pushes before]? = some value) ∧
    (∀ value failure next,
      (stack.servedAll requests).serve (.push value) = (.refused failure, next) ↔
        next = stack.servedAll requests ∧
          (¬ IsWord value ∧ failure = .range ⟨.stackValue, value⟩ ∨
            IsWord value ∧ capacity ≤ (stack.servedAll requests).depth ∧
              failure = .fault { kind := .stackFull })) ∧
    ∀ failure next, (stack.servedAll requests).serve .pop = (.refused failure, next) ↔
      next = stack.servedAll requests ∧ (stack.servedAll requests).depth = 0 ∧
        failure = .fault { kind := .stackEmpty } := by
  obtain ⟨_, rfl⟩ := ofList_eq_ok_iff.mp hmade
  have hvalues : toList { values := values.reverse, capacity } = values := List.reverse_reverse _
  have hlength : depth { values := values.reverse, capacity } = values.length := by
    rw [← length_toList, hvalues]
  refine ⟨fun low hlow => ?_, ?_, fun before value depth after hevents => ?_,
    fun before value after hevents => ?_, fun value failure next => ?_, fun failure next => ?_⟩
  · rw [take_toList_servedAll hlow, hvalues]
  · have hdepth := depth_servedAll { values := values.reverse, capacity } requests
    omega
  · obtain ⟨first, request, later, next, rfl, rfl, hserves, -⟩ := exists_of_history_eq hevents
    obtain ⟨rfl, -, hdepth, -⟩ := hserves.of_pushed
    rw [length_history, List.take_length_add_append, List.take_succ_cons, List.take_zero,
      hserves.servedAll_append_cons, servedAll]
    exact ⟨by simp, hdepth⟩
  · obtain ⟨first, request, later, next, rfl, rfl, hserves, -⟩ := exists_of_history_eq hevents
    have htop := hserves.of_popped
    refine (top_of_servedAll htop).imp_right ?_
    rintro ⟨hpopped, hinitial⟩
    rw [hvalues] at hinitial
    have hdepth := depth_servedAll { values := values.reverse, capacity } first
    have hbound : next.values.length < values.length := (List.getElem?_eq_some_iff.mp hinitial).1
    rw [depth, htop, List.length_cons] at hdepth
    refine ⟨hpopped, by omega, ?_⟩
    rw [List.getElem?_reverse (by omega), ← hinitial]
    congr 1
    omega
  · rw [serve_eq_iff, serves_push_refused_iff, capacity_servedAll]
  · rw [serve_eq_iff, serves_pop_refused_iff]

/-- On a stack for two values that starts with one, a third value and a number that is no word are
refused while it is full, and the pop after them gives back the second. -/
theorem low_water_mark_of_full :
    ofList [7] 2 = .ok { values := [7], capacity := 2 } ∧
    ((∀ n, 1 ≤ (servedAll { values := [7], capacity := 2 }
        ([.push 8, .push 9, .push (-1), .pop].take n)).depth) ∧
      (servedAll { values := [7], capacity := 2 }
        [.push 8, .push 9, .push (-1), .pop]).toList.take 1 = [7]) ∧
    history { values := [7], capacity := 2 } [.push 8, .push 9, .push (-1), .pop] =
      [.pushed 8 2, .refused (.fault { kind := .stackFull }),
        .refused (.range ⟨.stackValue, -1⟩)] ++ [.popped 8] ∧
    LastHeld [.pushed 8 2, .refused (.fault { kind := .stackFull }),
      .refused (.range ⟨.stackValue, -1⟩)] 8 := by
  have hmade : ofList [7] 2 = .ok { values := [7], capacity := 2 } := rfl
  have hlow (n : Nat) : 1 ≤ (servedAll { values := [7], capacity := 2 }
      ([.push 8, .push 9, .push (-1), .pop].take n)).depth := by
    rcases n with _ | _ | _ | _ | n
    · decide
    · decide
    · decide
    · decide
    · rw [List.take_of_length_le (by simp)]
      decide
  have hevents : history { values := [7], capacity := 2 } [.push 8, .push 9, .push (-1), .pop] =
      [.pushed 8 2, .refused (.fault { kind := .stackFull }),
        .refused (.range ⟨.stackValue, -1⟩)] ++ [.popped 8] := by
    decide
  obtain ⟨hbottom, -, -, hpops, -⟩ := low_water_mark hmade [.push 8, .push 9, .push (-1), .pop]
  have hnotAll : ¬ pushes [.pushed 8 2, .refused (.fault { kind := .stackFull }),
      .refused (.range ⟨.stackValue, -1⟩)] ≤ pops [.pushed 8 2,
      .refused (.fault { kind := .stackFull }), .refused (.range ⟨.stackValue, -1⟩)] := by
    decide
  refine ⟨hmade, ⟨hlow, hbottom 1 hlow⟩, hevents, ?_⟩
  exact (hpops _ _ _ hevents).resolve_right fun hall => hnotAll hall.2.1

end WordMachine.Stack
