import WordMachine.Failure

/-!
# The memory

A sparse memory of words: cells that were never written read as zero. Only the
cells that were written are kept, in the order in which their addresses were
written first; an address that is written again keeps its place. `entries` lists
them by ascending address.
-/

namespace WordMachine

/-- A sparse memory. -/
structure Memory where
  /-- The written cells, in the order of the first writes to their addresses. -/
  cells : List (Int × Int)
  /-- No address occurs twice. -/
  nodup : (cells.map Prod.fst).Nodup := by decide
  deriving DecidableEq

namespace Memory

/-- The memory in which nothing was written. -/
def empty : Memory where
  cells := []
  nodup := List.nodup_nil

/-- The value of a cell, if it was written. -/
def cell? (memory : Memory) (address : Int) : Option Int :=
  memory.cells.lookup address

/-- The value of a cell (`read`); any integer may be asked for. -/
def read (memory : Memory) (address : Int) : Int :=
  (memory.cell? address).getD 0

/-- Cells with one of them set: in its place if it is there, and last if it is not. -/
def setCell (address value : Int) : List (Int × Int) → List (Int × Int)
  | [] => [(address, value)]
  | cell :: cells =>
    if cell.1 = address then (address, value) :: cells else cell :: setCell address value cells

/-- The addresses after a cell has been set. -/
theorem map_fst_setCell (address value : Int) (cells : List (Int × Int)) :
    (setCell address value cells).map Prod.fst =
      if address ∈ cells.map Prod.fst then cells.map Prod.fst
      else cells.map Prod.fst ++ [address] := by
  induction cells with
  | nil => rfl
  | cons cell cells ih =>
    by_cases hsame : cell.1 = address
    · simp [setCell, hsame]
    · have hother : ¬ address = cell.1 := fun h => hsame h.symm
      simp only [setCell, if_neg hsame, List.map_cons, List.mem_cons, hother, false_or, ih]
      split <;> rfl

/-- Setting a cell brings no address in twice. -/
theorem nodup_setCell {cells : List (Int × Int)} (hcells : (cells.map Prod.fst).Nodup)
    (address value : Int) : ((setCell address value cells).map Prod.fst).Nodup := by
  rw [map_fst_setCell]
  split
  · exact hcells
  · rename_i hnew
    refine List.nodup_append.mpr ⟨hcells, by simp, ?_⟩
    rintro other hother _ hlast rfl
    exact hnew (List.mem_singleton.mp hlast ▸ hother)

/-- The memory with a cell set. -/
def put (memory : Memory) (address value : Int) : Memory where
  cells := setCell address value memory.cells
  nodup := nodup_setCell memory.nodup address value

/-- Refuses a cell whose address or value is no word, the address first. -/
def checkCell (address value : Int) : Except Failure Unit := do
  checkWord .address address
  checkWord .memoryValue value

/-- Sets the value of a cell (`write`). -/
def write (address value : Int) : Action Memory Unit := do
  ofExcept (checkCell address value)
  modify fun memory => memory.put address value

/-- The number of written cells. -/
def size (memory : Memory) : Nat :=
  memory.cells.length

/-- The written cells, by ascending address (`entries`). -/
def entries (memory : Memory) : List (Int × Int) :=
  memory.cells.mergeSort fun a b => a.1 ≤ b.1

/-- Writes cells one after another. -/
def writeAll (cells : List (Int × Int)) : Action Memory Unit :=
  cells.forM fun cell => write cell.1 cell.2

/-- Writes cells one after another into an empty memory (the constructor of `Memory`); a later
write wins. -/
def ofList (cells : List (Int × Int)) : Except Failure Memory :=
  (writeAll cells).exec empty

/-- The same memory, after every cell has been checked again (`clone`). -/
def copy (memory : Memory) : Except Failure Memory := do
  memory.cells.forM fun cell => checkCell cell.1 cell.2
  return memory

/-- Whether two memories have the same written cells (`equals`). With equally many of them it is
enough to look for the cells of one in the other. -/
def agrees (a b : Memory) : Bool :=
  a.size == b.size && a.cells.all fun cell => b.cell? cell.1 == some cell.2

/-- A memory whose addresses and values are words. -/
def WellFormed (memory : Memory) : Prop :=
  ∀ cell ∈ memory.cells, IsWord cell.1 ∧ IsWord cell.2

instance (memory : Memory) : Decidable memory.WellFormed :=
  inferInstanceAs (Decidable (∀ cell ∈ memory.cells, _))

/-- Only cells of words pass the check. -/
@[simp] theorem checkCell_eq_ok_iff {address value : Int} {u : Unit} :
    checkCell address value = .ok u ↔ IsWord address ∧ IsWord value := by
  simp [checkCell, bind_eq_ok_iff]

/-- Words are written. -/
theorem write_of_isWord {memory : Memory} {address value : Int} (haddress : IsWord address)
    (hvalue : IsWord value) : write address value memory = .ok () (memory.put address value) := by
  have hcheck : checkCell address value = .ok () := checkCell_eq_ok_iff.mpr ⟨haddress, hvalue⟩
  exact Action.bind_of_ok (Action.ofExcept_of_ok hcheck) _

/-- A cell that is not made of words is refused, and the memory stays as it is. -/
theorem write_of_not_isWord {memory : Memory} {address value : Int}
    (hcell : ¬ (IsWord address ∧ IsWord value)) :
    ∃ error, write address value memory = .error (.range error) memory := by
  have hcheck : ∃ error, checkCell address value = .error (.range error) := by
    by_cases haddress : IsWord address
    · have hvalue : ¬ IsWord value := fun hvalue => hcell ⟨haddress, hvalue⟩
      refine ⟨⟨.memoryValue, value⟩, ?_⟩
      rw [checkCell, checkWord_of_isWord haddress, checkWord_of_not_isWord hvalue]
      rfl
    · refine ⟨⟨.address, address⟩, ?_⟩
      rw [checkCell, checkWord_of_not_isWord haddress]
      rfl
  obtain ⟨error, herror⟩ := hcheck
  exact ⟨error, Action.bind_of_error (Action.ofExcept_of_error herror) _⟩

/-- A memory can be copied exactly if it is well formed, and the copy is the memory itself. -/
theorem copy_eq_ok_iff {memory after : Memory} :
    memory.copy = .ok after ↔ memory.WellFormed ∧ after = memory := by
  simp only [copy, WellFormed, bind_eq_ok_iff, return_eq_ok_iff, forM_eq_ok_iff,
    checkCell_eq_ok_iff, exists_const]

end Memory

end WordMachine
