import Mathlib.Data.List.Nodup
import Mathlib.Data.List.Perm.Subperm
import WordMachine.Memory
import WordMachine.Proofs.Word.Range

/-!
# The order of writes

A memory keeps its cells in the order in which they were first written. What can be
asked of it depends on the cells and not on their order: two memories that agree have
the same cells in some order, read alike, list the same entries and still agree when
the same word is written into both.
-/

namespace WordMachine.Memory

variable {memory a b : Memory} {address value : Int}

/-- A cell is found by its address exactly if it is there. -/
theorem cell?_eq_some_iff : memory.cell? address = some value ↔ (address, value) ∈ memory.cells := by
  unfold cell?
  constructor
  · intro hlookup
    obtain ⟨before, after, hcells, _⟩ := List.lookup_eq_some_iff.mp hlookup
    simp [hcells]
  · intro hmem
    obtain ⟨before, after, hcells⟩ := List.append_of_mem hmem
    refine List.lookup_eq_some_iff.mpr ⟨before, after, hcells, fun cell hcell => ?_⟩
    -- The address stands behind all cells before this one, so none of them has it.
    have hnodup := memory.nodup
    rw [hcells, List.map_append, List.map_cons] at hnodup
    have hdistinct := (List.nodup_append.mp hnodup).2.2 cell.1 (List.mem_map_of_mem hcell) address
      List.mem_cons_self
    simpa [bne_iff_ne] using hdistinct.symm

/-- An address is looked up in the first cell and then in the others. -/
theorem lookup_cons_eq_ite (address value x : Int) (cells : List (Int × Int)) :
    ((address, value) :: cells).lookup x = if x = address then some value else cells.lookup x := by
  rw [List.lookup_cons]
  by_cases hx : x = address
  · simp [hx]
  · have hfalse : (x == address) = false := beq_false_of_ne hx
    simp [hx, hfalse]

/-- The value of a cell after one of them has been set. -/
theorem lookup_setCell (address value x : Int) (cells : List (Int × Int)) :
    (setCell address value cells).lookup x = if x = address then some value else cells.lookup x := by
  induction cells with
  | nil => exact lookup_cons_eq_ite address value x []
  | cons cell cells ih =>
    obtain ⟨first, stored⟩ := cell
    by_cases hfirst : first = address
    · subst hfirst
      simp only [setCell, if_true, lookup_cons_eq_ite]
      split <;> rfl
    · simp only [setCell, hfirst, if_false, lookup_cons_eq_ite, ih]
      by_cases hx : x = first
      · simp [hx, hfirst]
      · simp [hx]

/-- A cell that has been set has its new value, and the others keep theirs. -/
theorem cell?_put (memory : Memory) (address value x : Int) :
    (memory.put address value).cell? x = if x = address then some value else memory.cell? x :=
  lookup_setCell address value x memory.cells

/-- Every cell of a well-formed memory reads as a word. -/
theorem WellFormed.isWord_read (hmemory : memory.WellFormed) (address : Int) :
    IsWord (memory.read address) := by
  unfold read
  cases hcell : memory.cell? address with
  | none => exact isWord_zero
  | some value => exact (hmemory _ (cell?_eq_some_iff.mp hcell)).2

/-- A word may be stored at a word. -/
theorem WellFormed.put (hmemory : memory.WellFormed) (haddress : IsWord address)
    (hvalue : IsWord value) : (memory.put address value).WellFormed := by
  rintro ⟨x, stored⟩ hcell
  rw [← cell?_eq_some_iff, cell?_put] at hcell
  split at hcell
  · rename_i hsame
    obtain rfl := Option.some.inj hcell
    exact ⟨hsame ▸ haddress, hvalue⟩
  · exact hmemory (x, stored) (cell?_eq_some_iff.mp hcell)

/-- The first of some cells is checked and written before the others. -/
theorem exec_writeAll_cons (cell : Int × Int) (cells : List (Int × Int)) (memory : Memory) :
    (writeAll (cell :: cells)).exec memory = checkCell cell.1 cell.2 >>= fun _ =>
      (writeAll cells).exec (memory.put cell.1 cell.2) := by
  have hcons : writeAll (cell :: cells) = write cell.1 cell.2 >>= fun _ => writeAll cells := rfl
  cases hcheck : checkCell cell.1 cell.2 with
  | ok u =>
    have hwrite : write cell.1 cell.2 memory = .ok () (memory.put cell.1 cell.2) :=
      Action.bind_of_ok (Action.ofExcept_of_ok hcheck) _
    rw [Action.exec, hcons, Action.bind_of_ok hwrite]
    rfl
  | error failure =>
    have hwrite : write cell.1 cell.2 memory = .error failure memory :=
      Action.bind_of_error (Action.ofExcept_of_error hcheck) _
    rw [Action.exec, hcons, Action.bind_of_error hwrite]
    rfl

/-- Cells that can be written one after another leave a well-formed memory well formed. -/
theorem WellFormed.writeAll {cells : List (Int × Int)} {last : Memory}
    (hmemory : memory.WellFormed) (h : (Memory.writeAll cells).exec memory = .ok last) :
    last.WellFormed := by
  induction cells generalizing memory with
  | nil =>
    obtain rfl := Except.ok.inj h
    exact hmemory
  | cons cell cells ih =>
    rw [exec_writeAll_cons, bind_eq_ok_iff] at h
    obtain ⟨_, hcheck, hlast⟩ := h
    obtain ⟨haddress, hvalue⟩ := checkCell_eq_ok_iff.mp hcheck
    exact ih (hmemory.put haddress hvalue) hlast

/-- A memory that is made from cells is well formed. -/
theorem wellFormed_of_ofList {cells : List (Int × Int)} (h : ofList cells = .ok memory) :
    memory.WellFormed :=
  WellFormed.writeAll (fun _ hcell => absurd hcell List.not_mem_nil) h

/-- A cell that is not there yet comes last. -/
theorem setCell_of_notMem {cells : List (Int × Int)} (hnew : address ∉ cells.map Prod.fst) :
    setCell address value cells = cells ++ [(address, value)] := by
  induction cells with
  | nil => rfl
  | cons cell cells ih =>
    simp only [List.map_cons, List.mem_cons, not_or] at hnew
    rw [setCell, if_neg (Ne.symm hnew.1), ih hnew.2, List.cons_append]

/-- Cells with new addresses are written behind those that are there, in their order. -/
theorem exec_writeAll (cells : List (Int × Int)) (memory : Memory)
    (hnodup : ((memory.cells ++ cells).map Prod.fst).Nodup) :
    (writeAll cells).exec memory = (cells.forM fun cell => checkCell cell.1 cell.2) >>= fun _ =>
      pure { cells := memory.cells ++ cells, nodup := hnodup } := by
  induction cells generalizing memory with
  | nil =>
    simp only [List.append_nil]
    rfl
  | cons cell cells ih =>
    have hsplit : memory.cells ++ cell :: cells = (memory.cells ++ [cell]) ++ cells := by simp
    have hnew : cell.1 ∉ memory.cells.map Prod.fst := by
      intro hold
      rw [List.map_append, List.nodup_append] at hnodup
      exact hnodup.2.2 cell.1 hold cell.1 (by simp) rfl
    have hput : (memory.put cell.1 cell.2).cells = memory.cells ++ [cell] := setCell_of_notMem hnew
    have hrest := ih (memory.put cell.1 cell.2) (by rw [hput, ← hsplit]; exact hnodup)
    simp only [hput, ← hsplit] at hrest
    rw [exec_writeAll_cons]
    simp only [hrest]
    exact (bind_assoc (checkCell cell.1 cell.2) _ _).symm

/-- A copy is made by writing the cells one after another, which keeps their order. -/
theorem copy_eq_ofList (memory : Memory) : memory.copy = ofList memory.cells :=
  (exec_writeAll memory.cells empty memory.nodup).symm

/-- No cell occurs twice. -/
theorem nodup_cells (memory : Memory) : memory.cells.Nodup :=
  List.Nodup.of_map Prod.fst memory.nodup

/-- Two memories have the same cells in some order exactly if every address is looked up with
the same outcome. -/
theorem perm_iff_cell?_eq : a.cells.Perm b.cells ↔ ∀ x, a.cell? x = b.cell? x := by
  rw [List.perm_ext_iff_of_nodup a.nodup_cells b.nodup_cells]
  constructor
  · intro hsame x
    refine Option.ext fun value => ?_
    rw [cell?_eq_some_iff, cell?_eq_some_iff, hsame]
  · rintro hsame ⟨x, value⟩
    rw [← cell?_eq_some_iff, ← cell?_eq_some_iff, hsame]

/-- Memories agree exactly if they have the same cells in some order. Only the cells of one are
looked for in the other; as there are equally many, none is left over. -/
theorem agrees_iff_perm : a.agrees b = true ↔ a.cells.Perm b.cells := by
  simp only [agrees, size, Bool.and_eq_true, beq_iff_eq, List.all_eq_true]
  constructor
  · rintro ⟨hsize, hfound⟩
    have hsubset : a.cells ⊆ b.cells := fun cell hcell =>
      cell?_eq_some_iff.mp (hfound cell hcell)
    exact (List.subperm_of_subset a.nodup_cells hsubset).perm_of_length_le (Nat.le_of_eq hsize.symm)
  · intro hperm
    refine ⟨hperm.length_eq, fun cell hcell => ?_⟩
    exact cell?_eq_some_iff.mpr (hperm.mem_iff.mp hcell)

/-- The entries are the cells. -/
theorem entries_perm (memory : Memory) : memory.entries.Perm memory.cells :=
  List.mergeSort_perm _ _

/-- The entries are listed by strictly ascending address. -/
theorem pairwise_entries (memory : Memory) : memory.entries.Pairwise fun a b => a.1 < b.1 := by
  have hordered : memory.entries.Pairwise fun a b => a.1 ≤ b.1 := by
    refine (List.pairwise_mergeSort (fun a b c => ?_) (fun a b => ?_) memory.cells).imp ?_
    · simp only [decide_eq_true_eq]
      omega
    · simp only [Bool.or_eq_true, decide_eq_true_eq]
      omega
    · simp
  have hdistinct : memory.entries.Pairwise fun a b => a.1 ≠ b.1 :=
    List.pairwise_map.mp ((memory.entries_perm.map Prod.fst).nodup_iff.mpr memory.nodup)
  exact hordered.imp₂ (fun a b hle hne => by omega) hdistinct

/-- The written addresses, in ascending order. -/
def addresses (memory : Memory) : List Int :=
  memory.entries.map Prod.fst

/-- The written addresses are those of the cells. -/
theorem addresses_perm (memory : Memory) :
    memory.addresses.Perm (memory.cells.map Prod.fst) :=
  memory.entries_perm.map Prod.fst

/-- An address is written exactly if its cell is there. -/
theorem mem_addresses_iff :
    address ∈ memory.addresses ↔ ∃ value, memory.cell? address = some value := by
  rw [memory.addresses_perm.mem_iff]
  simp only [cell?_eq_some_iff, List.mem_map, Prod.exists, exists_and_right, exists_eq_right]

/-- Setting a cell adds its address to those that are written. -/
theorem mem_addresses_put {x : Int} :
    x ∈ (memory.put address value).addresses ↔ x ∈ memory.addresses ∨ x = address := by
  simp only [mem_addresses_iff, cell?_put]
  by_cases hx : x = address
  · simp [hx]
  · simp [hx]

/-- Setting a cell makes room for it, unless its address was written before. -/
theorem size_put (memory : Memory) (address value : Int) :
    (memory.put address value).size =
      if address ∈ memory.addresses then memory.size else memory.size + 1 := by
  have hsize (cells : List (Int × Int)) : cells.length = (cells.map Prod.fst).length := by simp
  have hput : (memory.put address value).cells = setCell address value memory.cells := rfl
  simp only [size, memory.addresses_perm.mem_iff]
  rw [hsize, hput, map_fst_setCell]
  split
  · simp
  · simp

/-- Memories agree exactly if they list the same entries. -/
theorem agrees_iff_entries_eq : a.agrees b = true ↔ a.entries = b.entries := by
  rw [agrees_iff_perm]
  constructor
  · intro hperm
    refine List.Perm.eq_of_pairwise (fun x y _ _ hlt hgt => ?_) a.pairwise_entries
      b.pairwise_entries ((a.entries_perm.trans hperm).trans b.entries_perm.symm)
    omega
  · intro hentries
    exact a.entries_perm.symm.trans (hentries ▸ b.entries_perm)

/-- Memories that agree read alike. -/
theorem read_eq_of_perm (hperm : a.cells.Perm b.cells) (address : Int) :
    a.read address = b.read address := by
  rw [read, read, perm_iff_cell?_eq.mp hperm]

/-- Memories that agree still do when the same cell is set in both. -/
theorem put_perm (hperm : a.cells.Perm b.cells) (address value : Int) :
    (a.put address value).cells.Perm (b.put address value).cells := by
  rw [perm_iff_cell?_eq] at hperm ⊢
  intro x
  rw [cell?_put, cell?_put, hperm]

end WordMachine.Memory
