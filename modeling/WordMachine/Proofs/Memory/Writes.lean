import Mathlib.Data.Finset.Card
import Mathlib.Data.List.Induction
import WordMachine.Proofs.Memory

/-!
# The history of a memory

A new memory is written to any number of times with any integers. A write whose address or
value is no word is refused and leaves no trace. What can be asked of the memory afterwards is
told by the last accepted write to each address, so the order of writes to different addresses
does not matter.
-/

namespace WordMachine.Memory

variable {memory : Memory} {writes : List (Int × Int)} {address value : Int}

/-- What an attempt to write a cell leaves of a memory, whether it fails or not. -/
def attempted (memory : Memory) (cell : Int × Int) : Memory :=
  (write cell.1 cell.2).left memory

/-- A new memory after one attempt to write after another. -/
def ofAttempts (writes : List (Int × Int)) : Memory :=
  writes.foldl attempted empty

/-- The writes whose addresses and values are words. -/
def accepted (writes : List (Int × Int)) : List (Int × Int) :=
  writes.filter fun cell => IsWord cell.1 ∧ IsWord cell.2

/-- The value of the last accepted write to an address. -/
def lastValue? (writes : List (Int × Int)) (address : Int) : Option Int :=
  (accepted writes).reverse.lookup address

/-- An attempt succeeds with words and changes nothing with other numbers. -/
theorem attempted_eq (memory : Memory) (cell : Int × Int) :
    memory.attempted cell =
      if IsWord cell.1 ∧ IsWord cell.2 then memory.put cell.1 cell.2 else memory := by
  unfold attempted Action.left
  split_ifs with hcell
  · rw [write_of_isWord hcell.1 hcell.2]
  · obtain ⟨error, herror⟩ := write_of_not_isWord hcell
    rw [herror]

/-- The last attempt is made after all others. -/
theorem ofAttempts_append_singleton (writes : List (Int × Int)) (cell : Int × Int) :
    ofAttempts (writes ++ [cell]) = (ofAttempts writes).attempted cell :=
  List.foldl_append

/-- The last attempt is among the accepted writes if it was made with words. -/
theorem accepted_append_singleton (writes : List (Int × Int)) (cell : Int × Int) :
    accepted (writes ++ [cell]) =
      if IsWord cell.1 ∧ IsWord cell.2 then accepted writes ++ [cell] else accepted writes := by
  unfold accepted
  rw [List.filter_append]
  split_ifs with hcell
  · simp [hcell]
  · simp [hcell]

/-- A cell holds the value of the last accepted write to its address. -/
theorem cell?_ofAttempts (writes : List (Int × Int)) (address : Int) :
    (ofAttempts writes).cell? address = lastValue? writes address := by
  induction writes using List.reverseRecOn with
  | nil => rfl
  | append_singleton writes cell ih =>
    rw [ofAttempts_append_singleton, attempted_eq, lastValue?, accepted_append_singleton]
    split_ifs with hcell
    · rw [cell?_put, ih, List.reverse_append, List.reverse_singleton, List.singleton_append,
        lookup_cons_eq_ite, lastValue?]
    · exact ih

/-- What is written is made of words. -/
theorem wellFormed_ofAttempts (writes : List (Int × Int)) : (ofAttempts writes).WellFormed := by
  induction writes using List.reverseRecOn with
  | nil => exact fun _ hcell => absurd hcell List.not_mem_nil
  | append_singleton writes cell ih =>
    rw [ofAttempts_append_singleton, attempted_eq]
    split_ifs with hcell
    · exact ih.put hcell.1 hcell.2
    · exact ih

/-- The written addresses are those of the accepted writes. -/
theorem mem_addresses_ofAttempts :
    address ∈ (ofAttempts writes).addresses ↔ address ∈ (accepted writes).map Prod.fst := by
  induction writes using List.reverseRecOn with
  | nil =>
    rw [mem_addresses_iff, cell?_ofAttempts]
    simp [lastValue?, accepted]
  | append_singleton writes cell ih =>
    rw [ofAttempts_append_singleton, attempted_eq, accepted_append_singleton]
    split_ifs with hcell
    · rw [mem_addresses_put, ih, List.map_append, List.mem_append, List.map_singleton,
        List.mem_singleton]
    · exact ih

/-- No address is listed twice. -/
theorem nodup_addresses (memory : Memory) : memory.addresses.Nodup :=
  memory.addresses_perm.nodup_iff.mpr memory.nodup

/-- The size is the number of different addresses of the accepted writes. -/
theorem size_ofAttempts (writes : List (Int × Int)) :
    (ofAttempts writes).size = ((accepted writes).map Prod.fst).toFinset.card := by
  have hsame :
      ((accepted writes).map Prod.fst).toFinset = (ofAttempts writes).addresses.toFinset := by
    ext address
    rw [List.mem_toFinset, List.mem_toFinset, mem_addresses_ofAttempts]
  have hlength : (ofAttempts writes).addresses.length = (ofAttempts writes).size := by
    rw [(ofAttempts writes).addresses_perm.length_eq, List.length_map, size]
  rw [hsame, List.toFinset_card_of_nodup (nodup_addresses _), hlength]

/-- The entries of a memory are its cells. -/
theorem mem_entries_iff :
    (address, value) ∈ memory.entries ↔ memory.cell? address = some value := by
  rw [memory.entries_perm.mem_iff, cell?_eq_some_iff]

/-- Writing the entries of a memory of words gives a memory that agrees with it, although the cells
are now in the order of their addresses. -/
theorem WellFormed.exists_ofList_entries (hmemory : memory.WellFormed) :
    ∃ again, ofList memory.entries = .ok again ∧ again.agrees memory = true := by
  have hnodup : (memory.entries.map Prod.fst).Nodup := nodup_addresses memory
  have hchecked : (memory.entries.forM fun cell => checkCell cell.1 cell.2) = .ok () := by
    apply forM_eq_ok_iff.mpr
    intro cell hcell
    exact checkCell_eq_ok_iff.mpr (hmemory cell (memory.entries_perm.mem_iff.mp hcell))
  refine ⟨{ cells := memory.entries, nodup := hnodup }, ?_, ?_⟩
  · rw [ofList, exec_writeAll memory.entries empty hnodup, hchecked]
    rfl
  · exact agrees_iff_perm.mpr memory.entries_perm

/-- Where an address is looked up, cells with other addresses do not matter. -/
theorem lookup_filter_fst (address : Int) (cells : List (Int × Int)) :
    (cells.filter fun cell => cell.1 = address).lookup address = cells.lookup address := by
  induction cells with
  | nil => rfl
  | cons cell cells ih =>
    obtain ⟨first, stored⟩ := cell
    by_cases hfirst : first = address
    · simp [hfirst]
    · have hother : ¬ address = first := fun h => hfirst h.symm
      rw [List.filter_cons_of_neg (by simpa using hfirst), ih, lookup_cons_eq_ite, if_neg hother]

/-- The last value at an address is told by the writes to that address. -/
theorem lastValue?_filter_fst (writes : List (Int × Int)) (address : Int) :
    lastValue? (writes.filter fun cell => cell.1 = address) address =
      lastValue? writes address := by
  have hcomm : accepted (writes.filter fun cell => cell.1 = address) =
      (accepted writes).filter fun cell => cell.1 = address := by
    rw [accepted, accepted, List.filter_filter, List.filter_filter]
    exact List.filter_congr fun cell _ => Bool.and_comm _ _
  rw [lastValue?, hcomm, ← List.filter_reverse, lookup_filter_fst, lastValue?]

/-- The order of writes matters for no more than each single address. -/
theorem agrees_ofAttempts {others : List (Int × Int)}
    (horder : ∀ address, (writes.filter fun cell => cell.1 = address) =
      others.filter fun cell => cell.1 = address) :
    (ofAttempts writes).agrees (ofAttempts others) = true := by
  rw [agrees_iff_perm, perm_iff_cell?_eq]
  intro address
  rw [cell?_ofAttempts, cell?_ofAttempts, ← lastValue?_filter_fst writes, horder,
    lastValue?_filter_fst others]

/-- The last write wins. A cell that is not made of words is refused without effect. Every address
reads as the value of the last accepted write to it, or as zero, the size counts the different
addresses, and the entries are the written cells by ascending address. Memories agree exactly if
their entries are equal. A copy and a memory made of the entries agree with the memory, and so do
memories with the same writes in the same order to every single address. -/
theorem last_write_wins (writes : List (Int × Int)) :
    (∀ address value, ¬ (IsWord address ∧ IsWord value) →
      (∃ error, write address value (ofAttempts writes) =
          .error (.range error) (ofAttempts writes)) ∧
        ofAttempts (writes ++ [(address, value)]) = ofAttempts writes) ∧
    (∀ address, (ofAttempts writes).read address = (lastValue? writes address).getD 0) ∧
    (ofAttempts writes).size = ((accepted writes).map Prod.fst).toFinset.card ∧
    ((ofAttempts writes).entries.Pairwise (fun a b => a.1 < b.1) ∧
      ∀ address value, (address, value) ∈ (ofAttempts writes).entries ↔
        lastValue? writes address = some value) ∧
    ((∀ a b : Memory, a.agrees b = true ↔ a.entries = b.entries) ∧
      (∀ a : Memory, a.agrees a = true) ∧
      (∀ a b : Memory, a.agrees b = true → b.agrees a = true) ∧
      ∀ a b c : Memory, a.agrees b = true → b.agrees c = true → a.agrees c = true) ∧
    ((∃ again, ofList (ofAttempts writes).entries = .ok again ∧
        again.agrees (ofAttempts writes) = true) ∧
      ∃ copied, (ofAttempts writes).copy = .ok copied ∧
        copied.agrees (ofAttempts writes) = true) ∧
    ∀ others : List (Int × Int),
      (∀ address, (writes.filter fun cell => cell.1 = address) =
        others.filter fun cell => cell.1 = address) →
      (ofAttempts writes).agrees (ofAttempts others) = true := by
  have hwords := wellFormed_ofAttempts writes
  refine ⟨fun address value hcell => ⟨write_of_not_isWord hcell, ?_⟩, fun address => ?_,
    size_ofAttempts writes, ⟨pairwise_entries _, fun address value => ?_⟩,
    ⟨fun a b => agrees_iff_entries_eq, fun a => ?_, fun a b hab => ?_, fun a b c hab hbc => ?_⟩,
    ⟨hwords.exists_ofList_entries, ?_⟩, fun others horder => agrees_ofAttempts horder⟩
  · rw [ofAttempts_append_singleton, attempted_eq, if_neg hcell]
  · rw [read, cell?_ofAttempts]
  · rw [mem_entries_iff, cell?_ofAttempts]
  · exact agrees_iff_entries_eq.mpr rfl
  · exact agrees_iff_entries_eq.mpr (agrees_iff_entries_eq.mp hab).symm
  · have hentries := (agrees_iff_entries_eq.mp hab).trans (agrees_iff_entries_eq.mp hbc)
    exact agrees_iff_entries_eq.mpr hentries
  · exact ⟨_, copy_eq_ok_iff.mpr ⟨hwords, rfl⟩, agrees_iff_entries_eq.mpr rfl⟩

/-- A zero is written like any other value, and a number that is no word does not replace it. The
memory keeps its cells in another order if the writes to two addresses change places, and agrees. -/
theorem last_write_wins_of_swapped :
    (¬ (IsWord 3 ∧ IsWord (-1)) ∧
      ofAttempts ([(5, 7), (3, 0), (5, 8)] ++ [(3, -1)]) = ofAttempts [(5, 7), (3, 0), (5, 8)]) ∧
    ((ofAttempts [(5, 7), (3, 0), (5, 8)]).read 5 = 8 ∧
      (ofAttempts [(5, 7), (3, 0), (5, 8)]).size = 2 ∧
      (3, 0) ∈ (ofAttempts [(5, 7), (3, 0), (5, 8)]).entries) ∧
    ((∀ address, ([(5, 7), (3, 0), (5, 8)].filter fun cell : Int × Int => cell.1 = address) =
        [(3, 0), (5, 7), (5, 8)].filter fun cell => cell.1 = address) ∧
      (ofAttempts [(5, 7), (3, 0), (5, 8)]).agrees (ofAttempts [(3, 0), (5, 7), (5, 8)]) = true ∧
      (ofAttempts [(5, 7), (3, 0), (5, 8)]).cells ≠
        (ofAttempts [(3, 0), (5, 7), (5, 8)]).cells) := by
  obtain ⟨hrefused, hread, hsize, ⟨_, hentries⟩, _, _, horder⟩ :=
    last_write_wins [(5, 7), (3, 0), (5, 8)]
  have hcell : ¬ (IsWord 3 ∧ IsWord (-1)) := by decide
  have hsame (address : Int) :
      ([(5, 7), (3, 0), (5, 8)].filter fun cell : Int × Int => cell.1 = address) =
        [(3, 0), (5, 7), (5, 8)].filter fun cell => cell.1 = address := by
    by_cases hfive : 5 = address
    · subst hfive
      decide
    · simp [List.filter_cons, hfive]
  refine ⟨⟨hcell, (hrefused 3 (-1) hcell).2⟩, ⟨(hread 5).trans (by decide), hsize.trans (by decide),
    (hentries 3 0).mpr (by decide)⟩, hsame, horder _ hsame, by decide⟩

end WordMachine.Memory
