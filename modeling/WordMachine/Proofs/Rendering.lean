import Std.Data.String.ToInt
import WordMachine.Proofs.Memory
import WordMachine.Rendering

/-!
# Renderings tell states apart

Both renderings of a state follow one layout: a program counter, a register, the values of
the stack and the cells of the memory, with fixed texts around them and between the items
of a list. Each part is followed by a character that cannot occur in it, so the parts can be
read off again, and decimal numerals are different for different numbers. Two states are
therefore rendered alike exactly if they agree.
-/

namespace WordMachine

namespace Text

/-- A text behind another whose first character does not occur in that other text. -/
def Closes (delimiter text : String) : Prop :=
  ∃ c ∈ delimiter.toList.head?, c ∉ text.toList

/-- A character that occurs in neither of two texts marks where both of them end. -/
theorem eq_of_append_cons_eq {c : Char} {first second rest rest' : List Char} (hfirst : c ∉ first)
    (hsecond : c ∉ second) (h : first ++ c :: rest = second ++ c :: rest') :
    first = second ∧ rest = rest' := by
  induction first generalizing second with
  | nil =>
    cases second with
    | nil => exact ⟨rfl, (List.cons.inj h).2⟩
    | cons d second => exact absurd (List.cons.inj h).1 (List.ne_of_not_mem_cons hsecond)
  | cons d first ih =>
    cases second with
    | nil => exact absurd (List.cons.inj h).1.symm (List.ne_of_not_mem_cons hfirst)
    | cons e second =>
      obtain ⟨rfl, htail⟩ := List.cons.inj h
      obtain ⟨rfl, hrest⟩ :=
        ih (List.not_mem_of_not_mem_cons hfirst) (List.not_mem_of_not_mem_cons hsecond) htail
      exact ⟨rfl, hrest⟩

/-- What stands before a delimiter and what stands behind it can be told. -/
theorem Closes.eq_of_append_eq {delimiter first second rest rest' : String}
    (hfirst : Closes delimiter first) (hsecond : Closes delimiter second)
    (h : first ++ (delimiter ++ rest) = second ++ (delimiter ++ rest')) :
    first = second ∧ rest = rest' := by
  obtain ⟨c, hhead, hfirst⟩ := hfirst
  obtain ⟨d, hhead', hsecond⟩ := hsecond
  obtain rfl : c = d := Option.some.inj (hhead.symm.trans hhead')
  obtain ⟨tail, htail⟩ := List.head?_eq_some_iff.mp hhead
  have hlists := congrArg String.toList h
  simp only [String.toList_append, htail, List.cons_append] at hlists
  obtain ⟨heq, hbehind⟩ := eq_of_append_cons_eq hfirst hsecond hlists
  exact ⟨String.toList_inj.mp heq, String.toList_inj.mp (List.append_cancel_left hbehind)⟩

/-- A character that occurs neither in the items of a list nor in what separates them does not occur
in the list. -/
theorem notMem_intercalate {c : Char} {separator : String} {items : List String}
    (hseparator : c ∉ separator.toList) (hitems : ∀ item ∈ items, c ∉ item.toList) :
    c ∉ (separator.intercalate items).toList := by
  induction items with
  | nil => simp
  | cons item items ih =>
    have hitem := hitems item (by simp)
    have hothers := ih fun other hother => hitems other (by simp [hother])
    cases items with
    | nil => simpa using hitem
    | cons next items =>
      rw [String.intercalate_cons_cons, String.toList_append, String.toList_append]
      simp only [List.mem_append, not_or]
      exact ⟨⟨hitem, hseparator⟩, hothers⟩

/-- A list of texts is closed if its items and what separates them are. -/
theorem Closes.intercalate {delimiter separator : String} {items : List String}
    (hseparator : Closes delimiter separator) (hitems : ∀ item ∈ items, Closes delimiter item) :
    Closes delimiter (separator.intercalate items) := by
  obtain ⟨c, hhead, hc⟩ := hseparator
  refine ⟨c, hhead, notMem_intercalate hc fun item hitem => ?_⟩
  obtain ⟨d, hhead', hd⟩ := hitems item hitem
  obtain rfl : c = d := Option.some.inj (hhead.symm.trans hhead')
  exact hd

/-- A text in which a delimiter occurs is not closed by it. -/
theorem not_closes_append (delimiter first rest : String) :
    ¬ Closes delimiter (first ++ delimiter ++ rest) := by
  rintro ⟨c, hhead, hc⟩
  have hmem : c ∈ delimiter.toList := List.mem_of_head? hhead
  simp [hmem] at hc

/-- A list of texts that are not empty is not empty. -/
theorem intercalate_cons_ne {separator item : String} (hitem : item ≠ "") (items : List String) :
    separator.intercalate (item :: items) ≠ "" := by
  cases items with
  | nil => simpa using hitem
  | cons next items =>
    rw [String.intercalate_cons_cons, String.append_assoc]
    intro hempty
    exact hitem (String.append_eq_empty_iff.mp hempty).1

/-- The items of a list can be told if none is empty and each is closed by what separates them. -/
theorem eq_of_intercalate_eq {separator : String} {items others : List String}
    (hitems : ∀ item ∈ items, item ≠ "" ∧ Closes separator item)
    (hothers : ∀ item ∈ others, item ≠ "" ∧ Closes separator item)
    (h : separator.intercalate items = separator.intercalate others) : items = others := by
  induction items generalizing others with
  | nil =>
    cases others with
    | nil => rfl
    | cons other others =>
      exact absurd h.symm (intercalate_cons_ne (hothers other (by simp)).1 others)
  | cons item items ih =>
    have hitem := hitems item (by simp)
    cases others with
    | nil => exact absurd h (intercalate_cons_ne hitem.1 items)
    | cons other others =>
      have hother := hothers other (by simp)
      -- Where one list ends and the other goes on, the last item would hold what separates them.
      cases items with
      | nil =>
        cases others with
        | nil => simpa using h
        | cons _ _ =>
          rw [String.intercalate_singleton, String.intercalate_cons_cons] at h
          exact (not_closes_append _ _ _ (h ▸ hitem.2)).elim
      | cons _ _ =>
        cases others with
        | nil =>
          rw [String.intercalate_singleton, String.intercalate_cons_cons] at h
          exact (not_closes_append _ _ _ (h ▸ hother.2)).elim
        | cons _ _ =>
          rw [String.intercalate_cons_cons, String.intercalate_cons_cons, String.append_assoc,
            String.append_assoc] at h
          obtain ⟨rfl, hrest⟩ := hitem.2.eq_of_append_eq hother.2 h
          rw [ih (fun other hmem => hitems other (by simp [hmem]))
            (fun other hmem => hothers other (by simp [hmem])) hrest]

/-- The characters of decimal numerals. -/
def isNumeral (c : Char) : Bool :=
  c.isDigit || c == '-'

/-- Decimal numerals are made of digits and a sign. -/
theorem isNumeral_of_mem_toString {n : Int} {c : Char} (hc : c ∈ (toString n).toList) :
    isNumeral c = true := by
  have hdigits {m : Nat} (hmem : c ∈ m.repr.toList) : c.isDigit = true := by
    rw [Nat.repr_eq_ofList_toDigits, String.toList_ofList] at hmem
    exact Nat.isDigit_of_mem_toDigits (by decide) (by decide) hmem
  rw [Int.toString_eq_repr, Int.repr_eq_if] at hc
  split at hc
  · simp [isNumeral, hdigits hc]
  · rw [String.toList_append] at hc
    rcases List.mem_append.mp hc with hsign | hmem
    · have hminus : c = '-' := by simpa using hsign
      simp [isNumeral, hminus]
    · simp [isNumeral, hdigits hmem]

/-- A decimal numeral is not empty. -/
theorem toString_ne_empty (n : Int) : toString n ≠ "" := by
  have hne (m : Nat) : m.repr ≠ "" := by
    intro hempty
    rw [Nat.repr_eq_ofList_toDigits] at hempty
    exact Nat.toDigits_ne_nil (String.ofList_eq_empty_iff.mp hempty)
  rw [Int.toString_eq_repr, Int.repr_eq_if]
  split
  · exact hne _
  · intro hempty
    exact hne _ (String.append_eq_empty_iff.mp hempty).2

/-- Different numbers have different decimal numerals. -/
theorem toString_injective : Function.Injective (toString : Int → String) := by
  intro m n h
  rw [Int.toString_eq_repr, Int.toString_eq_repr] at h
  exact Int.repr_injective h

end Text

/-- How a state is written: the texts around its parts, between the items of a list and between the
address and the value of a cell, and how a number is written. -/
structure Layout where
  /-- What stands before the program counter. -/
  opening : String
  /-- What stands behind the program counter. -/
  behindPc : String
  /-- What stands behind the register. -/
  behindRegister : String
  /-- What stands behind the values of the stack. -/
  behindStack : String
  /-- What stands behind the cells of the memory. -/
  closing : String
  /-- What stands between the items of a list. -/
  separator : String
  /-- What stands between an address and a value. -/
  mark : String
  /-- How a number is written. -/
  number : Int → String

namespace Layout

/-- The text of a cell. -/
def cell (layout : Layout) (cell : Int × Int) : String :=
  layout.number cell.1 ++ layout.mark ++ layout.number cell.2

/-- The text of a state. -/
def write (layout : Layout) (state : State) : String :=
  layout.opening ++ layout.number state.pc ++ layout.behindPc ++ layout.number state.register ++
    layout.behindRegister ++ layout.separator.intercalate (state.stack.toList.map layout.number) ++
    layout.behindStack ++ layout.separator.intercalate (state.memory.entries.map layout.cell) ++
    layout.closing

/-- A layout whose parts can be told: numbers are never written alike, and what stands behind a
number or a list starts with a character that does not occur in it. -/
structure Legible (layout : Layout) (occurs : Char → Bool) : Prop where
  /-- Different numbers are written differently. -/
  number_injective : Function.Injective layout.number
  /-- No number is written as nothing. -/
  number_ne : ∀ n, layout.number n ≠ ""
  /-- Numbers are written with certain characters. -/
  occurs_of_mem : ∀ n, ∀ c ∈ (layout.number n).toList, occurs c = true
  /-- The program counter is closed. -/
  behindPc : ∃ c ∈ layout.behindPc.toList.head?, occurs c = false
  /-- The register is closed. -/
  behindRegister : ∃ c ∈ layout.behindRegister.toList.head?, occurs c = false
  /-- The values of the stack are closed. -/
  behindStack : ∃ c ∈ layout.behindStack.toList.head?, occurs c = false ∧
    c ∉ layout.separator.toList
  /-- An item of a list is closed. -/
  separator : ∃ c ∈ layout.separator.toList.head?, occurs c = false ∧ c ∉ layout.mark.toList
  /-- An address is closed. -/
  mark : ∃ c ∈ layout.mark.toList.head?, occurs c = false

namespace Legible

variable {layout : Layout} {occurs : Char → Bool}

/-- A character that is not used for numbers does not occur in one. -/
theorem notMem_number (hlayout : layout.Legible occurs) {c : Char} (hc : occurs c = false)
    (n : Int) : c ∉ (layout.number n).toList := by
  intro hmem
  rw [hlayout.occurs_of_mem n c hmem] at hc
  cases hc

/-- A number is closed by a character that occurs in no number. -/
theorem closes_number (hlayout : layout.Legible occurs) {delimiter : String}
    (h : ∃ c ∈ delimiter.toList.head?, occurs c = false) (n : Int) :
    Text.Closes delimiter (layout.number n) := by
  obtain ⟨c, hhead, hc⟩ := h
  exact ⟨c, hhead, hlayout.notMem_number hc n⟩

/-- A value in a list is not empty, and it is closed. -/
theorem value_closed (hlayout : layout.Legible occurs) (n : Int) :
    layout.number n ≠ "" ∧ Text.Closes layout.separator (layout.number n) := by
  obtain ⟨c, hhead, hc, _⟩ := hlayout.separator
  exact ⟨hlayout.number_ne n, hlayout.closes_number ⟨c, hhead, hc⟩ n⟩

/-- A cell in a list is not empty, and it is closed. -/
theorem cell_closed (hlayout : layout.Legible occurs) (cell : Int × Int) :
    layout.cell cell ≠ "" ∧ Text.Closes layout.separator (layout.cell cell) := by
  obtain ⟨c, hhead, hc, hmark⟩ := hlayout.separator
  refine ⟨fun hempty => ?_, c, hhead, fun hmem => ?_⟩
  · exact hlayout.number_ne cell.2 (String.append_eq_empty_iff.mp hempty).2
  · simp only [Layout.cell, String.toList_append, List.mem_append, hlayout.notMem_number hc, hmark,
      or_self] at hmem

/-- Different cells are written differently. -/
theorem cell_injective (hlayout : layout.Legible occurs) : Function.Injective layout.cell := by
  rintro ⟨address, value⟩ ⟨address', value'⟩ h
  simp only [Layout.cell, String.append_assoc] at h
  obtain ⟨haddress, hvalue⟩ := (hlayout.closes_number hlayout.mark address).eq_of_append_eq
    (hlayout.closes_number hlayout.mark address') h
  rw [hlayout.number_injective haddress, hlayout.number_injective hvalue]

/-- The values of a stack are closed. -/
theorem stack_closed (hlayout : layout.Legible occurs) (values : List Int) :
    Text.Closes layout.behindStack (layout.separator.intercalate (values.map layout.number)) := by
  obtain ⟨c, hhead, hc, hseparator⟩ := hlayout.behindStack
  refine Text.Closes.intercalate ⟨c, hhead, hseparator⟩ fun text htext => ?_
  obtain ⟨n, _, rfl⟩ := List.mem_map.mp htext
  exact hlayout.closes_number ⟨c, hhead, hc⟩ n

end Legible

/-- The items of a list can be told if each of them can. -/
theorem eq_of_intercalate_map_eq {α : Type} {separator : String} {write : α → String}
    (hwrite : Function.Injective write)
    (hclosed : ∀ a, write a ≠ "" ∧ Text.Closes separator (write a)) {items others : List α}
    (h : separator.intercalate (items.map write) = separator.intercalate (others.map write)) :
    items = others := by
  have hitems (list : List α) :
      ∀ text ∈ list.map write, text ≠ "" ∧ Text.Closes separator text := by
    intro text htext
    obtain ⟨a, _, rfl⟩ := List.mem_map.mp htext
    exact hclosed a
  exact hwrite.list_map (Text.eq_of_intercalate_eq (hitems items) (hitems others) h)

/-- In a legible layout the texts of two states are equal exactly if the states agree. -/
theorem Legible.write_eq_iff {layout : Layout} {occurs : Char → Bool}
    (hlayout : layout.Legible occurs) {s t : State} :
    layout.write s = layout.write t ↔ s.agrees t = true := by
  simp only [State.agrees, Stack.agrees, Bool.and_eq_true, beq_iff_eq,
    Memory.agrees_iff_entries_eq, and_assoc]
  constructor
  · intro h
    -- The parts are read off from left to right, each up to the text that closes it.
    simp only [write, String.append_assoc] at h
    have hafterOpening := (String.append_right_inj layout.opening).mp h
    obtain ⟨hpc, hafterPc⟩ := (hlayout.closes_number hlayout.behindPc s.pc).eq_of_append_eq
      (hlayout.closes_number hlayout.behindPc t.pc) hafterOpening
    obtain ⟨hregister, hafterRegister⟩ :=
      (hlayout.closes_number hlayout.behindRegister s.register).eq_of_append_eq
        (hlayout.closes_number hlayout.behindRegister t.register) hafterPc
    obtain ⟨hstack, hafterStack⟩ := (hlayout.stack_closed s.stack.toList).eq_of_append_eq
      (hlayout.stack_closed t.stack.toList) hafterRegister
    have hmemory := (String.append_left_inj layout.closing).mp hafterStack
    have hvalues := eq_of_intercalate_map_eq hlayout.number_injective hlayout.value_closed hstack
    exact ⟨hlayout.number_injective hpc, hlayout.number_injective hregister,
      List.reverse_injective hvalues,
      eq_of_intercalate_map_eq hlayout.cell_injective hlayout.cell_closed hmemory⟩
  · rintro ⟨hpc, hregister, hvalues, hentries⟩
    have hlist : s.stack.toList = t.stack.toList := congrArg List.reverse hvalues
    rw [write, write, hpc, hregister, hlist, hentries]

/-- A character that is used neither for numbers nor in the fixed texts does not occur. -/
theorem Legible.notMem_write {layout : Layout} {occurs : Char → Bool}
    (hlayout : layout.Legible occurs) {c : Char} (hc : occurs c = false)
    (hfixed : ∀ text ∈ [layout.opening, layout.behindPc, layout.behindRegister, layout.behindStack,
      layout.closing, layout.separator, layout.mark], c ∉ text.toList) (state : State) :
    c ∉ (layout.write state).toList := by
  simp only [List.forall_mem_cons] at hfixed
  obtain ⟨hopening, hpc, hregister, hstack, hclosing, hseparator, hmark, _⟩ := hfixed
  have hnumber := hlayout.notMem_number hc
  have hvalues : c ∉
      (layout.separator.intercalate (state.stack.toList.map layout.number)).toList := by
    refine Text.notMem_intercalate hseparator fun item hitem => ?_
    obtain ⟨n, _, rfl⟩ := List.mem_map.mp hitem
    exact hnumber n
  have hcells : c ∉
      (layout.separator.intercalate (state.memory.entries.map layout.cell)).toList := by
    refine Text.notMem_intercalate hseparator fun item hitem => ?_
    obtain ⟨entry, _, rfl⟩ := List.mem_map.mp hitem
    simp only [cell, String.toList_append, List.mem_append, hnumber, hmark, or_self,
      not_false_eq_true]
  simp only [write, String.toList_append, List.mem_append, hopening, hnumber, hpc, hregister,
    hvalues, hstack, hcells, hclosing, or_self, not_false_eq_true]

/-- The layout of a line of text. -/
def line : Layout where
  opening := "pc="
  behindPc := " reg="
  behindRegister := " stack=["
  behindStack := "] memory=\x7b"
  closing := "\x7d"
  separator := ", "
  mark := ": "
  number := toString

/-- The layout of a JSON object. -/
def json : Layout where
  opening := "\x7b\"pc\":"
  behindPc := ",\"register\":"
  behindRegister := ",\"stack\":["
  behindStack := "],\"memory\":\x7b"
  closing := "\x7d\x7d"
  separator := ","
  mark := ":"
  number := Text.quoted

/-- A line of text is legible. -/
theorem legible_line : line.Legible Text.isNumeral where
  number_injective := Text.toString_injective
  number_ne := Text.toString_ne_empty
  occurs_of_mem _ _ := Text.isNumeral_of_mem_toString
  behindPc := ⟨' ', rfl, rfl⟩
  behindRegister := ⟨' ', rfl, rfl⟩
  behindStack := ⟨']', rfl, rfl, by decide⟩
  separator := ⟨',', rfl, rfl, by decide⟩
  mark := ⟨':', rfl, rfl⟩

/-- A JSON object is legible. -/
theorem legible_json : json.Legible fun c => Text.isNumeral c || c == '"' where
  number_injective m n h := by
    have hquoted := (String.append_left_inj "\"").mp h
    exact Text.toString_injective ((String.append_right_inj "\"").mp hquoted)
  number_ne n hempty := by
    have hquote := (String.append_eq_empty_iff.mp hempty).2
    exact absurd hquote (by decide)
  occurs_of_mem n c hc := by
    simp only [json, Text.quoted, String.toList_append, List.mem_append] at hc
    rcases hc with (hquote | hmem) | hquote
    · simp_all
    · simp [Text.isNumeral_of_mem_toString hmem]
    · simp_all
  behindPc := ⟨',', rfl, rfl⟩
  behindRegister := ⟨',', rfl, rfl⟩
  behindStack := ⟨']', rfl, rfl, by decide⟩
  separator := ⟨',', rfl, rfl, by decide⟩
  mark := ⟨':', rfl, rfl⟩

end Layout

namespace Text

/-- A JSON array of items that are written already. -/
def array (items : List String) : String :=
  "[" ++ ",".intercalate items ++ "]"

/-- A JSON object of named values that are written already. -/
def object (members : List (String × String)) : String :=
  "\x7b" ++ ",".intercalate (members.map fun member => "\"" ++ member.1 ++ "\":" ++ member.2) ++
    "\x7d"

end Text

namespace State

/-- The line of text for a state follows its layout. -/
theorem text_eq_write (state : State) : state.text = Layout.line.write state := rfl

/-- The JSON object for a state follows its layout. -/
theorem json_eq_write (state : State) : state.json = Layout.json.write state := rfl

/-- A line of text is one line. -/
theorem newline_notMem_text (state : State) : '\n' ∉ state.text.toList := by
  rw [text_eq_write]
  exact Layout.legible_line.notMem_write rfl (by decide) state

/-- A JSON object takes one line. -/
theorem newline_notMem_json (state : State) : '\n' ∉ state.json.toList := by
  rw [json_eq_write]
  exact Layout.legible_json.notMem_write rfl (by decide) state

/-- A line of text shows exactly what states agree on. -/
theorem text_eq_iff {s t : State} : s.text = t.text ↔ s.agrees t = true := by
  rw [text_eq_write, text_eq_write, Layout.legible_line.write_eq_iff]

/-- A JSON object shows exactly what states agree on. -/
theorem json_eq_iff {s t : State} : s.json = t.json ↔ s.agrees t = true := by
  rw [json_eq_write, json_eq_write, Layout.legible_json.write_eq_iff]

/-- The members of the JSON object of a state. -/
theorem json_eq_object (state : State) :
    state.json = Text.object [("pc", Text.quoted state.pc), ("register", Text.quoted state.register),
      ("stack", Text.array (state.stack.toList.map Text.quoted)),
      ("memory", Text.object (state.memory.entries.map fun cell =>
        (toString cell.1, Text.quoted cell.2)))] := by
  have hcell : Layout.json.cell = fun cell =>
      "\"" ++ toString cell.1 ++ "\":" ++ Text.quoted cell.2 := by
    funext cell
    simp only [Layout.cell, Layout.json, Text.quoted, String.append_assoc]
    rfl
  rw [json_eq_write, Layout.write, hcell]
  simp only [Layout.json, Text.object, Text.array, List.map_map, Function.comp_def, List.map_cons,
    List.map_nil, String.intercalate_cons_cons, String.intercalate_singleton]
  -- The fixed texts are cut in different places, and so they are compared as characters.
  apply String.toList_injective
  simp only [String.toList_append, List.append_assoc]
  rfl

/-- Two states agree exactly if their JSON objects are equal, and exactly if their lines of text
are. The JSON object has its members in a fixed order and the cells by ascending address, and the
capacity of the stack takes no part. -/
theorem agrees_iff_renderings_eq (s t : State) :
    (s.agrees t = true ↔ s.json = t.json) ∧ (s.json = t.json ↔ s.text = t.text) ∧
      s.json = Text.object [("pc", Text.quoted s.pc), ("register", Text.quoted s.register),
        ("stack", Text.array (s.stack.toList.map Text.quoted)),
        ("memory", Text.object (s.memory.entries.map fun cell =>
          (toString cell.1, Text.quoted cell.2)))] ∧
      s.memory.entries.Perm s.memory.cells ∧
      s.memory.entries.Pairwise (fun a b => a.1 < b.1) ∧
      ∀ capacity,
        let resized : State := { s with stack := { s.stack with capacity } }
        resized.agrees t = s.agrees t ∧ t.agrees resized = t.agrees s ∧
          resized.json = s.json ∧ resized.text = s.text :=
  ⟨json_eq_iff.symm, json_eq_iff.trans text_eq_iff.symm, json_eq_object s,
    Memory.entries_perm s.memory, Memory.pairwise_entries s.memory,
    fun _ => ⟨rfl, rfl, rfl, rfl⟩⟩

end State

end WordMachine
