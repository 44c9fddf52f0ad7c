import WordMachine.Assembly
import WordMachine.Proofs.Assembly.Line

/-!
# Source texts and the programs in them

The remarks on the lines of a source text come in the order of the lines, one for a
line at most. A program that is written down one instruction a line is assembled into
itself, and all that is remarked on are its reserved operations, each on the line of
its own.
-/

namespace WordMachine

/-- The source text of a program, with one instruction on each line. -/
def Program.source (program : Program) : String :=
  "\n".intercalate (program.map Instruction.text)

namespace Assembly

/-- The remarks are those on the lines, which are numbered in a row. -/
theorem mem_messagesFrom_iff {first : Nat} {lines : List Line} {message : Message} :
    message ∈ messagesFrom first lines ↔
      ∃ i line, lines[i]? = some line ∧ line.remark? = some message.remark ∧
        message.line = first + i := by
  simp only [messagesFrom, List.mem_filterMap, Prod.exists, Option.map_eq_some_iff,
    List.mem_zipIdx_iff_le_and_getElem?_sub]
  constructor
  · rintro ⟨line, number, ⟨hle, hline⟩, remark, hremark, rfl⟩
    exact ⟨number - first, line, hline, hremark, (Nat.add_sub_of_le hle).symm⟩
  · rintro ⟨i, line, hline, hremark, hnumber⟩
    refine ⟨line, first + i, ⟨by omega, ?_⟩, message.remark, hremark, ?_⟩
    · rw [Nat.add_sub_cancel_left]
      exact hline
    · rw [← hnumber]

/-- The remarks are in the order of the lines, and no line has more than one. -/
theorem pairwise_messagesFrom (first : Nat) (lines : List Line) :
    (messagesFrom first lines).Pairwise (·.line < ·.line) := by
  have hnumbers : (lines.zipIdx first).Pairwise (·.2 < ·.2) := by
    rw [← List.pairwise_map (f := Prod.snd) (R := (· < ·)), List.zipIdx_map_snd]
    exact List.pairwise_lt_range' 1
  refine List.pairwise_filterMap.mpr (hnumbers.imp ?_)
  rintro ⟨line, number⟩ ⟨line', number'⟩ hlt message hmessage message' hmessage'
  obtain ⟨remark, _, rfl⟩ := Option.map_eq_some_iff.mp hmessage
  obtain ⟨remark', _, rfl⟩ := Option.map_eq_some_iff.mp hmessage'
  exact hlt

/-- Texts of one line each are read line by line when they are written below each other. -/
theorem readLines_intercalate {texts : List String} (hne : texts ≠ [])
    (htexts : ∀ text ∈ texts, '\n' ∉ text.toList) :
    readLines ("\n".intercalate texts) = texts.map fun text => Line.read text.toList := by
  rw [readLines, Text.split_intercalate hne htexts, List.map_map]
  rfl

/-- A program that is written down is read as its instructions. Without any instruction there is
still a line, but it is blank. -/
theorem readLines_source {program : Program} (hprogram : program.WellFormed) :
    readLines program.source =
      if program = [] then [.blank] else program.map .instruction := by
  by_cases hnil : program = []
  · rw [if_pos hnil, hnil]
    rfl
  · have hlines : ∀ text ∈ program.map Instruction.text, '\n' ∉ text.toList := by
      rintro text htext
      obtain ⟨inst, hinst, rfl⟩ := List.mem_map.mp htext
      obtain ⟨hknown, hrange⟩ := hprogram inst hinst
      exact (hknown.not_mem_text hrange).1
    rw [if_neg hnil, Program.source, readLines_intercalate (by simpa using hnil) hlines,
      List.map_map]
    refine List.map_congr_left fun inst hinst => ?_
    obtain ⟨hknown, hrange⟩ := hprogram inst hinst
    exact hknown.read_text hrange

/-- Nothing but a reserved operation is remarked on in an instruction. -/
theorem Line.remark?_instruction {inst : Instruction} {remark : Remark} :
    (Line.instruction inst).remark? = some remark ↔
      ∃ op, inst = .plain (.reserved op) ∧ remark = .reserved op := by
  constructor
  · intro h
    unfold Line.remark? at h
    split at h
    · rename_i heq
      cases heq
    · rename_i op heq
      obtain rfl := Line.instruction.inj heq
      exact ⟨op, rfl, (Option.some.inj h).symm⟩
    · cases h
  · rintro ⟨op, rfl, rfl⟩
    rfl

/-- Only on an instruction is there one to be found. -/
theorem Line.instruction?_eq_some_iff {line : Line} {inst : Instruction} :
    line.instruction? = some inst ↔ line = .instruction inst := by
  cases line <;> simp [Line.instruction?]

/-- There is a remark on a problem and on a reserved operation, and on nothing else. -/
theorem Line.remark?_eq_some_iff {line : Line} {remark : Remark} :
    line.remark? = some remark ↔
      (∃ cause, line = .problem cause ∧ remark = .problem cause) ∨
        ∃ op, line = .instruction (.plain (.reserved op)) ∧ remark = .reserved op := by
  cases line with
  | blank => simp [Line.remark?]
  | instruction inst => simp [Line.remark?_instruction]
  | problem cause => simp [Line.remark?, eq_comm]

/-- The remarks on instructions in a row are about the reserved operations among them. -/
theorem mem_messagesFrom_map_instruction {first : Nat} {program : Program} {message : Message} :
    message ∈ messagesFrom first (program.map .instruction) ↔
      ∃ i op, program[i]? = some (.plain (.reserved op)) ∧
        message = { line := first + i, remark := .reserved op } := by
  rw [mem_messagesFrom_iff]
  constructor
  · rintro ⟨i, line, hline, hremark, hnumber⟩
    rw [List.getElem?_map] at hline
    obtain ⟨inst, hinst, rfl⟩ := Option.map_eq_some_iff.mp hline
    obtain ⟨op, rfl, hop⟩ := Line.remark?_instruction.mp hremark
    refine ⟨i, op, hinst, ?_⟩
    rw [← hnumber, ← hop]
  · rintro ⟨i, op, hinst, rfl⟩
    refine ⟨i, .instruction (.plain (.reserved op)), ?_, rfl, rfl⟩
    rw [List.getElem?_map, hinst]
    rfl

/-- Instructions in a row are assembled into themselves. -/
theorem ofLines_map_instruction (program : Program) :
    ofLines (program.map .instruction) =
      { program := some program, messages := messagesFrom 1 (program.map .instruction) } := by
  have hharmless : (messagesFrom 1 (program.map .instruction)).any (·.remark.isError) = false := by
    refine List.any_eq_false.mpr fun message hmessage => ?_
    obtain ⟨i, op, _, rfl⟩ := mem_messagesFrom_map_instruction.mp hmessage
    exact Bool.false_ne_true
  have hall : (program.map Line.instruction).filterMap Line.instruction? = program := by
    rw [List.filterMap_map]
    exact List.filterMap_some
  simp only [ofLines, hharmless, hall, Bool.false_eq_true, if_false]

/-- A program that is written down is assembled like its instructions in a row. -/
theorem ofSource_source {program : Program} (hprogram : program.WellFormed) :
    ofSource program.source = ofLines (program.map .instruction) := by
  rw [ofSource, readLines_source hprogram]
  by_cases hnil : program = []
  · rw [if_pos hnil, hnil]
    rfl
  · rw [if_neg hnil]

/-- A program that is written down one instruction a line is assembled into itself. There is
one warning for each reserved operation, on its own line and in the order of the lines, and
nothing else is remarked on. -/
theorem assembles_source {program : Program} (hprogram : program.WellFormed) :
    (ofSource program.source).program = some program ∧
      (∀ message, message ∈ (ofSource program.source).messages ↔
        ∃ i op, program[i]? = some (.plain (.reserved op)) ∧
          message = { line := i + 1, remark := .reserved op }) ∧
      (ofSource program.source).messages.Pairwise (·.line < ·.line) ∧
      ∀ message ∈ (ofSource program.source).messages, message.remark.isError = false := by
  rw [ofSource_source hprogram, ofLines_map_instruction]
  have hmessages (message : Message) :
      message ∈ messagesFrom 1 (program.map .instruction) ↔
        ∃ i op, program[i]? = some (.plain (.reserved op)) ∧
          message = { line := i + 1, remark := .reserved op } := by
    simp only [mem_messagesFrom_map_instruction, Nat.add_comm 1]
  refine ⟨rfl, hmessages, pairwise_messagesFrom _ _, fun message hmessage => ?_⟩
  obtain ⟨i, op, _, rfl⟩ := (hmessages message).mp hmessage
  rfl

/-- The largest word is read again from its twenty digits, and the reserved operation behind it
is remarked on. The empty text is the empty program. -/
theorem assembles_source_of_reserved :
    Program.WellFormed [.set 18446744073709551615, .plain (.reserved .jumpIf)] ∧
      (ofSource "SET 18446744073709551615\nJUMPIF").program =
        some [.set 18446744073709551615, .plain (.reserved .jumpIf)] ∧
      (ofSource "SET 18446744073709551615\nJUMPIF").messages =
        [{ line := 2, remark := .reserved .jumpIf }] ∧
      Program.WellFormed [] ∧ (ofSource "").program = some [] := by
  have hprogram : Program.WellFormed
      [.set 18446744073709551615, .plain (.reserved .jumpIf)] := by
    decide
  have hempty : Program.WellFormed [] := by decide
  exact ⟨hprogram, (assembles_source hprogram).1, by decide, hempty, (assembles_source hempty).1⟩

end Assembly

end WordMachine
