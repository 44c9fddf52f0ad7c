import WordMachine.Proofs.Assembly.Bytes

/-!
# Source texts below each other

No line of a source text has any bearing on another one. A text that is written below
another is therefore assembled as it would be alone, except that its lines are numbered
from where the other one ends: the messages follow those on the other text, and so do
the program and its bytes. If one of the two texts has an error, both together have it.
-/

namespace WordMachine.Assembly

/-- The message about a line that stands a number of lines further down. -/
def Message.moveDown (message : Message) (count : Nat) : Message :=
  { message with line := message.line + count }

/-- The lines of two texts below each other are those of the one and of the other. -/
theorem readLines_append (first second : String) :
    readLines (first ++ "\n" ++ second) = readLines first ++ readLines second := by
  have htext : (first ++ "\n" ++ second).toList = first.toList ++ '\n' :: second.toList := by
    simp
  rw [readLines, htext, Text.split_append_cons (by decide), List.map_append]
  rfl

/-- A text has one line more than it has line ends. -/
theorem length_readLines (source : String) :
    (readLines source).length = 1 + source.toList.count '\n' := by
  rw [readLines, List.length_map, Text.length_split, Nat.add_comm, List.count]
  congr 2

/-- The remarks on two lists of lines in a row are those on the one and on the other. -/
theorem messagesFrom_append (start : Nat) (first second : List Line) :
    messagesFrom start (first ++ second) =
      messagesFrom start first ++ messagesFrom (start + first.length) second := by
  rw [messagesFrom, List.zipIdx_append, List.filterMap_append]
  rfl

/-- Lines that stand further down get the same remarks there. -/
theorem messagesFrom_add (start count : Nat) (lines : List Line) :
    messagesFrom (start + count) lines = (messagesFrom start lines).map (·.moveDown count) := by
  have hnumbers : lines.zipIdx (start + count) =
      (lines.zipIdx start).map (Prod.map id (· + count)) := by
    rw [Nat.add_comm, List.map_snd_add_zipIdx_eq_zipIdx]
  rw [messagesFrom, messagesFrom, hnumbers, List.filterMap_map, List.map_filterMap]
  congr 1
  funext numbered
  simp only [Function.comp_apply, Option.map_map]
  rfl

/-- The remarks on a text below another one are those that it gets alone, moved down. -/
theorem messages_append (first second : String) :
    (ofSource (first ++ "\n" ++ second)).messages = (ofSource first).messages ++
      (ofSource second).messages.map (·.moveDown (1 + first.toList.count '\n')) := by
  have hmessages (source : String) :
      (ofSource source).messages = messagesFrom 1 (readLines source) := rfl
  simp only [hmessages]
  rw [readLines_append, messagesFrom_append, messagesFrom_add, length_readLines]

/-- Two texts below each other are a program if both of them are, and its instructions are those of
the one and of the other. -/
theorem program_append (first second : String) :
    (ofSource (first ++ "\n" ++ second)).program = do
      let program ← (ofSource first).program
      let program' ← (ofSource second).program
      return program ++ program' := by
  -- The numbers of the lines play no part in whether there is an error.
  have hmoved (count : Nat) (messages : List Message) :
      (messages.map (·.moveDown count)).any (·.remark.isError) =
        messages.any (·.remark.isError) := by
    rw [List.any_map]
    rfl
  rw [program_eq, program_eq first, program_eq second, messages_append, List.any_append, hmoved,
    readLines_append, List.filterMap_append]
  cases (ofSource first).messages.any (·.remark.isError) with
  | true => rfl
  | false =>
    cases (ofSource second).messages.any (·.remark.isError) with
    | true => rfl
    | false => rfl

/-- There are no bytes exactly without a program. -/
theorem exists_bytes_eq_error_iff (source : String) :
    (∃ messages, bytesOfSource source = .error messages) ↔ (ofSource source).program = none := by
  cases hprogram : (ofSource source).program with
  | none => simp [(bytes_of_program_eq_none hprogram).1]
  | some program => simp [(bytes_of_program_eq_some hprogram).1]

/-- The bytes of a text are those of a program. -/
theorem bytes_eq_ok_iff {source : String} {bytes : List UInt8} :
    bytesOfSource source = .ok bytes ↔
      ∃ program : Program, (ofSource source).program = some program ∧ program.encode = bytes := by
  cases hprogram : (ofSource source).program with
  | none => simp [(bytes_of_program_eq_none hprogram).1]
  | some program => simp [(bytes_of_program_eq_some hprogram).1]

/-- Two texts below each other are assembled like each of them alone. The messages are those on the
first text and then those on the second, moved down by the number of lines of the first. There is a
program exactly if both texts have one, and it is then the one program followed by the other. The
same holds of the bytes. -/
theorem assembles_piecewise (first second : String) :
    (ofSource (first ++ "\n" ++ second)).messages = (ofSource first).messages ++
      (ofSource second).messages.map (·.moveDown (1 + first.toList.count '\n')) ∧
    ((ofSource (first ++ "\n" ++ second)).program.isSome ↔
      (ofSource first).program.isSome ∧ (ofSource second).program.isSome) ∧
    (∀ program program', (ofSource first).program = some program →
      (ofSource second).program = some program' →
      (ofSource (first ++ "\n" ++ second)).program = some (program ++ program')) ∧
    (∀ bytes bytes', bytesOfSource first = .ok bytes → bytesOfSource second = .ok bytes' →
      bytesOfSource (first ++ "\n" ++ second) = .ok (bytes ++ bytes')) ∧
    ((∃ messages, bytesOfSource (first ++ "\n" ++ second) = .error messages) ↔
      (∃ messages, bytesOfSource first = .error messages) ∨
        ∃ messages, bytesOfSource second = .error messages) := by
  have hprogram := program_append first second
  refine ⟨messages_append first second, ?_, ?_, ?_, ?_⟩
  · rw [hprogram]
    cases (ofSource first).program <;> cases (ofSource second).program <;> simp
  · intro program program' hfirst hsecond
    rw [hprogram, hfirst, hsecond]
    rfl
  · intro bytes bytes' hfirst hsecond
    obtain ⟨program, hprogram₁, rfl⟩ := bytes_eq_ok_iff.mp hfirst
    obtain ⟨program', hprogram₂, rfl⟩ := bytes_eq_ok_iff.mp hsecond
    refine bytes_eq_ok_iff.mpr ⟨program ++ program', ?_, Program.encode_append program program'⟩
    rw [hprogram, hprogram₁, hprogram₂]
    rfl
  · simp only [exists_bytes_eq_error_iff]
    rw [hprogram]
    cases (ofSource first).program <;> cases (ofSource second).program <;> simp

/-- The line end at the end of the first text makes a blank line, so the first line of the second
text is the third of both. An error above or below leaves no bytes. -/
theorem assembles_piecewise_of_blank_line :
    (ofSource "push ; a\n").program = some [.plain .push] ∧
      (ofSource "read\nset 7").program = some [.plain (.reserved .read), .set 7] ∧
      (ofSource "push ; a\n\nread\nset 7").program =
        some [.plain .push, .plain (.reserved .read), .set 7] ∧
      (ofSource "push ; a\n\nread\nset 7").messages = [{ line := 3, remark := .reserved .read }] ∧
      (∃ messages, bytesOfSource "set" = .error messages) ∧
      (∃ messages, bytesOfSource "push ; a\n\nset" = .error messages) ∧
      ∃ messages, bytesOfSource "set\nread\nset 7" = .error messages := by
  have hfirst : (ofSource "push ; a\n").program = some [.plain .push] := by decide
  have hsecond : (ofSource "read\nset 7").program =
      some [.plain (.reserved .read), .set 7] := by
    decide
  have herror : ∃ messages, bytesOfSource "set" = .error messages := ⟨_, rfl⟩
  obtain ⟨hmessages, _, hprogram, _⟩ := assembles_piecewise "push ; a\n" "read\nset 7"
  refine ⟨hfirst, hsecond, hprogram _ _ hfirst hsecond, hmessages.trans (by decide), herror, ?_, ?_⟩
  · exact (assembles_piecewise "push ; a\n" "set").2.2.2.2.mpr (.inr herror)
  · exact (assembles_piecewise "set" "read\nset 7").2.2.2.2.mpr (.inl herror)

end WordMachine.Assembly
