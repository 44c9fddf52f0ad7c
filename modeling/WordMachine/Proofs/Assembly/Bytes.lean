import WordMachine.Command
import WordMachine.Proofs.Assembly.Source

/-!
# From a source text to bytes

A source text becomes bytes in two ways: as a value that may fail, and by the command
that also reports on the lines. Both give the bytes of the assembled program, from
which the program is decoded again, or both give none. A failure names the errors and
leaves the warnings out; the report of the command has them all.
-/

namespace WordMachine.Assembly

/-- The instructions on the lines of a source text can be held by bytes. -/
theorem wellFormed_of_readLines (source : String) :
    Program.WellFormed ((readLines source).filterMap Line.instruction?) := by
  intro inst hinst
  obtain ⟨line, hline, hfound⟩ := List.mem_filterMap.mp hinst
  obtain ⟨text, _, rfl⟩ := List.mem_map.mp hline
  exact Line.wellFormed_of_read (Line.instruction?_eq_some_iff.mp hfound)

/-- A text has no program if it has an error, and the instructions on its lines otherwise. -/
theorem program_eq (source : String) :
    (ofSource source).program = if (ofSource source).messages.any (·.remark.isError) then none
      else some ((readLines source).filterMap Line.instruction?) := rfl

/-- A source text has an error and no program, or it has no error and a program that can be held
by bytes. -/
theorem ofSource_cases (source : String) :
    ((∃ message ∈ (ofSource source).messages, message.remark.isError = true) ∧
      (ofSource source).program = none) ∨
    ((∀ message ∈ (ofSource source).messages, message.remark.isError = false) ∧
      ∃ program : Program, program.WellFormed ∧ (ofSource source).program = some program) := by
  rw [program_eq]
  cases hany : (ofSource source).messages.any (·.remark.isError) with
  | true => exact .inl ⟨List.any_eq_true.mp hany, rfl⟩
  | false =>
    refine .inr ⟨fun message hmessage => ?_, _, wellFormed_of_readLines source, rfl⟩
    exact Bool.eq_false_iff.mpr (List.any_eq_false.mp hany message hmessage)

/-- There is a program exactly if no message on the source text is an error. -/
theorem isSome_program_iff (source : String) :
    (ofSource source).program.isSome ↔
      ∀ message ∈ (ofSource source).messages, message.remark.isError = false := by
  rcases ofSource_cases source with
    ⟨⟨message, hmessage, hfatal⟩, hnone⟩ | ⟨hharmless, program, _, hsome⟩
  · rw [hnone]
    constructor
    · exact fun h => nomatch h
    · intro hharmless
      rw [hharmless message hmessage] at hfatal
      cases hfatal
  · rw [hsome]
    exact ⟨fun _ => hharmless, fun _ => rfl⟩

/-- Without a program there are no bytes, and the messages say why. -/
theorem bytes_of_program_eq_none {source : String} (h : (ofSource source).program = none) :
    bytesOfSource source = .error (ofSource source).messages ∧
      Command.assemble source =
        (none, { code := 1, errors := (ofSource source).messages.map Command.messageLine }) := by
  constructor
  · simp only [bytesOfSource, h]
  · simp only [Command.assemble, h]

/-- The bytes of a source text are those of its program. -/
theorem bytes_of_program_eq_some {source : String} {program : Program}
    (h : (ofSource source).program = some program) :
    bytesOfSource source = .ok program.encode ∧
      Command.assemble source = (some program.encode,
        { errors := (ofSource source).messages.map Command.messageLine }) := by
  constructor
  · simp only [bytesOfSource, h]
  · simp only [Command.assemble, h]

/-- The command reports all messages, whether or not there is a program. -/
theorem errors_assemble (source : String) :
    (Command.assemble source).2.errors =
      (ofSource source).messages.map Command.messageLine := by
  cases h : (ofSource source).program with
  | none => rw [(bytes_of_program_eq_none h).2]
  | some program => rw [(bytes_of_program_eq_some h).2]

/-- The messages on a source text are in the order of its lines. -/
theorem pairwise_messages (source : String) :
    (ofSource source).messages.Pairwise (·.line < ·.line) :=
  pairwise_messagesFrom 1 (readLines source)

/-- The two ways from a source text to bytes agree, and decoding leads back. Without an error
they give the same bytes, which are decoded as the assembled program. With an error there is no
program, there are no bytes, and the failure names the errors and nothing else. The report of
the command has every message. Errors and messages are in the order of the lines. -/
theorem bytes_agree (source : String) :
    ((∀ message ∈ (ofSource source).messages, message.remark.isError = false) →
      ∃ program bytes, (ofSource source).program = some program ∧
        bytesOfSource source = .ok bytes ∧ (Command.assemble source).1 = some bytes ∧
        Program.decode bytes = .ok program) ∧
    ((∃ message ∈ (ofSource source).messages, message.remark.isError = true) →
      (ofSource source).program = none ∧ (Command.assemble source).1 = none ∧
      ∃ messages, ∃ errors : List Message, bytesOfSource source = .error messages ∧
        failureText messages = "Assembly failed: " ++ ", ".intercalate
          (errors.map fun error => "line " ++ toString error.line ++ ": " ++ error.remark.text) ∧
        (∀ error, error ∈ errors ↔
          error ∈ (ofSource source).messages ∧ error.remark.isError = true) ∧
        errors.Pairwise (·.line < ·.line)) ∧
    (Command.assemble source).2.errors = ((ofSource source).messages.map fun message =>
      "line " ++ toString message.line ++ ": " ++
        (if message.remark.isError then "error" else "warning") ++ ": " ++ message.remark.text) ∧
    (ofSource source).messages.Pairwise (·.line < ·.line) := by
  have hordered := pairwise_messages source
  refine ⟨fun hharmless => ?_, fun herror => ?_, errors_assemble source, hordered⟩
  · rcases ofSource_cases source with ⟨⟨message, hmessage, hfatal⟩, _⟩ | ⟨_, program, hwell, hsome⟩
    · rw [hharmless message hmessage] at hfatal
      cases hfatal
    · obtain ⟨hbytes, hcommand⟩ := bytes_of_program_eq_some hsome
      exact ⟨program, _, hsome, hbytes, congrArg Prod.fst hcommand, hwell.decode_encode⟩
  · rcases ofSource_cases source with ⟨_, hnone⟩ | ⟨hharmless, _⟩
    · obtain ⟨hbytes, hcommand⟩ := bytes_of_program_eq_none hnone
      exact ⟨hnone, congrArg Prod.fst hcommand, _, _, hbytes, rfl, fun error => List.mem_filter,
        hordered.filter _⟩
    · obtain ⟨message, hmessage, hfatal⟩ := herror
      rw [hharmless message hmessage] at hfatal
      cases hfatal

/-- A reserved operation does not keep a source text from being a program, and it is not named
among the errors of another one. -/
theorem bytes_agree_of_remarks :
    ((∀ message ∈ (ofSource "read ; later\nset 0x10").messages,
        message.remark.isError = false) ∧
      ∃ program bytes, (ofSource "read ; later\nset 0x10").program = some program ∧
        bytesOfSource "read ; later\nset 0x10" = .ok bytes ∧
        (Command.assemble "read ; later\nset 0x10").1 = some bytes ∧
        Program.decode bytes = .ok program) ∧
    (∃ message ∈ (ofSource "READ\nFOO 1\nADD 2").messages, message.remark.isError = true) ∧
      (ofSource "READ\nFOO 1\nADD 2").program = none ∧
      (Command.assemble "READ\nFOO 1\nADD 2").1 = none ∧
      ∃ messages, bytesOfSource "READ\nFOO 1\nADD 2" = .error messages ∧
        failureText messages =
          "Assembly failed: line 2: Unknown instruction 'FOO', line 3: ADD takes no operands" := by
  have hharmless : ∀ message ∈ (ofSource "read ; later\nset 0x10").messages,
      message.remark.isError = false := by
    decide
  have herror : ∃ message ∈ (ofSource "READ\nFOO 1\nADD 2").messages,
      message.remark.isError = true := by
    decide
  obtain ⟨hnone, hcommand, messages, _, hbytes, _⟩ :=
    (bytes_agree "READ\nFOO 1\nADD 2").2.1 herror
  refine ⟨⟨hharmless, (bytes_agree "read ; later\nset 0x10").1 hharmless⟩, herror, hnone,
    hcommand, messages, hbytes, ?_⟩
  obtain rfl : (ofSource "READ\nFOO 1\nADD 2").messages = messages :=
    Except.error.inj ((bytes_of_program_eq_none hnone).1.symm.trans hbytes)
  decide

end WordMachine.Assembly
