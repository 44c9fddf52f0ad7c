import WordMachine.CommandLine.Request
import WordMachine.Proofs.Assembly.Bytes
import WordMachine.Proofs.Command.Run
import WordMachine.Proofs.Files.Tree
import WordMachine.Proofs.Rendering
import WordMachine.Proofs.Text.Utf8

/-!
# Files are written on success only

A request writes one file at most, and only if its exit code is zero. The last state of a
program that has run without a fault is one line, which goes into the file that is named,
or else to the console behind the trace. Bytes that cannot be decoded, a program that
fails and a source text with an error leave the tree of files as it was.
-/

namespace WordMachine

namespace Command

variable {bytes : List UInt8} {options : RunOptions}

/-- The lines of the trace of a run: the first state, and the state after each instruction. -/
def tracedLines (program : Program) (result : Result) (options : RunOptions) : List String :=
  if options.trace then
    State.text {} :: (List.range result.steps).map fun k =>
      (program.stateAfter (k + 1)).stepText (program.instructionAfter k)
  else []

/-- The line that shows the last state of a run. -/
def lastLine (result : Result) (options : RunOptions) : String :=
  if options.json then result.state.json else result.state.text

/-- What there is to show of the program in some bytes: the lines of its trace, and the line for its
last state unless it fails. -/
inductive Shows (bytes : List UInt8) (options : RunOptions) : List String → Option String → Prop
  /-- Nothing is shown of bytes that cannot be decoded. -/
  | undecodable {error : DecodeError} (hdecode : Program.decode bytes = .error error) :
      Shows bytes options [] none
  /-- A program that fails is traced up to there. -/
  | faulted {program : Program} {result : Result} {fault : Fault}
      (hdecode : Program.decode bytes = .ok program) (hends : program.Ends {} result)
      (houtcome : result.outcome = .faulted fault) :
      Shows bytes options (tracedLines program result options) none
  /-- A program that ends without a fault has a last state. -/
  | ended {program : Program} {result : Result}
      (hdecode : Program.decode bytes = .ok program) (hends : program.Ends {} result)
      (houtcome : result.outcome = .halted ∨ result.outcome = .endOfProgram) :
      Shows bytes options (tracedLines program result options) (some (lastLine result options))

/-- The last state takes one line. -/
theorem Shows.newline_notMem {traced : List String} {last : Option String}
    (h : Shows bytes options traced last) : ∀ line ∈ last, '\n' ∉ line.toList := by
  intro line hline
  cases h with
  | undecodable => cases hline
  | faulted => cases hline
  | @ended program result =>
    obtain rfl := Option.some.inj hline
    unfold lastLine
    split
    · exact result.state.newline_notMem_json
    · exact result.state.newline_notMem_text

/-- A report that tells what there is to show, with the exit code that goes with it. -/
structure Report.Tells (report : Report) (traced : List String) (last : Option String) : Prop where
  /-- The trace is reported. -/
  traced_eq : report.traced = traced
  /-- The last state is the only output. -/
  out_eq : report.out = last.toList
  /-- Without a last state the command fails. -/
  code_eq : report.code = if last.isSome then 0 else 1

/-- The report on a run that ends tells what there is to show of it. -/
theorem exists_tells_endReport {program : Program} {result : Result}
    (hdecode : Program.decode bytes = .ok program) (hends : program.Ends {} result)
    (options : RunOptions) :
    ∃ traced last, Shows bytes options traced last ∧
      (endReport program result options).Tells traced last := by
  cases houtcome : result.outcome with
  | faulted fault =>
    refine ⟨_, _, .faulted hdecode hends houtcome, rfl, ?_, ?_⟩
    · simp only [endReport, reportResult, houtcome, Option.toList_none]
    · simp only [endReport, reportResult, houtcome]
      rfl
  | halted =>
    refine ⟨_, _, .ended hdecode hends (.inl houtcome), rfl, ?_, ?_⟩
    · simp only [endReport, reportResult, houtcome, Option.toList_some, lastLine]
    · simp only [endReport, reportResult, houtcome]
      rfl
  | endOfProgram =>
    refine ⟨_, _, .ended hdecode hends (.inr houtcome), rfl, ?_, ?_⟩
    · simp only [endReport, reportResult, houtcome, Option.toList_some, lastLine]
    · simp only [endReport, reportResult, houtcome]
      rfl

/-- Bytes that cannot be decoded or whose program ends get a report that tells what there is to
show. -/
theorem exists_tells (hlength : bytes.length ≤ Program.maxLength)
    (hends : (∃ error, Program.decode bytes = .error error) ∨
      ∃ program result, Program.decode bytes = .ok program ∧ program.Ends {} result)
    (options : RunOptions) :
    ∃ report traced last, Shows bytes options traced last ∧ report.Tells traced last ∧
      (∃ fuel, run fuel options bytes = some (.ok report)) ∧
      ∀ fuel answer, run fuel options bytes = some answer → answer = .ok report := by
  rcases hends with ⟨error, hdecode⟩ | ⟨program, result, hdecode, hends⟩
  · have hrun := fun fuel => run_of_decode_eq_error hdecode fuel options
    refine ⟨decodeReport error, [], none, .undecodable hdecode, ⟨rfl, rfl, rfl⟩, ⟨0, hrun 0⟩, ?_⟩
    intro fuel answer hanswer
    exact Option.some.inj (hanswer.symm.trans (hrun fuel))
  · obtain ⟨traced, last, hshows, htells⟩ := exists_tells_endReport hdecode hends options
    exact ⟨_, traced, last, hshows, htells, run_of_ends hlength hdecode hends options⟩

end Command

namespace Assembly

/-- The bytes of an assembled program are decoded as the program again, and there are none exactly
if the program is empty. -/
theorem decode_encode_of_program {source : String} {program : Program}
    (h : (ofSource source).program = some program) :
    Program.decode program.encode = .ok program ∧ (program.encode = [] ↔ program = []) := by
  rcases ofSource_cases source with ⟨_, hnone⟩ | ⟨_, other, hwell, hsome⟩
  · rw [hnone] at h
    cases h
  · obtain rfl := Option.some.inj (hsome.symm.trans h)
    refine ⟨hwell.decode_encode, fun hempty => ?_, fun hempty => ?_⟩
    · have hlength := hwell.length_le
      rw [hempty, List.length_nil] at hlength
      exact List.eq_nil_of_length_eq_zero (Nat.le_zero.mp hlength)
    · rw [hempty]
      rfl

end Assembly

namespace CommandLine

variable {working : Path} {tree : FileTree} {request : Request}

/-- The bytes of a file with a line of text. -/
def lineBytes (line : String) : List UInt8 :=
  (line ++ "\n").toUTF8.toList

namespace Performance

variable {report : Command.Report} {traced : List String} {last : Option String}

/-- With a file named, the console has the trace, and the last state goes into the file. -/
theorem ofReport_of_name (h : report.Tells traced last) {name : String} (hname : name ≠ "") :
    (ofReport report (some name)).code = report.code ∧
      (ofReport report (some name)).stdout = lines traced ∧
      (ofReport report (some name)).output = (last.map lineBytes).map (name, ·) := by
  have hemit : Command.emit report.out (some name) = match last with
      | none => .nothing
      | some line => .file name (line ++ "\n") := by
    rw [h.out_eq]
    cases last with
    | none => rfl
    | some line => simp [Command.emit]
  rw [ofReport, hemit, h.traced_eq]
  cases last with
  | none => exact ⟨rfl, rfl, rfl⟩
  | some line => exact ⟨rfl, rfl, rfl⟩

/-- Without a file, the console has the trace and then the last state. -/
theorem ofReport_of_no_name (h : report.Tells traced last) {output : Option String}
    (houtput : output = none ∨ output = some "") :
    (ofReport report output).code = report.code ∧
      (ofReport report output).stdout = lines (traced ++ last.toList) ∧
      (ofReport report output).output = none := by
  have hemit : Command.emit report.out output = match last with
      | none => .nothing
      | some line => .console (line ++ "\n") := by
    rw [h.out_eq]
    cases last with
    | none => rfl
    | some line => rcases houtput with rfl | rfl <;> simp [Command.emit]
  rw [ofReport, hemit, h.traced_eq]
  cases last with
  | none => exact ⟨rfl, by rw [Option.toList_none, List.append_nil], rfl⟩
  | some line => exact ⟨rfl, by simp [lines, String.join_append], rfl⟩

end Performance

/-- The tree and the performance that a request leads to, whatever the fuel, as soon as it
suffices. -/
def Concludes (working : Path) (tree : FileTree) (request : Request)
    (outcome : FileTree × Performance) : Prop :=
  (∃ fuel, carryOut fuel working tree request = some outcome) ∧
    ∀ fuel other, carryOut fuel working tree request = some other → other = outcome

/-- A request whose file can be read is carried out by performing it and storing its output. -/
theorem carryOut_of_read {bytes : List UInt8}
    (hread : tree.read (working.resolve request.input) = .ok bytes) (fuel : Nat) :
    carryOut fuel working tree request =
      (request.perform fuel bytes).map (store working tree) := by
  simp only [carryOut, hread]

/-- What is performed decides what the request leads to. -/
theorem concludes_of_perform {bytes : List UInt8} {done : Performance}
    (hread : tree.read (working.resolve request.input) = .ok bytes)
    (hsome : ∃ fuel, request.perform fuel bytes = some done)
    (hall : ∀ fuel other, request.perform fuel bytes = some other → other = done) :
    Concludes working tree request (store working tree done) := by
  constructor
  · obtain ⟨fuel, hdone⟩ := hsome
    exact ⟨fuel, by rw [carryOut_of_read hread, hdone, Option.map_some]⟩
  · intro fuel outcome houtcome
    rw [carryOut_of_read hread] at houtcome
    obtain ⟨other, hother, rfl⟩ := Option.map_eq_some_iff.mp houtcome
    rw [hall fuel other hother]

/-- Where nothing is to be written, the tree is as it was. -/
theorem store_of_no_output {done : Performance} (houtput : done.output = none) :
    store working tree done = (tree, done) := by
  simp only [store, houtput]

/-- What is to be written is written where it can be, and nothing else changes. -/
theorem store_of_output {done : Performance} {name : String} {written : Option (List UInt8)}
    (hwritable : tree.Writable (working.resolve name))
    (houtput : done.output = written.map (name, ·)) :
    tree.WrittenTo (working.resolve name) written (store working tree done).1 ∧
      (store working tree done).2 = done := by
  cases written with
  | none =>
    rw [store_of_no_output houtput]
    exact ⟨rfl, rfl⟩
  | some contents =>
    obtain ⟨after, hwrite⟩ := hwritable contents
    have hstore : store working tree done = (after, done) := by
      simp only [store, houtput, Option.map_some, hwrite]
    rw [hstore]
    exact ⟨FileTree.stores_of_write hwrite, rfl⟩

/-- A run of a program is performed by turning the report on it into output. -/
theorem perform_run {path : String} {output : Option String} {options : Command.RunOptions}
    {bytes : List UInt8} {report : Command.Report}
    (hsome : ∃ fuel, Command.run fuel options bytes = some (.ok report))
    (hall : ∀ fuel answer, Command.run fuel options bytes = some answer → answer = .ok report) :
    (∃ fuel, (Request.run path output options).perform fuel bytes =
        some (.ofReport report output)) ∧
      ∀ fuel other, (Request.run path output options).perform fuel bytes = some other →
        other = .ofReport report output := by
  constructor
  · obtain ⟨fuel, hrun⟩ := hsome
    exact ⟨fuel, by rw [Request.perform, hrun, Option.map_some]⟩
  · intro fuel other hother
    obtain ⟨answer, hanswer, rfl⟩ := Option.map_eq_some_iff.mp hother
    rw [hall fuel answer hanswer]

/-- A source text is assembled into a file without anything on the console. The command fails if
there is no program to be written. -/
theorem exists_perform_assemble (source output : String) (bytes : List UInt8) :
    ∃ done : Performance,
      (∀ fuel, (Request.assemble source output).perform fuel bytes = some done) ∧
      done.code = (if (Assembly.ofSource (Text.Utf8.decode bytes)).program.isSome then 0 else 1) ∧
      done.stdout = "" ∧
      done.output = ((Assembly.ofSource (Text.Utf8.decode bytes)).program.map
        Program.encode).map (output, ·) := by
  cases hprogram : (Assembly.ofSource (Text.Utf8.decode bytes)).program with
  | none =>
    have hassemble := (Assembly.bytes_of_program_eq_none hprogram).2
    exact ⟨_, fun _ => by rw [Request.perform, hassemble], rfl, rfl, rfl⟩
  | some program =>
    have hassemble := (Assembly.bytes_of_program_eq_some hprogram).2
    exact ⟨_, fun _ => by rw [Request.perform, hassemble], rfl, rfl, rfl⟩

/-- Files are written on success only, whatever the paths, the output and the options. A run writes
the file that is named exactly if its exit code is zero, with one line for the last state; without a
file this line comes behind the trace. A source text is assembled into a file, which is decoded as
the program, exactly if no message on it is an error. Otherwise the exit code is one and the tree is
as it was. Every text is the text of some file. -/
theorem output_only_on_success (working : Path) (tree : FileTree) :
    (∀ path output options bytes, tree.read (working.resolve path) = .ok bytes →
      bytes.length ≤ Program.maxLength →
      ((∃ error, Program.decode bytes = .error error) ∨
        ∃ program result, Program.decode bytes = .ok program ∧ program.Ends {} result) →
      (∀ name, output = some name → name ≠ "" → tree.Writable (working.resolve name)) →
      ∃ after done traced last, Concludes working tree (.run path output options) (after, done) ∧
        Command.Shows bytes options traced last ∧ (∀ line ∈ last, '\n' ∉ line.toList) ∧
        done.code = (if last.isSome then 0 else 1) ∧
        (∀ name, output = some name → name ≠ "" →
          done.stdout = Performance.lines traced ∧
          tree.WrittenTo (working.resolve name) (last.map lineBytes) after) ∧
        (output = none ∨ output = some "" →
          done.stdout = Performance.lines (traced ++ last.toList) ∧ after = tree)) ∧
    (∀ source output bytes, tree.read (working.resolve source) = .ok bytes →
      tree.Writable (working.resolve output) →
      let assembly := Assembly.ofSource (Text.Utf8.decode bytes)
      ∃ after done written,
        (∀ fuel, carryOut fuel working tree (.assemble source output) = some (after, done)) ∧
        tree.WrittenTo (working.resolve output) written after ∧
        done.code = (if written.isSome then 0 else 1) ∧ done.stdout = "" ∧
        (written.isSome ↔ ∀ message ∈ assembly.messages, message.remark.isError = false) ∧
        ∀ contents, written = some contents →
          ∃ program, assembly.program = some program ∧ Program.decode contents = .ok program ∧
            (contents = [] ↔ program = [])) ∧
    ∀ text : String, Text.Utf8.decode text.toUTF8.toList = text := by
  refine ⟨fun path output options bytes hread hlength hends hwritable => ?_,
    fun source output bytes hread hwritable => ?_, Text.Utf8.decode_toUTF8⟩
  · obtain ⟨report, traced, last, hshows, htells, hsome, hall⟩ :=
      Command.exists_tells hlength hends options
    obtain ⟨hperform, hperforms⟩ := perform_run hsome hall
    let outcome := store working tree (.ofReport report output)
    refine ⟨outcome.1, outcome.2, traced, last, concludes_of_perform hread hperform hperforms,
      hshows, hshows.newline_notMem, ?_⟩
    simp only [outcome]
    by_cases hnamed : ∃ name, output = some name ∧ name ≠ ""
    · obtain ⟨name, rfl, hname⟩ := hnamed
      obtain ⟨hcode, hstdout, houtput⟩ := Performance.ofReport_of_name htells hname
      obtain ⟨hwritten, hdone⟩ := store_of_output (hwritable name rfl hname) houtput
      rw [hdone]
      refine ⟨hcode.trans htells.code_eq, fun other hother _ => ?_, fun hnone => ?_⟩
      · obtain rfl := Option.some.inj hother
        exact ⟨hstdout, hwritten⟩
      · rcases hnone with hnone | hempty
        · cases hnone
        · exact absurd (Option.some.inj hempty) hname
    · have hnone : output = none ∨ output = some "" := by
        cases output with
        | none => exact .inl rfl
        | some name => exact .inr (by simpa using hnamed)
      obtain ⟨hcode, hstdout, houtput⟩ := Performance.ofReport_of_no_name htells hnone
      rw [store_of_no_output houtput]
      refine ⟨hcode.trans htells.code_eq, fun name hname hne => ?_, fun _ => ⟨hstdout, rfl⟩⟩
      exact absurd ⟨name, hname, hne⟩ hnamed
  · intro assembly
    obtain ⟨done, hperform, hcode, hstdout, houtput⟩ :=
      exists_perform_assemble source output bytes
    obtain ⟨hwritten, hdone⟩ := store_of_output hwritable houtput
    have hinput : tree.read (working.resolve (Request.assemble source output).input) = .ok bytes :=
      hread
    have hcarried (fuel : Nat) : carryOut fuel working tree (.assemble source output) =
        some (store working tree done) := by
      rw [carryOut_of_read hinput, hperform, Option.map_some]
    refine ⟨(store working tree done).1, (store working tree done).2, _, hcarried, hwritten, ?_, ?_,
      ?_, fun contents hcontents => ?_⟩
    · rw [hdone, Option.isSome_map]
      exact hcode
    · rw [hdone]
      exact hstdout
    · rw [Option.isSome_map]
      exact Assembly.isSome_program_iff _
    · obtain ⟨program, hprogram, rfl⟩ := Option.map_eq_some_iff.mp hcontents
      exact ⟨program, hprogram, Assembly.decode_encode_of_program hprogram⟩

/-- A tree with a program that pushes and halts, and a source text that is all comment. -/
def sampleTree : FileTree :=
  { files := [({ parts := ["program"] }, [4, 1]), ({ parts := ["source"] }, [59, 10])] }

set_option maxRecDepth 8000 in
/-- The program runs with a trace, and its last state goes into a file. The source text gives an
empty file. -/
theorem output_only_on_success_of_sample :
    sampleTree.read (Path.resolve {} "program") = .ok [4, 1] ∧
      Program.decode [4, 1] = .ok [.plain .push, .plain .halt] ∧
      sampleTree.Writable (Path.resolve {} "out") ∧
      (∃ after done,
        Concludes {} sampleTree (.run "program" (some "out") { trace := true }) (after, done) ∧
        done.code = 0 ∧
        sampleTree.Stores (Path.resolve {} "out")
          (lineBytes (State.text { pc := 1, stack := { values := [0] } })) after) ∧
      sampleTree.read (Path.resolve {} "source") = .ok [59, 10] ∧
      ∃ after done,
        (∀ fuel, carryOut fuel {} sampleTree (.assemble "source" "out") = some (after, done)) ∧
        done.code = 0 ∧ after.read (Path.resolve {} "out") = .ok [] := by
  have hdecode : Program.decode [4, 1] = .ok [.plain .push, .plain .halt] := by cbv
  have hends : Program.Ends [.plain .push, .plain .halt] {}
      { outcome := .halted, steps := 2, state := { pc := 1, stack := { values := [0] } } } :=
    ⟨2, rfl⟩
  have hwritable : sampleTree.Writable (Path.resolve {} "out") := fun _ => ⟨_, rfl⟩
  obtain ⟨hruns, hassembles, _⟩ := output_only_on_success {} sampleTree
  refine ⟨rfl, hdecode, hwritable, ?_, rfl, ?_⟩
  · obtain ⟨after, done, traced, last, hconcludes, hshows, _, hcode, hfile, _⟩ :=
      hruns "program" (some "out") { trace := true } [4, 1] rfl (by decide)
        (.inr ⟨_, _, hdecode, hends⟩) fun name hname _ => Option.some.inj hname ▸ hwritable
    obtain ⟨_, hwritten⟩ := hfile "out" rfl (by decide)
    cases hshows with
    | undecodable herror => cases herror.symm.trans hdecode
    | faulted hother hlast houtcome =>
      obtain rfl := Except.ok.inj (hdecode.symm.trans hother)
      obtain rfl := hends.unique hlast
      cases houtcome
    | ended hother hlast =>
      obtain rfl := Except.ok.inj (hdecode.symm.trans hother)
      obtain rfl := hends.unique hlast
      exact ⟨after, done, hconcludes, hcode, hwritten⟩
  · obtain ⟨after, done, written, hcarried, hwritten, hcode, _, hiff, hcontents⟩ :=
      hassembles "source" "out" [59, 10] rfl hwritable
    obtain ⟨contents, rfl⟩ := Option.isSome_iff_exists.mp (hiff.mpr (by decide))
    obtain ⟨program, hprogram, _, hempty⟩ := hcontents contents rfl
    obtain rfl : [] = program := Option.some.inj hprogram
    rw [hempty.mpr rfl] at hwritten
    exact ⟨after, done, hcarried, hcode, hwritten.read_self⟩

end CommandLine

end WordMachine
