import WordMachine.Command
import WordMachine.Proofs.Bytecode.Program
import WordMachine.Proofs.Machine.Trace

/-!
# The report on a run

Bytes are decoded, and the program in them is run from the first state. A program that comes
from bytes has words for literals and is no longer than the bytes, so nothing interrupts its
run. What is reported depends on the result of the run only; the trace that may come with it
has a line for the first state and one for each instruction executed.
-/

namespace WordMachine

namespace Program

/-- An instruction that bytes can hold takes at least one of them. -/
theorem WellFormed.length_le {program : Program} (hprogram : program.WellFormed) :
    program.length ≤ program.encode.length := by
  induction program with
  | nil => exact Nat.zero_le _
  | cons inst program ih =>
    obtain ⟨byte, payload, hencode, _⟩ := (hprogram inst (by simp)).1.encode_eq_cons
    have hothers := ih fun other hother => hprogram other (by simp [hother])
    rw [encode_cons, hencode, List.length_append, List.length_cons, List.length_cons]
    omega

/-- A program that is read from not too many bytes is admissible. -/
theorem admissible_of_decode {bytes : List UInt8} {program : Program}
    (hlength : bytes.length ≤ maxLength) (h : decode bytes = .ok program) :
    program.Admissible := by
  obtain ⟨hprogram, rfl⟩ := wellFormed_of_decode h
  exact ⟨fun inst hinst => (hprogram inst hinst).2, hprogram.length_le.trans hlength⟩

/-- The state that the run has come to when so many instructions have been due. -/
def stateAfter (program : Program) (n : Nat) : State :=
  (Progress.after program {} n).state

/-- The instruction that is due after so many others. -/
def instructionAfter (program : Program) (n : Nat) : Instruction :=
  (Progress.after program {} n).current program

end Program

namespace Command

variable {bytes : List UInt8} {program : Program} {result : Result}

/-- The events of a run that ends with a result, with an observer or without one. -/
def shownEvents (program : Program) (result : Result) (observed : Bool) : List Event :=
  (program.trace (Listener.shown {}) program.stateAfter program.instructionAfter result).filter
    (Listener.shows {} observed)

/-- An observer is shown the instructions executed, one after another. -/
theorem filterMap_traceLine?_shownEvents (program : Program) (result : Result) :
    (shownEvents program result true).filterMap traceLine? =
      (List.range result.steps).map fun k =>
        (program.stateAfter (k + 1)).stepText (program.instructionAfter k) := by
  have hshown (event : Event) :
      (if Listener.shows {} true event then traceLine? event else none) = traceLine? event := by
    cases event with
    | observe inst state => rfl
    | _ => exact ite_self none
  have hreports (k : Nat) (inst : Instruction) (before after : State) :
      (inst.reports (Listener.shown {} k) before after).filterMap traceLine? =
        [after.stepText inst] := rfl
  have hend : result.reports.filterMap traceLine? = [] := by
    unfold Result.reports
    cases result.outcome <;> rfl
  simp only [shownEvents, List.filterMap_filter, hshown, Program.trace, List.cons_append,
    List.filterMap_cons, List.filterMap_append, List.filterMap_flatMap, hreports, hend,
    List.append_nil]
  exact List.flatMap_pure_eq_map ..

/-- The machine that is to run a program, with an observer or without one. -/
def freshMachine (program : Program) (observer : Option Hook) : Machine :=
  { code := program.toArray, state := {}, observer }

/-- A machine that is to run a program stands at the beginning of the run, and an observer that is
quiet does not disturb it. -/
theorem tracks_freshMachine (program : Program) (observer : Option Hook)
    (hobserver : ∀ hook ∈ observer, hook.Quiet) :
    (freshMachine program observer).Tracks program {} :=
  Machine.tracks_of_new program {} (Machine.all_of_no_hooks _) hobserver (by simp)

/-- A program that ends is driven to its result, and its events are shown on the way. -/
theorem drive_of_ends (hprogram : program.Admissible) (hends : program.Ends {} result)
    (options : RunOptions) :
    (∃ fuel reply, drive fuel options (freshMachine program none) = some reply) ∧
    ∀ fuel reply, drive fuel options (freshMachine program none) = some reply →
      reply.value = .ok result ∧ reply.events = shownEvents program result options.trace := by
  have hstart : State.WellFormed {} := by decide
  obtain ⟨trace, json⟩ := options
  cases trace with
  | false =>
    have htracks := tracks_freshMachine program none (by simp)
    refine ⟨?_, fun fuel reply hdrive => ?_⟩
    · obtain ⟨fuel, reply, hrun, _⟩ := htracks.exists_run_of_ends hprogram hstart hends
      exact ⟨fuel, reply, hrun⟩
    · exact Machine.run_shows hprogram hstart hends htracks ⟨rfl, rfl, rfl⟩ hdrive
  | true =>
    have htracks := tracks_freshMachine program (some .quiet) fun hook hhook => by
      obtain rfl := Option.some.inj hhook
      exact fun _ => rfl
    refine ⟨?_, fun fuel reply hdrive => ?_⟩
    · obtain ⟨fuel, reply, hrun, _⟩ := htracks.exists_run_of_ends hprogram hstart hends
      exact ⟨fuel, _, Option.map_eq_some_iff.mpr ⟨reply, hrun, rfl⟩⟩
    · obtain ⟨observed, hrun, rfl⟩ := Option.map_eq_some_iff.mp hdrive
      have hobserved : (freshMachine program (some .quiet)).run fuel = some observed := hrun
      obtain ⟨hvalue, hevents⟩ :=
        Machine.run_shows hprogram hstart hends htracks ⟨rfl, rfl, rfl⟩ hobserved
      exact ⟨hvalue, hevents⟩

/-- The report on bytes that cannot be decoded. -/
def decodeReport (error : DecodeError) : Report :=
  { code := 1, errors := [decodeErrorLine error], logs := [.decodeFailed error] }

/-- The report on a run that ends with a result. -/
def endReport (program : Program) (result : Result) (options : RunOptions) : Report :=
  { reportResult options result with
    traced :=
      if options.trace then
        State.text {} :: (List.range result.steps).map fun k =>
          (program.stateAfter (k + 1)).stepText (program.instructionAfter k)
      else []
    logs := (shownEvents program result options.trace).filterMap logEntry? }

/-- Bytes that cannot be decoded are reported at once. -/
theorem run_of_decode_eq_error {error : DecodeError} (h : Program.decode bytes = .error error)
    (fuel : Nat) (options : RunOptions) :
    run fuel options bytes = some (.ok (decodeReport error)) := by
  simp only [run, h, decodeReport]

/-- A program that ends is reported on with its result, and with nothing else. -/
theorem run_of_ends (hlength : bytes.length ≤ Program.maxLength)
    (hdecode : Program.decode bytes = .ok program) (hends : program.Ends {} result)
    (options : RunOptions) :
    (∃ fuel, run fuel options bytes = some (.ok (endReport program result options))) ∧
    ∀ fuel answer, run fuel options bytes = some answer →
      answer = .ok (endReport program result options) := by
  have hprogram := Program.admissible_of_decode hlength hdecode
  have hload : Machine.load program = .ok (freshMachine program none) :=
    Machine.load_of_wellFormed program (by decide)
  have hrun (fuel : Nat) :
      run fuel options bytes = runMachine fuel options (freshMachine program none) := by
    simp only [run, hdecode, hload]
  obtain ⟨⟨enough, driven, henough⟩, hshown⟩ := drive_of_ends hprogram hends options
  have hreport {fuel : Nat} {reply : Reply Result}
      (hdrive : drive fuel options (freshMachine program none) = some reply) :
      run fuel options bytes = some (.ok (endReport program result options)) := by
    obtain ⟨hvalue, hevents⟩ := hshown fuel reply hdrive
    rw [hrun, runMachine, hdrive, Option.map_some, hvalue, hevents, endReport,
      ← filterMap_traceLine?_shownEvents]
    cases options.trace with
    | false => rfl
    | true => rfl
  refine ⟨⟨enough, hreport henough⟩, fun fuel answer hanswer => ?_⟩
  obtain ⟨reply, hdrive, _⟩ := Option.map_eq_some_iff.mp ((hrun fuel).symm.trans hanswer)
  exact Option.some.inj (hanswer.symm.trans (hreport hdrive))

/-- Bytes that cannot be decoded are reported with one line that says why. -/
def ReportsDecodeError (bytes : List UInt8) (report : RunOptions → Report) : Prop :=
  ∃ error, Program.decode bytes = .error error ∧ ∀ options,
    (report options).code = 1 ∧ (report options).out = [] ∧ (report options).traced = [] ∧
      (report options).errors = ["decode error: " ++ error.message]

/-- A run that ends with a fault is reported with the fault and the last state as errors. -/
def ReportsFault (bytes : List UInt8) (report : RunOptions → Report) : Prop :=
  ∃ program result fault, Program.decode bytes = .ok program ∧ program.Ends {} result ∧
    result.outcome = .faulted fault ∧ ∀ options,
      (report options).code = 1 ∧ (report options).out = [] ∧ (report options).errors =
        ["execution error: " ++ fault.message, "last state: " ++ result.state.text]

/-- A run that ends without a fault is reported with its last state as output. -/
def ReportsLastState (bytes : List UInt8) (report : RunOptions → Report) : Prop :=
  ∃ program result, Program.decode bytes = .ok program ∧ program.Ends {} result ∧
    (result.outcome = .halted ∨ result.outcome = .endOfProgram) ∧ ∀ options,
      (report options).code = 0 ∧ (report options).errors = [] ∧ (report options).out =
        [if options.json then result.state.json else result.state.text]

/-- No two of these reports are given at once. -/
theorem reports_exclusive (bytes : List UInt8) (report : RunOptions → Report) :
    ¬ (ReportsDecodeError bytes report ∧ ReportsFault bytes report) ∧
      ¬ (ReportsDecodeError bytes report ∧ ReportsLastState bytes report) ∧
      ¬ (ReportsFault bytes report ∧ ReportsLastState bytes report) := by
  refine ⟨?_, ?_, ?_⟩
  · rintro ⟨⟨_, herror, _⟩, _, _, _, hdecode, _⟩
    cases herror.symm.trans hdecode
  · rintro ⟨⟨_, herror, _⟩, _, _, hdecode, _⟩
    cases herror.symm.trans hdecode
  · rintro ⟨⟨_, _, _, _, _, _, hfault⟩, _, _, _, _, _, hlast⟩
    cases (hfault {}).1.symm.trans (hlast {}).1

/-- A run that ends is reported with a fault or with its last state. -/
theorem reports_endReport (hdecode : Program.decode bytes = .ok program)
    (hends : program.Ends {} result) :
    ReportsFault bytes (endReport program result) ∨
      ReportsLastState bytes (endReport program result) := by
  cases houtcome : result.outcome with
  | faulted fault =>
    refine .inl ⟨program, result, fault, hdecode, hends, houtcome, fun options => ?_⟩
    simp only [endReport, reportResult, houtcome, and_self]
  | halted =>
    refine .inr ⟨program, result, hdecode, hends, .inl houtcome, fun options => ?_⟩
    simp only [endReport, reportResult, houtcome, and_self]
  | endOfProgram =>
    refine .inr ⟨program, result, hdecode, hends, .inr houtcome, fun options => ?_⟩
    simp only [endReport, reportResult, houtcome, and_self]

/-- The report on a run does not depend on tracing, and only its output depends on the format. -/
theorem endReport_options (program : Program) (result : Result) (options other : RunOptions) :
    (endReport program result options).code = (endReport program result other).code ∧
      (endReport program result options).errors = (endReport program result other).errors ∧
      (options.json = other.json →
        (endReport program result options).out = (endReport program result other).out) := by
  simp only [endReport, reportResult]
  cases result.outcome with
  | faulted fault => exact ⟨rfl, rfl, fun _ => rfl⟩
  | halted | endOfProgram =>
    refine ⟨rfl, rfl, fun hjson => ?_⟩
    simp only [hjson]

/-- Bytes that cannot be decoded or whose program ends get a report and no interrupt. Its code and
its errors do not depend on the options, and its output does not depend on tracing. It is of one of
three kinds: the error of decoding, the fault and the last state as errors, or the last state as
output. A trace has the first state and then each instruction executed with the state after it. -/
theorem run_reports (hlength : bytes.length ≤ Program.maxLength)
    (hends : (∃ error, Program.decode bytes = .error error) ∨
      ∃ program result, Program.decode bytes = .ok program ∧ program.Ends {} result) :
    ∃ report : RunOptions → Report,
      (∀ options, (∃ fuel, run fuel options bytes = some (.ok (report options))) ∧
        ∀ fuel answer, run fuel options bytes = some answer → answer = .ok (report options)) ∧
      (∀ options other, (report options).code = (report other).code ∧
        (report options).errors = (report other).errors ∧
        (options.json = other.json → (report options).out = (report other).out)) ∧
      (ReportsDecodeError bytes report ∨ ReportsFault bytes report ∨
        ReportsLastState bytes report) ∧
      (¬ (ReportsDecodeError bytes report ∧ ReportsFault bytes report) ∧
        ¬ (ReportsDecodeError bytes report ∧ ReportsLastState bytes report) ∧
        ¬ (ReportsFault bytes report ∧ ReportsLastState bytes report)) ∧
      ∀ program result, Program.decode bytes = .ok program → program.Ends {} result →
        ∃ states insts, program.Path {} result.steps states insts ∧
          states result.steps = result.state ∧ ∀ options, (report options).traced =
            if options.trace then
              State.text {} :: (List.range result.steps).map fun k =>
                (states (k + 1)).stepText (insts k)
            else [] := by
  rcases hends with ⟨error, hdecode⟩ | ⟨program, result, hdecode, hends⟩
  · have hrun := run_of_decode_eq_error hdecode
    refine ⟨fun _ => decodeReport error, fun options => ⟨⟨0, hrun 0 options⟩, ?_⟩,
      fun _ _ => ⟨rfl, rfl, fun _ => rfl⟩, .inl ⟨error, hdecode, fun _ => ⟨rfl, rfl, rfl, rfl⟩⟩,
      reports_exclusive _ _, fun program result hprogram => ?_⟩
    · intro fuel answer hanswer
      exact Option.some.inj (hanswer.symm.trans (hrun fuel options))
    · cases hdecode.symm.trans hprogram
  · refine ⟨endReport program result, run_of_ends hlength hdecode hends,
      endReport_options program result, .inr (reports_endReport hdecode hends),
      reports_exclusive _ _, fun other last hother hlast => ?_⟩
    obtain rfl := Except.ok.inj (hdecode.symm.trans hother)
    obtain rfl := hends.unique hlast
    have hprogram := Program.admissible_of_decode hlength hdecode
    obtain ⟨hpath, hstate⟩ := Progress.path_of_ends hprogram (by decide) hends
    exact ⟨_, _, hpath, hstate, fun _ => rfl⟩

/-- A value is pushed, and an addition lacks another one. The run is reported with this fault
whatever the options, and its trace has one line more than the one instruction executed. -/
theorem run_reports_of_fault :
    Program.decode [4, 11] = .ok [.plain .push, .plain (.binary .add)] ∧
      Program.Ends [.plain .push, .plain (.binary .add)] {}
        { outcome := .faulted ⟨.insufficientArguments, some 11⟩, steps := 1
          state := { pc := 1, stack := { values := [0] } } } ∧
      ∃ report : RunOptions → Report,
        (∀ options, ∃ fuel, run fuel options [4, 11] = some (.ok (report options))) ∧
        ReportsFault [4, 11] report ∧ (report { trace := true }).traced.length = 2 := by
  have hdecode : Program.decode [4, 11] = .ok [.plain .push, .plain (.binary .add)] := by cbv
  have hends : Program.Ends [.plain .push, .plain (.binary .add)] {}
      { outcome := .faulted ⟨.insufficientArguments, some 11⟩, steps := 1
        state := { pc := 1, stack := { values := [0] } } } := ⟨2, rfl⟩
  obtain ⟨report, hrun, _, hkinds, _, htraced⟩ :=
    run_reports (by decide) (.inr ⟨_, _, hdecode, hends⟩)
  refine ⟨hdecode, hends, report, fun options => (hrun options).1, ?_, ?_⟩
  · rcases hkinds with ⟨_, herror, _⟩ | hfault | ⟨_, _, hother, hlast, houtcome, _⟩
    · cases herror.symm.trans hdecode
    · exact hfault
    · obtain rfl := Except.ok.inj (hdecode.symm.trans hother)
      obtain rfl := hends.unique hlast
      cases houtcome <;> contradiction
  · obtain ⟨states, insts, _, _, hlines⟩ := htraced _ _ hdecode hends
    rw [hlines, if_pos rfl, List.length_cons, List.length_map, List.length_range]

end Command

end WordMachine
