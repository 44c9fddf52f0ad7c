import WordMachine.Main
import WordMachine.Proofs.Assembly.Append
import WordMachine.Proofs.Assembly.Bytes
import WordMachine.Proofs.Assembly.Grammar
import WordMachine.Proofs.Assembly.Layout
import WordMachine.Proofs.Assembly.Line
import WordMachine.Proofs.Assembly.Source
import WordMachine.Proofs.Bytecode.Append
import WordMachine.Proofs.Bytecode.Program
import WordMachine.Proofs.Bytecode.Single
import WordMachine.Proofs.Command.Listing
import WordMachine.Proofs.Command.Run
import WordMachine.Proofs.CommandLine.Output
import WordMachine.Proofs.Execution.Fault
import WordMachine.Proofs.Execution.Overrun
import WordMachine.Proofs.Machine.Advance
import WordMachine.Proofs.Machine.Alike
import WordMachine.Proofs.Machine.Append
import WordMachine.Proofs.Machine.Call
import WordMachine.Proofs.Machine.Finished
import WordMachine.Proofs.Machine.History
import WordMachine.Proofs.Machine.Interruption
import WordMachine.Proofs.Machine.JumpFree
import WordMachine.Proofs.Machine.Refinement
import WordMachine.Proofs.Machine.Request
import WordMachine.Proofs.Machine.Restart
import WordMachine.Proofs.Machine.Schedule
import WordMachine.Proofs.Machine.StackFrame
import WordMachine.Proofs.Machine.Stall
import WordMachine.Proofs.Machine.Step
import WordMachine.Proofs.Machine.Trace
import WordMachine.Proofs.Machine.WordRange
import WordMachine.Proofs.Memory
import WordMachine.Proofs.Memory.Writes
import WordMachine.Proofs.Rendering
import WordMachine.Proofs.Run
import WordMachine.Proofs.Stack.LowWater
import WordMachine.Proofs.State.Access
import WordMachine.Proofs.State.Alike
import WordMachine.Proofs.Word.Arithmetic
