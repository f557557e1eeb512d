import LittleMan.Main
import LittleMan.Proofs.Machine.Steps
import LittleMan.Proofs.Computer.Runs
import LittleMan.Proofs.Computer.Supply
import LittleMan.Proofs.Machine.Range
import LittleMan.Proofs.Machine.Registers
import LittleMan.Proofs.Computer.Ends
import LittleMan.Proofs.Machine.History
import LittleMan.Proofs.PlainRun
import LittleMan.Proofs.Debugger.Observing
import LittleMan.Proofs.Assembly.Faults
import LittleMan.Proofs.Assembly.FirstPass
import LittleMan.Proofs.Assembly.SecondPass
import LittleMan.Proofs.Assembly.Outcome
import LittleMan.Proofs.Text.Pieces
import LittleMan.Proofs.Text.Bytes
import LittleMan.Proofs.Debugger.Pieces
import LittleMan.Proofs.Input
import LittleMan.Proofs.PlainRun.Rounds
import LittleMan.Proofs.Transcript
import LittleMan.Proofs.ValueLines
import LittleMan.Proofs.PlainRun.Whole
import LittleMan.Proofs.PlainRun.Delay
import LittleMan.Proofs.Source.Tokens
import LittleMan.Proofs.Source.Cleaning
import LittleMan.Proofs.Debugger.Places
import LittleMan.Proofs.Debugger.Names
import LittleMan.Proofs.Program.WordList
import LittleMan.Proofs.Text.Decimal
import LittleMan.Proofs.Source.Rows
import LittleMan.Proofs.Assembly.Disassembly
import LittleMan.Proofs.Source.Lexing
import LittleMan.Proofs.Assembly.Respelling
import LittleMan.Proofs.Assembly.Renaming
import LittleMan.Proofs.Computer.Cycles
import LittleMan.Proofs.PlainRun.Cycles
import LittleMan.Proofs.Debugger.Outputs
import LittleMan.Proofs.Computer.Cuts
import LittleMan.Proofs.Debugger.Scripts
import LittleMan.Proofs.Debugger.Idle
import LittleMan.Proofs.Terminal.Keyboard
import LittleMan.Proofs.Debugger.Readers
import LittleMan.Proofs.Source.LineSpans
import LittleMan.Proofs.Assembly.Layout
import LittleMan.Proofs.Source.Slices
import LittleMan.Proofs.Program.Entries
import LittleMan.Proofs.Source.Statements
import LittleMan.Proofs.Source.Splitting
import LittleMan.Proofs.Assembly.Diagnostics
import LittleMan.Proofs.Assembly.LabelNames
import LittleMan.Proofs.Assembly.Literals
import LittleMan.Proofs.Debugger.Reset
import LittleMan.Proofs.Debugger.Grammar
import LittleMan.Proofs.Debugger.Understanding
import LittleMan.Proofs.Debugger.Counts
import LittleMan.Proofs.Debugger.Escapes
import LittleMan.Proofs.Computer.Lockstep
import LittleMan.Proofs.Computer.Congruence
import LittleMan.Proofs.Computer.Unread
import LittleMan.Proofs.Terminal.Styles
import LittleMan.Proofs.Program.Listing
import LittleMan.Proofs.Breakpoints
import LittleMan.Proofs.Debugger.InputValues
import LittleMan.Proofs.Debugger.Cursors
import LittleMan.Proofs.Debugger.Halted
