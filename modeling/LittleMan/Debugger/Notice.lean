import LittleMan.Debugger.CommandError
import LittleMan.Span
import LittleMan.Terminal.Panel
import LittleMan.Text.Blank

/-! What the debugger tells its user, and how that is printed. -/
namespace LittleMan.Debugger

open Terminal

inductive Notice
  | counterAt (address : Nat)
  /-- The text of a command that was not typed on the terminal. -/
  | commandRead (text : String)
  | notUnderstood (fault : CommandError)
  | help
  | executed (steps : Nat)
  | halted
  | waitingAt (address : Nat)
  | breakpointReached (address : Nat)
  | continuing
  | stepLimitReached (limit : Nat)
  | registers (s : Snapshot)
  | memory (s : Snapshot)
  | outputs (values : List Int)
  | labelAt (name : String) (address : Nat)
  | labelUnknown (name : String)
  | cell (address word : Nat)
  | cellWritten (address : Nat)
  | counterMoved (address : Nat)
  | inputQueued (value : Int) (pending : Nat)
  | wasReset
  | sourceLine (address : Nat) (span : Span)
  | noSourceLine (address : Nat)
  | breakpointAdded (address : Nat)
  | breakpointExists (address : Nat)
  | breakpointRemoved (address : Nat)
  | breakpointAbsent (address : Nat)
  /-- Addresses and the source lines there. -/
  | breakpoints (entries : List (Nat × Option String))
  deriving DecidableEq, Repr

def helpText : String :=
"COMMANDS
  help                      Show this message
  step [count]              Execute the next instruction(s) (default 1)
  continue                  Execute until halt, breakpoint, or missing input
  registers                 Show accumulator, program counter, and instruction register
  memory                    Show all 100 memory cells
  outputs                   Show every value output so far
  get <location>            Show a memory cell
  set <location> <value>    Write a memory cell
  jump <location>           Set the program counter
  input <value>             Queue an input value (-999 to 999)
  break list                Show all breakpoints
  break add [location]      Add a breakpoint (default: program counter)
  break remove [location]   Remove a breakpoint (default: program counter)
  source [location]         Show the source line of an address (default: program counter)
  reset                     Reload the program and its initial inputs
  quit                      Stop debugging and run the rest of the program
  exit                      Stop the program immediately

A location is an address (0 to 99) or a label.
Separate multiple commands with `;`. End of input acts as `quit`.
"

def answer (s : String) : Print := .text .debugger (s ++ "\n")

def remark (s : String) : Print := .text .remark (s ++ "\n")

def addressText (address : Nat) : String := Decimal.zeroPadded 2 address

/-- A branch of the list of breakpoints, which ends with the last one. -/
def breakpointPrints (last : Bool) (address : Nat) (line : Option String) : List Print :=
  [.text .debugger ((if last then "╰─" else "├─") ++ " " ++ addressText address ++ "  ──  "),
   .text .debugger (match line with
     | some s => Text.trim s
     | none => "(no source)"),
   .text .debugger "\n"]

def breakpointTree : List (Nat × Option String) → List Print
  | [] => []
  | (address, line) :: rest =>
    breakpointPrints rest.isEmpty address line ++ breakpointTree rest

/-- A remark on a span of the source, as a report of its own. -/
def sourceReport (address : Nat) (span : Span) : String :=
  "<report Some(Advice) \"\" Some(\"At address " ++ addressText address ++ "\") at " ++
    Decimal.text span.offset ++ " len " ++ Decimal.text span.length ++ ">"

def Notice.prints (minimal : Bool) : Notice → List Print
  | counterAt address => [remark ("Program counter at: " ++ addressText address ++ ".")]
  | commandRead text => [remark (bold "Command:" ++ " " ++ text)]
  | notUnderstood fault =>
    [answer fault.message, answer "Type `help` for a list of commands."]
  | help => [answer ("\n" ++ helpText)]
  | executed steps =>
    [answer ("Executed " ++ Decimal.text steps ++ " instruction" ++
      (if steps = 1 then "" else "s") ++ ".")]
  | halted => [answer "Program halted. Use `reset` to run it again."]
  | waitingAt address =>
    [answer ("Waiting for input at " ++ addressText address ++
      ". Use `input <value>` to provide one.")]
  | breakpointReached address =>
    [answer ("Reached breakpoint at " ++ addressText address ++ ". Pausing execution.")]
  | continuing => [remark "Continuing..."]
  | stepLimitReached limit =>
    [answer ("Step limit of " ++ Decimal.text limit ++ " reached. Pausing execution.")]
  | registers s => remark "Registers:" :: (registerTexts minimal s).map (.text .debugger)
  | memory s => remark "Memory:" :: (memoryTexts minimal s).map (.text .debugger)
  | outputs [] => [answer "No output yet."]
  | outputs values => remark "Outputs:" :: values.map fun v => answer (Decimal.text v)
  | labelAt name address =>
    [remark ("Label `" ++ name ++ "` is at address " ++ addressText address ++ ".")]
  | labelUnknown name => [answer ("Label not found named `" ++ name ++ "`.")]
  | cell address word =>
    [remark ("Memory at address " ++ addressText address ++ ":"),
     .text .debugger (integerText minimal word)]
  | cellWritten address => [answer ("Updated memory at address " ++ addressText address ++ ".")]
  | counterMoved address => [answer ("Set program counter to " ++ addressText address ++ ".")]
  | inputQueued value pending =>
    [answer ("Queued input " ++ Decimal.text value ++ " (" ++ Decimal.text pending ++
      " pending).")]
  | wasReset => [answer "Reset program to initial state."]
  | sourceLine address span => [.raw .errors (sourceReport address span ++ "\n")]
  | noSourceLine address =>
    [answer ("Address " ++ addressText address ++ " does not correspond to a source line.")]
  | breakpointAdded address => [answer ("Added breakpoint at " ++ addressText address ++ ".")]
  | breakpointExists address =>
    [answer ("Breakpoint already exists at " ++ addressText address ++ ".")]
  | breakpointRemoved address => [answer ("Removed breakpoint at " ++ addressText address ++ ".")]
  | breakpointAbsent address => [answer ("No breakpoint exists at " ++ addressText address ++ ".")]
  | breakpoints [] => [answer "No breakpoints exist."]
  | breakpoints entries =>
    answer "Breakpoints:" ::
      (if minimal then entries.map fun e => answer (addressText e.1) else breakpointTree entries)

end LittleMan.Debugger
