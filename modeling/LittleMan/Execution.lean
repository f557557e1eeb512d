import LittleMan.Debugger.Session
import LittleMan.PlainRun

/-! A loaded program carried out: under the debugger first, if there is one, and then without it. -/
namespace LittleMan

/-- Standard input, with all that it will ever hold. -/
structure StandardInput where
  bytes : List UInt8
  /-- Whether it is typed on a terminal. -/
  typed : Bool
  deriving DecidableEq, Repr

namespace StandardInput

def input (i : StandardInput) : Input :=
  if i.typed then .ofTyped i.bytes else .ofPipe i.bytes

/-- Commands of the debugger where none are given as a text. -/
def script (i : StandardInput) : Debugger.Script :=
  if i.typed then .ofTyped i.bytes else .ofPipe i.bytes

end StandardInput

/-- A program and what it is run with. -/
structure Job where
  program : Program
  source : Option String := none
  inputs : List Int := []
  stdin : StandardInput
  settings : Settings

namespace Job

def computer (j : Job) : Computer := ⟨Machine.load j.program.words, j.inputs, #[]⟩

def session (j : Job) : Debugger.Session := .start j.program j.source j.computer

def script (j : Job) (commands : Option String) : Debugger.Script :=
  match commands with
  | some text => .ofText text j.stdin.bytes
  | none => j.stdin.script

/-- Runs without the debugger. -/
def run (j : Job) : PlainRun := PlainRun.run j.settings j.stdin.input j.computer

/-- A debugged program: how the debugger was left, and the run that followed unless the whole
program was left with it. -/
structure Debugged where
  session : Debugger.Session.Finished
  rest : Option PlainRun

/-- Runs under the debugger, which reads the given commands or else standard input. -/
def debug (j : Job) (commands : Option String) : Debugged :=
  let f := j.session.run j.settings.stepLimit (j.script commands)
  match f.action with
  | .exitProgram => ⟨f, none⟩
  | .stopDebugger =>
    let stdin := { j.stdin with bytes := f.stdin }
    ⟨f, some (PlainRun.run j.settings stdin.input f.session.computer)⟩

def Debugged.events (d : Debugged) : List Event :=
  d.session.events ++ (match d.rest with
    | some r => r.events
    | none => [])

end Job

end LittleMan
