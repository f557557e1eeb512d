import LittleMan.Computer
import LittleMan.Debugger.CommandWords
import LittleMan.Debugger.Script
import LittleMan.Program
import LittleMan.Source.Slice

/-! A debugger at work on a computer: commands of a script, one after the other. -/
namespace LittleMan.Debugger

structure Session where
  program : Program
  /-- The source text, if the program was assembled from one. -/
  source : Option String
  /-- The inbox that a reset brings back. -/
  initialInbox : List Int
  breakpoints : Breakpoints
  /-- Whether the next prompt tells where the counter is. -/
  announce : Bool
  computer : Computer
  deriving DecidableEq, Repr

/-- What comes after the debugger. -/
inductive Action
  /-- The program runs on without it. -/
  | stopDebugger
  | exitProgram
  deriving DecidableEq, Repr

def Command.action? : Command → Option Action
  | .quit => some .stopDebugger
  | .exit => some .exitProgram
  | _ => none

namespace Session

def start (program : Program) (source : Option String) (computer : Computer) : Session :=
  { program, source, initialInbox := computer.inbox, breakpoints := .empty, announce := true
    computer }

def counter (s : Session) : Nat := s.computer.machine.counter.val

def setMachine (s : Session) (m : Machine) : Session :=
  { s with computer := { s.computer with machine := m } }

/-- The line of source text at an address. -/
def sourceAt? (s : Session) (address : Nat) : Option String := do
  let src ← s.source
  let span ← s.program.span? address
  Source.slice? src span

/-- Does something at a place, unless its label is unknown. -/
def atPlace (s : Session) (place : Location) (act : Nat → Session × List Notice) :
    Session × List Notice :=
  match place with
  | .address a => act a
  | .counter => act s.counter
  | .label name =>
    match s.program.symbols.get? name with
    | none => (s, [.labelUnknown name])
    | some a =>
      let (s', notices) := act a
      (s', .labelAt name a :: notices)

def stopNotices (r : Run) : List Notice :=
  match r.stop with
  | .halted => [.halted]
  | .waiting => [.waitingAt r.computer.machine.counter.val]
  | .breakpoint a => [.breakpointReached a.val]
  | .stepLimit => []

/-- The values that a run has put into the outbox, and how it came to its end. -/
def runEvents (before : Computer) (r : Run) : List Event :=
  (before.newOutputs r.computer).map .output ++ [.newLine] ++
    ((if 0 < r.steps then [Notice.executed r.steps] else []) ++ stopNotices r).map .notice

/-- Runs on, pausing at breakpoints. -/
def runCycles (s : Session) (limit : Nat) : Run × Session × List Event :=
  let r := s.computer.run s.breakpoints limit
  let s' := { s with computer := r.computer, announce := s.announce || r.stop == .stepLimit }
  (r, s', runEvents s.computer r)

def reset (s : Session) : Session :=
  { s with
    computer := ⟨Machine.load s.program.words, s.initialInbox, #[]⟩
    announce := true }

def addBreakpoint (s : Session) (a : Nat) : Session × List Notice :=
  let (new, breakpoints) := s.breakpoints.insert a
  ({ s with breakpoints }, [if new then .breakpointAdded a else .breakpointExists a])

def removeBreakpoint (s : Session) (a : Nat) : Session × List Notice :=
  let (found, breakpoints) := s.breakpoints.remove a
  ({ s with breakpoints }, [if found then .breakpointRemoved a else .breakpointAbsent a])

def sourceNotice (s : Session) (a : Nat) : Notice :=
  match s.source, s.program.span? a with
  | some _, some span => .sourceLine a span
  | _, _ => .noSourceLine a

/-- Commands that run no cycle. -/
def answer (s : Session) : Command → Session × List Notice
  | .help => (s, [.help])
  | .registers => (s, [.registers s.computer.machine.snapshot])
  | .memory => (s, [.memory s.computer.machine.snapshot])
  | .outputs => (s, [.outputs s.computer.outbox.toList])
  | .breakList =>
    (s, [.breakpoints (s.breakpoints.addresses.map fun a => (a, s.sourceAt? a))])
  | .breakAdd place => s.atPlace place s.addBreakpoint
  | .breakRemove place => s.atPlace place s.removeBreakpoint
  | .read place => s.atPlace place fun a => (s, [.cell a (s.computer.machine.read a)])
  | .write place v =>
    s.atPlace place fun a => (s.setMachine (s.computer.machine.write a v), [.cellWritten a])
  | .jump place =>
    s.atPlace place fun a => (s.setMachine (s.computer.machine.jump a), [.counterMoved a])
  | .input v =>
    let computer := s.computer.push v
    ({ s with computer }, [.inputQueued v computer.inbox.length])
  | .reset => (s.reset, [.wasReset])
  | .source place => s.atPlace place fun a => (s, [s.sourceNotice a])
  | .step _ | .proceed | .quit | .exit => (s, [])

/-- `limit` is the number of cycles after which a program that runs on is paused. -/
def carryOut (limit : Nat) (s : Session) : Command → Session × List Event
  | .step count =>
    let (_, s', events) := s.runCycles count
    (s', events)
  | .proceed =>
    let (r, s', events) := s.runCycles limit
    (s', .notice .continuing :: events ++
      if r.stop = .stepLimit then [.notice (.stepLimitReached limit)] else [])
  | c =>
    let (s', notices) := s.answer c
    (s', notices.map .notice)

/-- Before a command is asked for, a line starts and the counter may be told. -/
def prompt (s : Session) : Session × List Event :=
  ({ s with announce := false },
    .newLine :: if s.announce then [.notice (.counterAt s.counter)] else [])

/-- A session that is over. -/
structure Finished where
  action : Action
  session : Session
  events : List Event
  /-- What has not been read of the script. -/
  script : Script
  /-- What has not been read of standard input. -/
  stdin : List UInt8
  deriving DecidableEq, Repr

def Finished.after (f : Finished) (events : List Event) : Finished :=
  { f with events := events ++ f.events }

/-- Carries out the commands of a script until one of them ends the session. Blank pieces are passed
over, pieces that are no commands are answered, and the end of the script stops the debugger. -/
def follow (limit : Nat) (script : Script) (s : Session) : List Piece → Finished
  | [] =>
    { action := .stopDebugger, session := s, events := script.shownAtEnd
      script := { script with pieces := [], shownAtEnd := [] }, stdin := script.leftAtEnd }
  | p :: ps =>
    match Text.words p.text with
    | [] => (follow limit script s ps).after p.shown
    | ws =>
      match Command.ofWords ws with
      | .error fault =>
        (follow limit script s ps).after (p.shown ++ [.notice (.notUnderstood fault)])
      | .ok c =>
        match c.action? with
        | some action =>
          { action, session := s, events := p.shown, script := { script with pieces := ps }
            stdin := p.left }
        | none =>
          let (s', events) := s.carryOut limit c
          let (s'', prompted) := s'.prompt
          (follow limit script s'' ps).after (p.shown ++ events ++ prompted)

def run (limit : Nat) (s : Session) (script : Script) : Finished :=
  let (s', prompted) := { s with initialInbox := s.computer.inbox }.prompt
  (s'.follow limit script script.pieces).after prompted

end Session

end LittleMan.Debugger
