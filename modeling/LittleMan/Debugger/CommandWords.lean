import LittleMan.Debugger.CommandError
import LittleMan.Source.Label
import LittleMan.Text.Pieces
import LittleMan.Word

/-! Commands read from the words of a line. -/
namespace LittleMan.Debugger

/-- An argument before it is known what it should be. -/
inductive Argument
  | integer (v : Int)
  | label (name : String)
  deriving DecidableEq, Repr

namespace Argument

/-- Any word but a colon alone is a literal or may name a label. -/
def ofWord (w : String) : Except ValueError Argument :=
  match Decimal.literal? w with
  | some v => .ok (.integer v)
  | none =>
    let name := Source.stripColon w
    if name = "" then .error .malformed else .ok (.label name)

/-- A number of cycles: at least one, and no more than 32 bits hold. -/
def count : Argument → Except ValueError Nat
  | integer v => .ok (max 1 (min v 4294967295)).toNat
  | label _ => .error (.mismatchedType "integer" "label")

/-- A value that the accumulator can hold. -/
def value : Argument → Except ValueError Int
  | integer v => if -999 ≤ v ∧ v ≤ 999 then .ok v else .error (.outOfRange (-999) 999)
  | label _ => .error (.mismatchedType "integer" "label")

def location : Argument → Except ValueError Location
  | integer v =>
    if 0 ≤ v ∧ v < memorySize then .ok (.address v.toNat)
    else .error (.outOfRange 0 (memorySize - 1))
  | label name => .ok (.label name)

end Argument

/-- A word read as what the argument should be. -/
def readArgument {α : Type} (argument : String) (read : Argument → Except ValueError α)
    (w : String) : Except ArgumentError α :=
  match Argument.ofWord w with
  | .error fault => .error (.invalid argument fault)
  | .ok a =>
    match read a with
    | .error fault => .error (.invalid argument fault)
    | .ok v => .ok v

/-- The first word as an argument that must be there. A command of `expected` arguments has had
`actual` of them. -/
def required {α : Type} (argument : String) (expected actual : Nat)
    (read : Argument → Except ValueError α) : List String → Except ArgumentError (α × List String)
  | [] => .error (.missing argument expected actual)
  | w :: ws => (readArgument argument read w).map (·, ws)

/-- The first word as an argument that may be left out. -/
def optional {α : Type} (argument : String) (absent : α) (read : Argument → Except ValueError α) :
    List String → Except ArgumentError (α × List String)
  | [] => .ok (absent, [])
  | w :: ws => (readArgument argument read w).map (·, ws)

/-- Words left over are counted modulo 256 and then added up to 255. -/
def finish (taken : Nat) (c : Command) (ws : List String) : Except ArgumentError Command :=
  if ws.isEmpty then .ok c else .error (.tooMany taken (min 255 (taken + ws.length % 256)))

/-- The words after a name as the arguments of that command. -/
def Command.ofArguments (name : CommandName) (ws : List String) : Except ArgumentError Command :=
  match name with
  | .help => .ok .help
  | .proceed => finish 0 .proceed ws
  | .quit => finish 0 .quit ws
  | .exit => finish 0 .exit ws
  | .registers => finish 0 .registers ws
  | .memory => finish 0 .memory ws
  | .outputs => finish 0 .outputs ws
  | .reset => finish 0 .reset ws
  | .breakList => finish 0 .breakList ws
  | .step => do
    let (count, ws) ← optional "count" 1 Argument.count ws
    finish 1 (.step count) ws
  | .read => do
    let (place, ws) ← required "location" 1 0 Argument.location ws
    finish 1 (.read place) ws
  | .write => do
    let (place, ws) ← required "location" 2 0 Argument.location ws
    let (value, ws) ← required "value" 2 1 Argument.value ws
    finish 2 (.write place value) ws
  | .jump => do
    let (place, ws) ← required "location" 1 0 Argument.location ws
    finish 1 (.jump place) ws
  | .input => do
    let (value, ws) ← required "value" 1 0 Argument.value ws
    finish 1 (.input value) ws
  | .breakAdd => do
    let (place, ws) ← optional "location" .counter Argument.location ws
    finish 1 (.breakAdd place) ws
  | .breakRemove => do
    let (place, ws) ← optional "location" .counter Argument.location ws
    finish 1 (.breakRemove place) ws
  | .source => do
    let (place, ws) ← optional "location" .counter Argument.location ws
    finish 1 (.source place) ws

/-- The name that begins a line, which may be `break` and a second word, and the words after it. -/
def CommandName.ofWords : List String → Except CommandError (CommandName × List String)
  | [] => .error (.unknown "")
  | w :: ws =>
    match CommandName.ofWord? w with
    | some name => .ok (name, ws)
    | none =>
      if isBreak w then
        match ws with
        | [] => .error (.missingSubcommand "break")
        | sub :: rest =>
          match CommandName.ofBreakWord? sub with
          | some name => .ok (name, rest)
          | none => .error (.unknownSubcommand "break" sub)
      else .error (.unknown w)

def Command.ofWords (ws : List String) : Except CommandError Command := do
  let (name, arguments) ← CommandName.ofWords ws
  match Command.ofArguments name arguments with
  | .ok c => .ok c
  | .error fault => .error (.invalidArgument name fault)

def Command.ofLine (line : String) : Except CommandError Command :=
  Command.ofWords (Text.words line)

end LittleMan.Debugger
