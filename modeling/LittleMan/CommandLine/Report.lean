import LittleMan.CommandLine.Files
import LittleMan.CommandLine.Help
import LittleMan.CommandLine.Path
import LittleMan.CommandLine.Surroundings
import LittleMan.Program.Listing
import LittleMan.Program.WordList
import LittleMan.Terminal.Control

/-! What the program does for a command line, and what it prints. -/
namespace LittleMan.CommandLine

open Terminal

/-- A text with styles, or what is left of it where there are none. -/
def reduced (styled : Bool) (s : String) : String := if styled then s else withoutControls s

structure Report where
  /-- 0 if all went well, 1 after a failure, and 2 if the command line is at fault. -/
  exitCode : Nat
  chunks : List Chunk
  deriving DecidableEq, Repr

namespace Report

def done (chunks : List Chunk) : Report := ⟨0, chunks⟩

def failed (chunks : List Chunk) (message : String) : Report :=
  ⟨1, chunks ++ [⟨.errors, "Error: " ++ message ++ "\n"⟩]⟩

def misused (styled : Bool) (e : UsageError) : Report :=
  ⟨2, [⟨.errors, reduced styled (boldRed "error:" ++ " " ++ e.message ++ "\n")⟩]⟩

def after (r : Report) (chunks : List Chunk) : Report := { r with chunks := chunks ++ r.chunks }

/-- The text that was printed on a stream. -/
def printed (r : Report) (stream : Stream) : String :=
  String.join ((r.chunks.filter (·.stream == stream)).map (·.text))

end Report

def versionNumber : String := "0.1.0"

def logo : String :=
"
 _
| |_ __ ___   ___
| | '_ ` _ \\ / __|
| | | | | | | (__
|_|_| |_| |_|\\___|"

def welcome : String :=
"
Welcome to lmc, an all-in-one toolchain for the Little Man Computer:
a decimal machine with 100 mailboxes, one accumulator, and a tray for input and output.
Please use `-h` or `--help` to access the usage instructions and documentation.

"

def banner (st : Style) (c : Colour) : String :=
  "\n~ " ++ programName ++ " v" ++ versionNumber ++ " ~\n" ++ st.paint c logo ++ "\n" ++ welcome

def printed (s : String) : Chunk := ⟨.output, s⟩

def message (st : Style) (head rest : String) : Chunk := printed (headline st .green head rest)

def fileMessage (st : Style) (head path : String) : Chunk := message st head ("target " ++ path)

section

variable {m : Type → Type} [Monad m] (files : Files m)

def readText (path : String) : m (Except FileError String) := do
  match ← files.read path with
  | .error e => return .error e
  | .ok bytes => return (Text.ofUtf8? bytes).elim (.error .notText) .ok

/-- Reads a source text, and goes on with the program that it assembles to. -/
def withAssembled (path : String) (go : Program → m Report) : m Report := do
  match ← readText files path with
  | .error e => return .failed [] e.message
  | .ok src =>
    match Program.assemble src with
    | .error e => return .failed [] e.message
    | .ok p => go p

def compile (st : Style) (path : String) (target : Option String) : m Report := do
  let report ← withAssembled files path fun p => do
    let target := target.getD (Path.withExtension path "words")
    match ← files.write target p.wordList with
    | .error e => return .failed [] e.message
    | .ok written =>
      return .done (written ++ [message st "Finished" ("emit " ++ Decimal.text p.size ++ " words"),
        fileMessage st "Saved" target])
  return report.after [fileMessage st "Assembling" path]

def check (st : Style) (path : String) : m Report := do
  let report ← withAssembled files path fun _ =>
    return .done [message st "Success" "no errors found!"]
  return report.after [fileMessage st "Checking" path]

def listing (path : String) : m Report :=
  withAssembled files path fun p =>
    return .done [printed (p.listing ++
      if p.symbols.isEmpty then "" else "\n" ++ p.symbolListing)]

/-- A program in the form that the extension of its file tells, with its source text if it has
one. -/
def programOf (extension text : String) : Except String (Program × Option String) :=
  if extension = "words" then
    match Program.ofWordList text with
    | .ok p => .ok (p, none)
    | .error e => .error e.message
  else if extension = "lmc" ∨ extension = "asm" then
    match Program.assemble text with
    | .ok p => .ok (p, some text)
    | .error e => .error e.message
  else .error "File has unknown extension. Exiting..."

/-- How a program is run: the debugger with the commands given to it, or no debugger. -/
inductive Mode
  | plain
  | debugger (commands : Option String)
  deriving DecidableEq, Repr

def runProgram (s : Surroundings) (st : Style) (mode : Mode) (path : String) (inputs : List Int) :
    m Report := do
  let opening := fileMessage st "Assembling" path
  match Path.extension? path with
  | none => return .failed [opening] "File has no extension. Exiting..."
  | some extension =>
    match ← readText files path with
    | .error e => return .failed [opening] e.message
    | .ok text =>
      match programOf extension text with
      | .error e => return .failed [opening] e
      | .ok (program, source) =>
        let job : Job :=
          { program, source, inputs, stdin := s.stdin
            settings := Settings.ofVariables s.environment }
        let events := match mode with
          | .plain => job.run.events
          | .debugger commands => (job.debug commands).events
        let (_, chunks) := (Screen.fresh st).present events
        return .done ([opening, message st "Running" "loaded program"] ++ chunks ++
          [fileMessage st "Completed" path])

def carryOut (s : Surroundings) (i : Invocation) : m Report :=
  let st : Style := ⟨false, s.coloured⟩
  match i with
  | .banner =>
    return .done [printed (banner st (if s.mixesColours then .boldSkyBlue else .boldBrightBlue))]
  | .help topic => return .done [printed (reduced (s.styled s.onTerminal) (helpText topic))]
  | .version => return .done [printed (programName ++ " " ++ versionNumber ++ "\n")]
  | .run path inputs minimal => runProgram files s { st with minimal } .plain path inputs
  | .debug path commands inputs minimal =>
    runProgram files s { st with minimal } (.debugger commands) path inputs
  | .compile path target => compile files st path target
  | .check path => check files st path
  | .listing path => listing files path

/-- The whole program. -/
def answer (s : Surroundings) (arguments : List String) : m Report :=
  match Invocation.ofArguments arguments with
  | .error e => return .misused (s.styled s.errorsOnTerminal) e
  | .ok i => carryOut files s i

end

end LittleMan.CommandLine
