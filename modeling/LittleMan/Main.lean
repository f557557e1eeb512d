import LittleMan.CommandLine.Disk
import LittleMan.CommandLine.Report

/-! The program on a real system: files, variables and streams around `CommandLine.answer`. -/
namespace LittleMan.CommandLine

def fileError : IO.Error → FileError
  | .noFileOrDirectory .. => .notFound
  | .permissionDenied .. => .forbidden
  | .inappropriateType _ code _ => if code = 21 then .isFolder else .notFolder
  | .resourceExhausted _ 28 _ => .noSpace
  | .invalidArgument _ 36 _ => .nameTooLong
  | e => .other (toString e)

def systemFiles : Files IO where
  read path := do
    try return .ok (← IO.FS.readBinFile path).toList
    catch e => return .error (fileError e)
  write path content := do
    match Device.ofPath? path with
    | some (.stream s) => return .ok [⟨s, content⟩]
    | _ =>
      try
        IO.FS.writeFile path content
        return .ok []
      catch e => return .error (fileError e)

/-- All that is left of a stream. -/
partial def readAll (input : IO.FS.Stream) (bytes : ByteArray) : IO ByteArray := do
  let more ← input.read 4096
  if more.isEmpty then return bytes else readAll input (bytes ++ more)

def variableNames : List String :=
  ["LMC_STEP_LIMIT", "LMC_STEP_DELAY_MS", "CLICOLOR", "CLICOLOR_FORCE", "NO_COLOR", "COLORTERM",
   "TERM", "CI"]

def environment : IO (List (String × String)) :=
  variableNames.filterMapM fun name => do return (← IO.getEnv name).map (name, ·)

def readsInput (arguments : List String) : Bool :=
  match Invocation.ofArguments arguments with
  | .ok (.run ..) | .ok (.debug ..) => true
  | _ => false

/-- Standard input is read to its end before the program begins, so a terminal that it is typed on
shows it as it always does. -/
def runSystem (arguments : List String) : IO UInt32 := do
  let input ← IO.getStdin
  let bytes ← if readsInput arguments then readAll input .empty else pure .empty
  let output ← IO.getStdout
  let errors ← IO.getStderr
  let surroundings : Surroundings :=
    ⟨← environment, ⟨bytes.toList, false⟩, ← output.isTty, ← errors.isTty⟩
  let report ← answer systemFiles surroundings arguments
  for chunk in report.chunks do
    match chunk.stream with
    | .output => output.putStr chunk.text
    | .errors => errors.putStr chunk.text
  output.flush
  return report.exitCode.toUInt32

end LittleMan.CommandLine

def main (arguments : List String) : IO UInt32 := LittleMan.CommandLine.runSystem arguments
