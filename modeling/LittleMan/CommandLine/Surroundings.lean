import LittleMan.Execution

/-! What surrounds a call of the program, and where it allows colours. -/
namespace LittleMan.CommandLine

structure Surroundings where
  environment : List (String × String)
  stdin : StandardInput
  /-- Whether output goes to a terminal. -/
  onTerminal : Bool
  /-- Whether errors go to a terminal. -/
  errorsOnTerminal : Bool
  deriving DecidableEq, Repr

namespace Surroundings

def value? (s : Surroundings) (name : String) : Option String := s.environment.lookup name

/-- Messages of a program at work. Colours can be asked for or refused by variables; otherwise a
terminal has them. -/
def coloured (s : Surroundings) : Bool :=
  let isOn := fun name => (s.value? name).map (· != "0")
  if isOn "CLICOLOR_FORCE" = some true then true
  else if (isOn "NO_COLOR").isSome then false
  else (isOn "CLICOLOR").getD true && s.onTerminal

/-- Whether any mixture of red, green and blue is a colour, and not only sixteen of them. -/
def mixesColours (s : Surroundings) : Bool :=
  s.value? "COLORTERM" = some "truecolor" || s.value? "COLORTERM" = some "24bit"

/-- Help, and faults of the command line. A refusal comes before a demand, an empty variable counts
for neither, and a terminal has to be known for its colours. -/
def styled (s : Surroundings) (onTerminal : Bool) : Bool :=
  let isFilled := fun name => (s.value? name).any (· != "")
  if isFilled "NO_COLOR" then false
  else if isFilled "CLICOLOR_FORCE" then true
  else if s.value? "CLICOLOR" = some "0" then false
  else onTerminal && ((s.value? "TERM").any (· != "dumb") ||
    (s.value? "CLICOLOR").isSome || (s.value? "CI").isSome)

end Surroundings

end LittleMan.CommandLine
