import LittleMan.Debugger.Notice

/-! Everything that a program and its debugger show, in order, and how it is printed. -/
namespace LittleMan

open Terminal

/-- How a run without the debugger ends. -/
inductive Ending
  | halted
  | stepLimit (limit : Nat)
  | noInput
  deriving DecidableEq, Repr

inductive Event
  /-- A value that the program emits. -/
  | output (value : Int)
  | notice (n : Debugger.Notice)
  /-- The debugger goes to the start of a line. -/
  | newLine
  | ended (ending : Ending)
  /-- A line of input that holds no value. -/
  | refused (line : String)
  /-- A line typed for the debugger, as the terminal shows it. -/
  | commandTyped (echo : String)
  /-- A line typed as input, as the terminal shows it. -/
  | inputTyped (echo : String)
  deriving DecidableEq, Repr

namespace Event

def value? : Event → Option Int
  | output v => some v
  | _ => none

end Event

/-- The values that a transcript shows. -/
def shownValues (events : List Event) : List Int := events.filterMap Event.value?

/-- A word in a column of twelve, and what there is to say. -/
def headline (st : Style) (c : Colour) (head rest : String) : String :=
  st.paint c (Text.padLeft 12 head) ++ " " ++ rest ++ "\n"

def Ending.text (st : Style) : Ending → String
  | halted => headline st .cyan "Halted" ""
  | stepLimit limit =>
    headline st .yellow "Stopped" ("step limit of " ++ Decimal.text limit ++ " reached")
  | noInput => headline st .yellow "Stopped" "waiting for input, none left"

def Event.prints (st : Style) : Event → List Print
  | output v => [.text .program (Decimal.text v ++ "\n")]
  | notice n => n.prints st.minimal
  | newLine => [.newLine .debugger]
  | ended e => [.newLine .program, .text .program (e.text st)]
  | refused line =>
    [.raw .errors (st.paint .red "Invalid input" ++ " `" ++ Text.trim line ++
      "`: inputs must be integers from -999 to 999\n")]
  | commandTyped echo => [.raw .output (styled "1;34" "Command:" ++ " " ++ echo)]
  | inputTyped echo =>
    [.newLine .program, .raw .output (st.paint .boldCyan "Input:" ++ " " ++ echo)]

def Terminal.Screen.present (sc : Screen) (events : List Event) : Screen × List Chunk :=
  sc.printAll (events.flatMap (Event.prints sc.style))

end LittleMan
