import LittleMan.Machine
import LittleMan.Terminal.Screen
import LittleMan.Text.Columns

/-! Registers, memory and single values as they are shown to the user. -/
namespace LittleMan.Terminal

open Decimal (zeroPadded)
open Text (blanks padLeft padRight)

def status (s : Snapshot) : String :=
  if s.halted then "halted" else if s.waiting then "waiting for input" else "ready"

def panelEdge (left right : String) : String :=
  dim (left ++ String.ofList (List.replicate 30 '─') ++ right) ++ "\n"

def panelRow (content : String) : String := dim "│" ++ " " ++ content ++ dim "│" ++ "\n"

/-- Lines of text, or a panel with one row for each register. -/
def registerTexts (minimal : Bool) (s : Snapshot) : List String :=
  if minimal then
    ["ACC " ++ Decimal.text s.accumulator ++ "\n",
     "PC " ++ Decimal.text s.counter ++ "\n",
     "IR " ++ Decimal.text s.fetched ++ "\n",
     "STATUS " ++ status s ++ "\n"]
  else
    [panelEdge "┌" "┐",
     panelRow (bold "ACC" ++ "  " ++ padLeft 4 (Decimal.text s.accumulator) ++ "   (" ++
       zeroPadded 3 (Word.ofInt s.accumulator) ++ ")" ++ blanks 13),
     panelRow (bold "PC" ++ "   " ++ zeroPadded 2 s.counter ++ blanks 22),
     panelRow (bold "IR" ++ "   " ++ zeroPadded 3 s.fetched ++ "  " ++
       padRight 18 (Instruction.decode s.fetched).text),
     panelRow (bold "ADR" ++ "  " ++ zeroPadded 2 s.addressPart ++ blanks 22),
     panelRow (italic (padRight 28 (status s)) ++ " "),
     panelEdge "└" "┘"]

/-- The cell at the counter stands out. -/
def cellText (minimal : Bool) (s : Snapshot) (address : Nat) : String :=
  let word := zeroPadded 3 ((s.memory[address]?).getD 0)
  if address = s.counter ∧ minimal = false then inverse word ++ " " else word ++ " "

def memoryRow (minimal : Bool) (s : Snapshot) (row : Nat) : List String :=
  let first := row * 10
  (if minimal then [] else [dim (zeroPadded 2 first) ++ "  "]) ++
    (List.range 10).map (fun column => cellText minimal s (first + column)) ++ ["\n"]

def memoryHeading : List String :=
  [sequence "2" ++ blanks 4] ++
    (List.range 10).map (fun (column : Nat) => "  " ++ Decimal.text column ++ " ") ++
    [plain ++ "\n"]

/-- Ten rows of ten cells, with a heading unless output is minimal. -/
def memoryTexts (minimal : Bool) (s : Snapshot) : List String :=
  (if minimal then [] else memoryHeading) ++ (List.range 10).flatMap (memoryRow minimal s)

/-- A value, and the word and instruction that it is in memory. -/
def integerText (minimal : Bool) (v : Int) : String :=
  if minimal then Decimal.text v ++ "\n"
  else
    let word := Word.ofInt v
    padLeft 5 (Decimal.text v) ++ "  " ++
      dim (zeroPadded 3 word ++ "  " ++ (Instruction.decode word).text) ++ "\n"

end LittleMan.Terminal
