import LittleMan.Diagnostic
import LittleMan.Program
import LittleMan.Text.Bytes
import LittleMan.Text.Pieces

/-! Programs as plain lists of words: one decimal integer a line, blank lines ignored. -/
namespace LittleMan

namespace WordList

inductive Error
  | invalidWord (word : String) (line : Nat) (place : Span)
  | tooLong (count : Nat)
  deriving DecidableEq, Repr

namespace Error

def diagnostic : Error → Diagnostic
  | invalidWord word line place =>
    { message := "Invalid word `" ++ word ++ "` on line " ++ Decimal.text line
      code := "program::invalid_word"
      help := some "word lists contain one decimal integer per line"
      labels := [("not an integer", place)] }
  | tooLong count =>
    { message := "Word list is too long: " ++ Decimal.text count ++ " words, at most " ++
        Decimal.text memorySize ++ " fit in memory"
      code := "program::too_long" }

def message (e : Error) : String := e.diagnostic.message

end Error

/-- The integers on lines that are numbered from `line` and begin at byte `offset`. -/
def valuesFrom (line offset : Nat) : List (List Char) → Except Error (List Int)
  | [] => .ok []
  | row :: rows => do
    let after := offset + Text.byteLength row + 1
    let word := Text.trimmed row
    if word = [] then
      valuesFrom (line + 1) after rows
    else
      match Decimal.read? Decimal.signed64 (String.ofList word) with
      | some v => return v :: (← valuesFrom (line + 1) after rows)
      | none =>
        let start := offset + Text.byteLength (row.takeWhile Text.isBlank)
        .error (.invalidWord (String.ofList word) line ⟨start, Text.byteLength word⟩)

/-- Every line is read before their number is looked at. -/
def values (text : String) : Except Error (List Int) := do
  let vs ← valuesFrom 1 0 (Text.pieces (· = '\n') text.toList)
  if vs.length ≤ memorySize then .ok vs else .error (.tooLong vs.length)

end WordList

namespace Program

def ofWordList (text : String) : Except WordList.Error Program :=
  (WordList.values text).map ofWords

/-- Three digits and a newline for every word. -/
def wordList (p : Program) : String :=
  String.join (p.words.map fun w => Decimal.zeroPadded 3 w ++ "\n")

end Program

end LittleMan
