import LittleMan.Program
import LittleMan.Text.Columns

/-! The listing of a program: address, word, label and disassembly of every cell. -/
namespace LittleMan.Program

def listingLine (p : Program) (address word : Nat) : String :=
  Decimal.zeroPadded 2 address ++ "  " ++ Decimal.zeroPadded 3 word ++ "  " ++
    Text.padRight 10 ((p.symbols.labelAt? address).getD "") ++ " " ++
    (Instruction.decode word).text ++ "\n"

def listing (p : Program) : String :=
  String.join (p.words.mapIdx p.listingLine)

/-- One line for each label, in order of definition. -/
def symbolListing (p : Program) : String :=
  String.join (p.symbols.entries.map fun e =>
    Text.padRight 10 e.1 ++ " " ++ Decimal.zeroPadded 2 e.2 ++ "\n")

end LittleMan.Program
