import LittleMan.Text.Wide
import LittleMan.Text.ZeroWidth

/-! Columns that a character takes up on a terminal. -/
namespace LittleMan.Text

/-- The Khmer sign for "and so on", which is drawn as three letters. -/
def khmerBeyyal : Char := '\u17D8'

def width (c : Char) : Nat :=
  if isZeroWidth c then 0
  else if isWide c then 2
  else if c = khmerBeyyal then 3
  else 1

end LittleMan.Text
