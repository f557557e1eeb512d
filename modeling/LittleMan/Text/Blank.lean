/-! The White_Space property of Unicode, and trimming by it. -/
namespace LittleMan.Text

/-- Code points of White_Space, as closed ranges in increasing order. -/
def blankRanges : List (Nat × Nat) :=
  [(0x09, 0x0D), (0x20, 0x20), (0x85, 0x85), (0xA0, 0xA0), (0x1680, 0x1680), (0x2000, 0x200A),
   (0x2028, 0x2029), (0x202F, 0x202F), (0x205F, 0x205F), (0x3000, 0x3000)]

def isBlank (c : Char) : Bool :=
  blankRanges.any fun r => r.1 ≤ c.toNat && c.toNat ≤ r.2

def dropBlanksEnd (cs : List Char) : List Char :=
  (cs.reverse.dropWhile isBlank).reverse

def trimmed (cs : List Char) : List Char :=
  dropBlanksEnd (cs.dropWhile isBlank)

/-- Blanks are dropped at both ends. -/
def trim (s : String) : String := String.ofList (trimmed s.toList)

end LittleMan.Text
