import LittleMan.Span

/-! The part of a text that a span covers. -/
namespace LittleMan.Source

/-- What follows the first bytes, unless these end inside a character or past the text. -/
def dropBytes : Nat → List Char → Option (List Char)
  | 0, cs => some cs
  | _ + 1, [] => none
  | n + 1, c :: cs => if c.utf8Size ≤ n + 1 then dropBytes (n + 1 - c.utf8Size) cs else none

/-- The first bytes, unless these end inside a character or past the text. -/
def takeBytes : Nat → List Char → Option (List Char)
  | 0, _ => some []
  | _ + 1, [] => none
  | n + 1, c :: cs =>
    if c.utf8Size ≤ n + 1 then (takeBytes (n + 1 - c.utf8Size) cs).map (c :: ·) else none

def slice? (src : String) (s : Span) : Option String :=
  ((dropBytes s.offset src.toList).bind (takeBytes s.length)).map String.ofList

end LittleMan.Source
