/-! Words compared without regard to case. -/
namespace LittleMan.Text

/-- Letters of the basic Latin alphabet are equal in both cases, and no others. -/
def sameLetters (a b : String) : Bool :=
  a.toList.map Char.toUpper == b.toList.map Char.toUpper

end LittleMan.Text
