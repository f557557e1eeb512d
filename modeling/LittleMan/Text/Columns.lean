/-! Texts filled up with spaces to the width of a column, which counts characters. -/
namespace LittleMan.Text

def padRight (width : Nat) (s : String) : String :=
  String.ofList (s.toList.rightpad width ' ')

def padLeft (width : Nat) (s : String) : String :=
  String.ofList (s.toList.leftpad width ' ')

def blanks (n : Nat) : String := padLeft n ""

end LittleMan.Text
