import LittleMan.Span

/-! A fault as it is shown: what is wrong, what would help, and where in the text it is. -/
namespace LittleMan

structure Diagnostic where
  message : String
  code : String
  help : Option String := none
  /-- Remarks on places in the text. -/
  labels : List (String × Span) := []
  deriving DecidableEq, Repr

end LittleMan
