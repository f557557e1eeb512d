import LittleMan.Source.Label
import LittleMan.Source.Line

/-! A line of code taken apart into label, mnemonic and operand. -/
namespace LittleMan.Source

structure Statement where
  /-- Without the colon, which the span still covers. -/
  label : Option Lexeme
  mnemonic : Option Lexeme
  operand : Option Lexeme
  /-- The whole line. -/
  span : Span
  deriving DecidableEq, Repr

/-- Words after the operand are ignored. -/
def Line.statement (l : Line) : Statement :=
  if isLabel l.first.text then
    { label := some { l.first with text := stripColon l.first.text }
      mnemonic := l.rest[0]?
      operand := l.rest[1]?
      span := l.span }
  else
    { label := none, mnemonic := some l.first, operand := l.rest[0]?, span := l.span }

def statements (src : String) : List Statement := (lines src).map Line.statement

end LittleMan.Source
