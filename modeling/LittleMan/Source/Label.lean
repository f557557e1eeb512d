import LittleMan.Mnemonic
import LittleMan.Text.Decimal

/-! Which words name labels, and the colon that may follow a name. -/
namespace LittleMan.Source

/-- One colon at the end is not part of a name. -/
def stripColon (s : String) : String :=
  if s.toList.getLast? = some ':' then String.ofList s.toList.dropLast else s

/-- Literals and mnemonics name nothing; every other word may be a label. -/
def isLabel (s : String) : Bool :=
  !Decimal.isLiteral s && (Mnemonic.ofName? s).isNone

end LittleMan.Source
