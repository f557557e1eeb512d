import LittleMan.Assembly.Draft

/-! The second pass: statements encoded as words once all labels are known. -/
namespace LittleMan.Assembly

open Source

/-- A missing operand is 0, a literal is its value, and any other word has to name a label. -/
def operandValue (symbols : SymbolTable) : Option Lexeme → Except Error Int
  | none => .ok 0
  | some operand =>
    match Decimal.literal? operand.text with
    | some v => .ok v
    | none =>
      match symbols.get? operand.text with
      | some address => .ok address
      | none => .error (.undefinedLabel operand.text operand.span)

/-- Instructions that take no address ignore their operand. -/
def encodeAs (symbols : SymbolTable) (m : Mnemonic) (place : Span) (operand : Option Lexeme) :
    Except Error Nat :=
  if m = .data then do
    return Word.ofInt (← operandValue symbols operand)
  else if m.takesAddress then do
    let v ← operandValue symbols operand
    if 0 ≤ v ∧ v < memorySize then
      return m.base + v.toNat
    else
      .error (.addressOutOfRange v ((operand.map (·.span)).getD place))
  else
    .ok m.base

/-- A label alone still takes up a cell. -/
def encode (symbols : SymbolTable) (s : Statement) : Except Error Nat :=
  match s.mnemonic with
  | none => .ok 0
  | some word =>
    match Mnemonic.ofName? word.text with
    | none => .error (.unknownMnemonic word.text word.span)
    | some m => encodeAs symbols m word.span s.operand

def encodeAll (symbols : SymbolTable) : List Statement → Except Error (List Nat)
  | [] => .ok []
  | s :: ss => do
    let w ← encode symbols s
    return w :: (← encodeAll symbols ss)

def Draft.encode (d : Draft) : Except Error (List Nat) := encodeAll d.symbols d.statements

end LittleMan.Assembly
