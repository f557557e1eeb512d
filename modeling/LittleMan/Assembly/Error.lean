import LittleMan.Diagnostic
import LittleMan.Text.Decimal
import LittleMan.Word

/-! Why a source text does not assemble, and how that is worded. -/
namespace LittleMan.Assembly

inductive Error
  | duplicateLabel (label : String) (first : Option Span) (again : Span)
  | programTooLong (line : Span)
  | unknownMnemonic (mnemonic : String) (place : Span)
  | addressOutOfRange (value : Int) (place : Span)
  | undefinedLabel (label : String) (place : Span)
  deriving DecidableEq, Repr

namespace Error

def diagnostic : Error → Diagnostic
  | duplicateLabel label first again =>
    { message := "Duplicate label `" ++ label ++ "`"
      code := "asm::duplicate_label"
      help := some "labels may only be defined once per program"
      labels := (first.map fun s => ("first defined here", s)).toList ++
        [("defined again here", again)] }
  | programTooLong line =>
    { message := "Program is too long: more than " ++ Decimal.text memorySize ++ " instructions"
      code := "asm::too_long"
      help := some "every line which is not blank or a comment occupies one memory cell"
      labels := [("this line does not fit in memory", line)] }
  | unknownMnemonic mnemonic place =>
    { message := "Unknown mnemonic `" ++ mnemonic ++ "`"
      code := "asm::unknown_mnemonic"
      help := some "available mnemonics are ADD, SUB, STA, LDA, BRA, BRZ, BRP, IN, OUT, HLT and DAT"
      labels := [("unknown mnemonic", place)] }
  | addressOutOfRange value place =>
    { message := "Address " ++ Decimal.text value ++ " is out of range"
      code := "asm::address_range"
      help := some "addresses must be within 0 to 99"
      labels := [("not a memory address", place)] }
  | undefinedLabel label place =>
    { message := "Undefined label `" ++ label ++ "`"
      code := "asm::undefined_label"
      help := some "operands must be a decimal literal or a label defined in this program"
      labels := [("label not found", place)] }

def message (e : Error) : String := e.diagnostic.message

end Error

end LittleMan.Assembly
