import LittleMan.Terminal.Paint
import LittleMan.Text.Decimal

/-! Faults of a command line, and how they are worded. What is at fault stands out. -/
namespace LittleMan.CommandLine

inductive UsageError
  | unexpected (argument : String)
  | unknownSubcommand (name : String)
  | valueMissing (argument : String)
  | valueInvalid (value argument reason : String)
  | valueSurplus (value argument : String)
  | repeated (argument : String)
  | argumentsMissing
  deriving DecidableEq, Repr

open Terminal in
def UsageError.message : UsageError → String
  | unexpected argument => "unexpected argument '" ++ yellow argument ++ "' found"
  | unknownSubcommand name => "unrecognized subcommand '" ++ yellow name ++ "'"
  | valueMissing argument =>
    "a value is required for '" ++ yellow argument ++ "' but none was supplied"
  | valueInvalid value argument reason =>
    "invalid value '" ++ yellow value ++ "' for '" ++ bold argument ++ "': " ++ reason
  | valueSurplus value argument =>
    "unexpected value '" ++ yellow value ++ "' for '" ++ bold argument ++
      "' found; no more were expected"
  | repeated argument => "the argument '" ++ yellow argument ++ "' cannot be used multiple times"
  | argumentsMissing => "the following required arguments were not provided:"

/-- Why a word is no integer of 64 bits. -/
def readFault : Decimal.ReadError → String
  | .empty => "cannot parse integer from empty string"
  | .invalidDigit => "invalid digit found in string"
  | .tooLarge => "number too large to fit in target type"
  | .tooSmall => "number too small to fit in target type"

end LittleMan.CommandLine
