import LittleMan.Debugger.Command
import LittleMan.Text.Decimal

/-! Why a line is no command, and how that is worded. -/
namespace LittleMan.Debugger

inductive ValueError
  | mismatchedType (expected actual : String)
  | malformed
  | outOfRange (lo hi : Int)
  deriving DecidableEq, Repr

inductive ArgumentError
  | missing (argument : String) (expected actual : Nat)
  | tooMany (expected actual : Nat)
  | invalid (argument : String) (fault : ValueError)
  deriving DecidableEq, Repr

inductive CommandError
  | unknown (name : String)
  | missingSubcommand (name : String)
  | unknownSubcommand (name subcommand : String)
  | invalidArgument (name : CommandName) (fault : ArgumentError)
  deriving DecidableEq, Repr

def ValueError.message : ValueError → String
  | mismatchedType expected actual =>
    "Incorrect value type (expected " ++ expected ++ ", found " ++ actual ++ ")"
  | malformed => "Invalid value"
  | outOfRange lo hi =>
    "Integer out of range (must be " ++ Decimal.text lo ++ " to " ++ Decimal.text hi ++ ")"

def ArgumentError.message : ArgumentError → String
  | missing argument expected actual =>
    "Missing argument `" ++ argument ++ "` (expected " ++ Decimal.text expected ++ ", found " ++
      Decimal.text actual ++ ")"
  | tooMany expected actual =>
    "Too many arguments (expected " ++ Decimal.text expected ++ ", found " ++
      Decimal.text actual ++ ")"
  | invalid argument fault => "For argument `" ++ argument ++ "`: " ++ fault.message

def CommandError.message : CommandError → String
  | unknown name => "Not a command: `" ++ name ++ "`"
  | missingSubcommand name => "Missing subcommand for `" ++ name ++ "`"
  | unknownSubcommand name subcommand =>
    "Invalid subcommand `" ++ subcommand ++ "` for command `" ++ name ++ "`"
  | invalidArgument name fault => "In command `" ++ name.text ++ "`: " ++ fault.message

end LittleMan.Debugger
