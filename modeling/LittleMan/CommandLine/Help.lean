import LittleMan.CommandLine.Invocation
import LittleMan.Text.Columns

/-! Pages of help: what a command does, how it is called, and what it takes. -/
namespace LittleMan.CommandLine

open Terminal (bold boldUnderlined visible)
open Text (blanks)

def programName : String := "lmc"

/-- A name as it is printed, and what it stands for. -/
structure HelpEntry where
  name : String
  about : String
  deriving DecidableEq, Repr

namespace HelpEntry

/-- Columns that the name takes up. -/
def width (e : HelpEntry) : Nat := (visible e.name).length

def line (column : Nat) (e : HelpEntry) : String :=
  "  " ++ e.name ++ blanks (column - e.width) ++ "  " ++ e.about ++ "\n"

def ofOption (r : OptionRule) : HelpEntry :=
  ⟨bold ("-" ++ r.short.toString) ++ ", " ++ bold ("--" ++ r.long) ++ r.valueLabel, r.about⟩

def ofPositional (r : PositionalRule) : HelpEntry := ⟨r.label, r.about⟩

def ofSubcommand (c : Subcommand) : HelpEntry := ⟨bold c.name, c.rules.about⟩

end HelpEntry

/-- What is explained begins in the same column for all entries, two columns behind the widest name.
Nothing is printed for no entries. -/
def helpSection (title : String) (entries : List HelpEntry) : String :=
  match (entries.map HelpEntry.width).max? with
  | none => ""
  | some column =>
    "\n" ++ boldUnderlined (title ++ ":") ++ "\n" ++ String.join (entries.map (·.line column))

namespace Rules

/-- Whether there are options beside those on the program itself. -/
def hasOwnOptions (rules : Rules) : Bool :=
  rules.options.any fun r => r.purpose != .help && r.purpose != .version

/-- How a command is called. -/
def usage (rules : Rules) (name : String) : String :=
  boldUnderlined "Usage:" ++ " " ++ bold name ++
    (if rules.hasOwnOptions then " [OPTIONS]" else "") ++
    String.join (rules.positionals.map fun r => " " ++ r.label) ++
    (if rules.subcommands.isEmpty then "" else " [COMMAND]") ++ "\n"

def helpPage (rules : Rules) (name : String) : String :=
  rules.about ++ "\n\n" ++ rules.usage name ++
    helpSection "Commands" ((rules.subcommands.filterMap Subcommand.ofName?).map .ofSubcommand) ++
    helpSection "Arguments" (rules.positionals.map .ofPositional) ++
    helpSection "Options" (rules.options.map .ofOption)

end Rules

/-- Help on a subcommand, or on the program as a whole. -/
def helpText : Option Subcommand → String
  | none => programRules.helpPage programName
  | some c => c.rules.helpPage (programName ++ " " ++ c.name)

end LittleMan.CommandLine
