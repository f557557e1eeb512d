import LittleMan.CommandLine.Matching

/-! The subcommands of the program, and what a command line asks for. -/
namespace LittleMan.CommandLine

inductive Subcommand
  | run
  | debug
  | compile
  | check
  | listing
  | help
  deriving DecidableEq, Repr

namespace Subcommand

def all : List Subcommand := [run, debug, compile, check, listing, help]

def name : Subcommand → String
  | run => "run"
  | debug => "debug"
  | compile => "compile"
  | check => "check"
  | listing => "listing"
  | help => "help"

def ofName? (s : String) : Option Subcommand := all.find? (·.name == s)

end Subcommand

def helpOption : OptionRule :=
  { long := "help", short := 'h', purpose := .help, about := "Print help" }

def versionOption : OptionRule :=
  { long := "version", short := 'V', purpose := .version, about := "Print version" }

def inputOption : OptionRule :=
  { long := "input", short := 'i', purpose := .integer (-999) 999, valueName := "VALUE"
    about := "Input values, consumed before any are read from stdin" }

def minimalOption : OptionRule :=
  { long := "minimal", short := 'm', purpose := .flag
    about := "Produce minimal output, suited for blackbox tests" }

def commandOption : OptionRule :=
  { long := "command", short := 'c', purpose := .text, valueName := "COMMAND"
    about := "Read debugger commands from argument" }

def programRules : Rules :=
  { about := "An assembler, interpreter and debugger for the Little Man Computer"
    options := [helpOption, versionOption]
    positionals :=
      [{ name := "PATH", isRequired := false, about := "Quickly provide a `.lmc` file to run" }]
    subcommands := Subcommand.all.map Subcommand.name }

/-- The file that a subcommand works on. -/
def nameRule (about : String) : PositionalRule := { name := "NAME", isRequired := true, about }

def Subcommand.rules : Subcommand → Rules
  | run =>
    { about := "Run assembly source or a `.words` file and output to terminal"
      options := [inputOption, minimalOption, helpOption]
      positionals := [nameRule "`.lmc`, `.asm` or `.words` file to run"] }
  | debug =>
    { about := "Run a program with the debugger"
      options := [commandOption, inputOption, minimalOption, helpOption]
      positionals := [nameRule "`.lmc`, `.asm` or `.words` file to run"] }
  | compile =>
    { about := "Assemble to a `.words` file, one memory word per line"
      options := [helpOption]
      positionals := [nameRule "Assembly file to compile",
        { name := "DEST", isRequired := false, about := "Destination to output `.words` file" }] }
  | check =>
    { about := "Check an assembly file without running or outputting words"
      options := [helpOption]
      positionals := [nameRule "File to check"] }
  | listing =>
    { about := "Print the assembled words, their disassembly, and the symbol table"
      options := [helpOption]
      positionals := [nameRule "Assembly file to list"] }
  | help =>
    { about := "Print this message or the help of the given subcommand(s)"
      options := []
      positionals := [{ name := "COMMAND", isRequired := false, repeats := true
                        about := "Print help for the subcommand(s)" }] }

namespace Given

def path (g : Given) : String := g.positionals.headD ""

def inputs (g : Given) : List Int := g.integers.map (·.2)

def isMinimal (g : Given) : Bool := minimalOption.long ∈ g.flags

end Given

/-- What a command line asks for. -/
inductive Invocation
  | banner
  /-- On a subcommand, or on the program as a whole. -/
  | help (topic : Option Subcommand)
  | version
  | run (path : String) (inputs : List Int) (minimal : Bool)
  | debug (path : String) (commands : Option String) (inputs : List Int) (minimal : Bool)
  | compile (path : String) (target : Option String)
  | check (path : String)
  | listing (path : String)
  deriving DecidableEq, Repr

/-- What an early end comes to, with the subcommand that it came up in. -/
def Interrupt.resolve (topic : Option Subcommand) : Interrupt → Except UsageError Invocation
  | .fault e => .error e
  | .help => .ok (.help topic)
  | .version => .ok .version

/-- Help on a subcommand, named by the first argument if there is one. -/
def helpOn : List String → Except UsageError Invocation
  | [] => .ok (.help none)
  | a :: as =>
    match Subcommand.ofName? a, as with
    | none, _ => .error (.unknownSubcommand a)
    | some c, [] => .ok (.help (some c))
    | some _, b :: _ => .error (.unknownSubcommand b)

def Subcommand.invocation (c : Subcommand) (g : Given) : Invocation :=
  match c with
  | .run => .run g.path g.inputs g.isMinimal
  | .debug => .debug g.path (g.texts.lookup commandOption.long) g.inputs g.isMinimal
  | .compile => .compile g.path g.positionals[1]?
  | .check => .check g.path
  | .listing => .listing g.path
  | .help => .help none

/-- All that the arguments give, if none of them is a subcommand. -/
def Rules.given (rules : Rules) (arguments : List String) : Matching Given := do
  (← matchArguments rules .initial arguments).1.finish rules

/-- A path alone is run. -/
def Invocation.ofPositionals : List String → Invocation
  | [] => .banner
  | path :: _ => .run path [] false

/-- A subcommand wins over a path in front of it, which is still looked at. -/
def Invocation.ofArguments (arguments : List String) : Except UsageError Invocation :=
  match matchArguments programRules .initial arguments with
  | .error i => i.resolve none
  | .ok (s, none) =>
    match s.finish programRules with
    | .error i => i.resolve none
    | .ok g => .ok (.ofPositionals g.positionals)
  | .ok (s, some (name, rest)) =>
    match Subcommand.ofName? name with
    | none => .error (.unknownSubcommand name)
    | some .help => helpOn rest
    | some c =>
      match c.rules.given rest with
      | .error i => i.resolve (some c)
      | .ok g =>
        match s.finish programRules with
        | .error i => i.resolve none
        | .ok _ => .ok (c.invocation g)

end LittleMan.CommandLine
