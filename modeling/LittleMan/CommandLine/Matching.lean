import LittleMan.CommandLine.Usage
import LittleMan.Text.Similarity

/-! Arguments matched against rules: options, positional arguments and subcommands. -/
namespace LittleMan.CommandLine

/-- What an option is for. -/
inductive Purpose
  /-- Set or not, at most once. -/
  | flag
  /-- One text, at most once. -/
  | text
  /-- An integer within bounds, each time. -/
  | integer (lo hi : Int)
  | help
  | version
  deriving DecidableEq, Repr

structure OptionRule where
  long : String
  short : Char
  purpose : Purpose
  valueName : String := ""
  about : String
  deriving DecidableEq, Repr

namespace OptionRule

def takesValue (r : OptionRule) : Bool :=
  match r.purpose with
  | .text | .integer .. => true
  | .flag | .help | .version => false

/-- The name of the value, behind the option itself. -/
def valueLabel (r : OptionRule) : String := if r.takesValue then " <" ++ r.valueName ++ ">" else ""

/-- How messages call the option. -/
def label (r : OptionRule) : String := "--" ++ r.long ++ r.valueLabel

end OptionRule

structure PositionalRule where
  name : String
  isRequired : Bool
  /-- Whether it stands for any number of arguments. -/
  repeats : Bool := false
  about : String
  deriving DecidableEq, Repr

def PositionalRule.label (r : PositionalRule) : String :=
  (if r.isRequired then "<" ++ r.name ++ ">" else "[" ++ r.name ++ "]") ++
    (if r.repeats then "..." else "")

/-- What a command takes. -/
structure Rules where
  about : String
  options : List OptionRule
  positionals : List PositionalRule
  /-- Names of the commands under it. -/
  subcommands : List String := []

/-- What has been given, by the long names of options. -/
structure Given where
  flags : List String
  texts : List (String × String)
  integers : List (String × Int)
  positionals : List String
  deriving DecidableEq, Repr

/-- What ends the matching of arguments early. -/
inductive Interrupt
  | fault (e : UsageError)
  | help
  | version
  deriving DecidableEq, Repr

abbrev Matching := Except Interrupt

def refuse {α : Type} (e : UsageError) : Matching α := .error (.fault e)

namespace Given

def nothing : Given := ⟨[], [], [], []⟩

def setFlag (g : Given) (r : OptionRule) : Matching Given :=
  match r.purpose with
  | .help => .error .help
  | .version => .error .version
  | .flag | .text | .integer .. =>
    if r.long ∈ g.flags then refuse (.repeated r.label)
    else .ok { g with flags := g.flags ++ [r.long] }

def setInteger (g : Given) (r : OptionRule) (lo hi : Int) (v : String) : Matching Given :=
  match Decimal.read Decimal.signed64 v with
  | .error e => refuse (.valueInvalid v r.label (readFault e))
  | .ok n =>
    if lo ≤ n ∧ n ≤ hi then .ok { g with integers := g.integers ++ [(r.long, n)] }
    else
      refuse (.valueInvalid v r.label
        (Decimal.text n ++ " is not in " ++ Decimal.text lo ++ "..=" ++ Decimal.text hi))

def setValue (g : Given) (r : OptionRule) (v : String) : Matching Given :=
  match r.purpose with
  | .integer lo hi => g.setInteger r lo hi v
  | .text =>
    if (g.texts.lookup r.long).isSome then refuse (.repeated r.label)
    else .ok { g with texts := g.texts ++ [(r.long, v)] }
  | .flag | .help | .version => .ok g

def addPositional (g : Given) (r : PositionalRule) (v : String) : Matching Given :=
  if v.isEmpty then refuse (.valueMissing r.label)
  else .ok { g with positionals := g.positionals ++ [v] }

end Given

/-- The last argument, which is looked at only when it is clear that it is complete. -/
inductive Pending
  | nothing
  /-- An option whose value is still to come. -/
  | option (r : OptionRule)
  | value (r : OptionRule) (v : String)
  | positional (r : PositionalRule) (v : String)
  deriving DecidableEq, Repr

structure State where
  given : Given
  pending : Pending
  /-- Positional arguments so far. -/
  placed : Nat
  /-- Whether the mark has been seen after which no argument is an option. -/
  optionsOver : Bool
  deriving DecidableEq, Repr

namespace State

def initial : State := ⟨.nothing, .nothing, 0, false⟩

/-- Looks at the pending argument. -/
def settle (s : State) : Matching Given :=
  match s.pending with
  | .nothing => .ok s.given
  | .option r => refuse (.valueMissing r.label)
  | .value r v => s.given.setValue r v
  | .positional r v => s.given.addPositional r v

def awaiting? (s : State) : Option OptionRule :=
  match s.pending with
  | .option r => some r
  | .nothing | .value .. | .positional .. => none

/-- An option without a value. -/
def raise (s : State) (r : OptionRule) : Matching State := do
  return { s with given := ← (← s.settle).setFlag r, pending := .nothing }

/-- An option whose value is the next argument. -/
def await (s : State) (r : OptionRule) : Matching State := do
  return { s with given := ← s.settle, pending := .option r }

/-- An option with its value in the same argument. -/
def assign (s : State) (r : OptionRule) (v : String) : Matching State := do
  return { s with given := ← (← s.settle).setValue r v, pending := .nothing }

/-- An option given by its long name, with a value after an equals sign or without. -/
def long (rules : Rules) (s : State) (name : String) (value : Option String) : Matching State :=
  match rules.options.find? (·.long == name), value with
  | none, _ => refuse (.unexpected ("--" ++ name))
  | some r, none => if r.takesValue then s.await r else s.raise r
  | some r, some v => if r.takesValue then s.assign r v else refuse (.valueSurplus v r.label)

/-- Options given by letters, of which the last one may have its value behind it. -/
def short (rules : Rules) (s : State) : List Char → Matching State
  | [] => .ok s
  | c :: cs =>
    match rules.options.find? (·.short == c) with
    | none => refuse (.unexpected (String.ofList ['-', c]))
    | some r =>
      if r.takesValue then
        match cs with
        | [] => s.await r
        | '=' :: v => s.assign r (String.ofList v)
        | v => s.assign r (String.ofList v)
      else do (← s.raise r).short rules cs

/-- The next positional argument, if one is left. -/
def place (rules : Rules) (s : State) (v : String) : Matching State :=
  match rules.positionals[s.placed]? with
  | some r => do
    return { s with given := ← s.settle, pending := .positional r v, placed := s.placed + 1 }
  | none =>
    if s.optionsOver ∧ v ∈ rules.subcommands then refuse (.unexpected v)
    else if rules.subcommands.any (Text.similar v) then refuse (.unknownSubcommand v)
    else refuse (.unexpected v)

end State

/-- Digits with a point or an exponent, neither of them in front. `exponent` tells whether one has
been seen, and `bare` whether it still lacks its digits. -/
def numericFrom (start point exponent bare : Bool) : List Char → Bool
  | [] => !bare
  | c :: cs =>
    if c.isDigit then numericFrom false point exponent false cs
    else if c = '.' ∧ !start ∧ !point ∧ !exponent then numericFrom false true false false cs
    else if (c = 'e' ∨ c = 'E') ∧ !start ∧ !exponent then numericFrom false point true true cs
    else false

/-- Whether what follows a minus makes it a number rather than letters of options. -/
def isNumeric (cs : List Char) : Bool := numericFrom true false false false cs

/-- The name and the value of a long option. -/
def splitLong (cs : List Char) : String × Option String :=
  (String.ofList (cs.takeWhile (· != '=')),
    match cs.dropWhile (· != '=') with
    | [] => none
    | _ :: v => some (String.ofList v))

/-- One argument that is no subcommand. -/
def State.take (rules : Rules) (s : State) (a : String) : Matching State :=
  if s.optionsOver then s.place rules a
  else
    match a.toList with
    | ['-', '-'] => .ok { s with optionsOver := true }
    | '-' :: '-' :: cs =>
      let (name, value) := splitLong cs
      s.long rules name value
    | '-' :: c :: cs =>
      match s.awaiting? with
      | some r =>
        if r.purpose matches .integer .. && isNumeric (c :: cs) then
          .ok { s with pending := .value r a }
        else s.short rules (c :: cs)
      | none => s.short rules (c :: cs)
    | _ =>
      match s.awaiting? with
      | some r => .ok { s with pending := .value r a }
      | none => s.place rules a

/-- Arguments matched up to a subcommand, which comes with the arguments after it. -/
def matchArguments (rules : Rules) (s : State) :
    List String → Matching (State × Option (String × List String))
  | [] => .ok (s, none)
  | a :: as =>
    if !s.optionsOver ∧ s.awaiting?.isNone ∧ a ∈ rules.subcommands then .ok (s, some (a, as))
    else do matchArguments rules (← s.take rules a) as

/-- All that was given, once every required argument is there. -/
def State.finish (rules : Rules) (s : State) : Matching Given := do
  let given ← s.settle
  if (rules.positionals.drop given.positionals.length).any (·.isRequired) then
    refuse .argumentsMissing
  else .ok given

end LittleMan.CommandLine
