import LittleMan.Text.Case

/-! What the debugger can be told to do, and the names of its commands. -/
namespace LittleMan.Debugger

/-- A place in memory as a command writes it. -/
inductive Location
  | address (a : Nat)
  /-- Looked up in the symbol table when the command is carried out. -/
  | label (name : String)
  | counter
  deriving DecidableEq, Repr

inductive Command
  | help
  | step (count : Nat)
  | proceed
  | quit
  | exit
  | registers
  | memory
  | outputs
  | breakList
  | breakAdd (place : Location)
  | breakRemove (place : Location)
  | read (place : Location)
  | write (place : Location) (value : Int)
  | jump (place : Location)
  | input (value : Int)
  | reset
  | source (place : Location)
  deriving DecidableEq, Repr

inductive CommandName
  | help
  | step
  | proceed
  | quit
  | exit
  | registers
  | memory
  | outputs
  | breakList
  | breakAdd
  | breakRemove
  | read
  | write
  | jump
  | input
  | reset
  | source
  deriving DecidableEq, Repr

namespace CommandName

def all : List CommandName :=
  [help, step, proceed, quit, exit, registers, memory, outputs, breakList, breakAdd, breakRemove,
   read, write, jump, input, reset, source]

theorem mem_all (n : CommandName) : n ∈ all := by cases n <;> decide

/-- How messages call the command. -/
def text : CommandName → String
  | help => "help"
  | step => "step"
  | proceed => "continue"
  | quit => "quit"
  | exit => "exit"
  | registers => "registers"
  | memory => "memory"
  | outputs => "outputs"
  | breakList => "break list"
  | breakAdd => "break add"
  | breakRemove => "break remove"
  | read => "get"
  | write => "set"
  | jump => "jump"
  | input => "input"
  | reset => "reset"
  | source => "source"

/-- Single words that stand for the command. -/
def aliases : CommandName → List String
  | help => ["help", "--help", "h", "-h", "?"]
  | step => ["step", "s"]
  | proceed => ["continue", "cont", "c"]
  | quit => ["quit", "q"]
  | exit => ["exit"]
  | registers => ["registers", "reg", "r"]
  | memory => ["memory", "mem", "m"]
  | outputs => ["outputs", "out", "o"]
  | breakList => ["breaklist", "bl"]
  | breakAdd => ["breakadd", "ba"]
  | breakRemove => ["breakremove", "br"]
  | read => ["get", "g"]
  | write => ["set"]
  | jump => ["jump", "j"]
  | input => ["input", "in", "i"]
  | reset => ["reset"]
  | source => ["source", "src", "asm"]

/-- Words that may follow `break`. -/
def breakAliases : CommandName → List String
  | breakList => ["list", "l"]
  | breakAdd => ["add", "a"]
  | breakRemove => ["remove", "r"]
  | _ => []

def ofWord? (w : String) : Option CommandName :=
  all.find? fun n => n.aliases.any (Text.sameLetters w)

def ofBreakWord? (w : String) : Option CommandName :=
  all.find? fun n => n.breakAliases.any (Text.sameLetters w)

end CommandName

def isBreak (w : String) : Bool := ["break", "b"].any (Text.sameLetters w)

end LittleMan.Debugger
